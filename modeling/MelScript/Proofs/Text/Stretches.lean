import Mathlib.Algebra.GroupWithZero.Nat
import Mathlib.Data.List.Basic
import Mathlib.Data.List.TakeWhile
import MelScript.Text.Lines
import MelScript.Token

/-! # Where stretches of a text stand

  The library cuts texts in several ways: into runs, into the pieces between
  line feeds, and by dropping a tail. Each cut is told here by what stands before
  the stretch and what stands after it, from which columns and offsets follow.

  The runs that are found in a text are exactly its longest stretches of the
  characters in question (`mem_runs_iff`), in order and apart from each other.
-/

namespace MelScript.Text

/-! ### Runs -/

/-- Dropping characters stops at one that is not to be dropped. -/
theorem not_of_mem_head?_dropWhile {p : Char → Bool} {t : Text} {c : Char}
    (h : c ∈ (t.dropWhile p).head?) : p c = false := by
  rw [← List.find?_not_eq_head?_dropWhile] at h
  simpa using List.find?_some h

/-- Between `u` and `v`, the stretch `w` is a longest one of `p`-characters. -/
structure Longest (p : Char → Bool) (u w v : Text) : Prop where
  nonempty : w ≠ []
  inside : ∀ c ∈ w, p c = true
  left : ∀ c ∈ u.getLast?, p c = false
  right : ∀ c ∈ v.head?, p c = false

/-- A run of `p`-characters of a text, told by what stands before it and after it. -/
def IsRun (p : Char → Bool) (t : Text) (r : Run) : Prop :=
  ∃ u v, t = u ++ r.text ++ v ∧ r.column = u.width ∧ Longest p u r.text v

section

variable {p : Char → Bool} {t u w v : Text} {column : Nat} {r : Run}

theorem width_pos (h : t ≠ []) : 0 < t.width := by
  obtain ⟨c, rest, rfl⟩ := List.exists_cons_of_ne_nil h
  have hpos := units_pos c
  rw [width_cons]
  omega

/-- A place in a text is told by the width of what stands before it. -/
theorem append_inj_of_width {u' v' : Text} (h : u ++ v = u' ++ v') (hwidth : u.width = u'.width) :
    u = u' ∧ v = v' := by
  induction u generalizing u' with
  | nil =>
    by_cases hu' : u' = []
    · subst hu'
      exact ⟨rfl, h⟩
    · have hpos := width_pos hu'
      rw [width_nil] at hwidth
      omega
  | cons c u ih =>
    cases u' with
    | nil =>
      have hpos := units_pos c
      rw [width_cons, width_nil] at hwidth
      omega
    | cons d u' =>
      obtain ⟨rfl, hrest⟩ := List.cons.inj h
      obtain ⟨hu, hv⟩ := ih hrest (by rw [width_cons, width_cons] at hwidth; omega)
      exact ⟨by rw [hu], hv⟩

/-- A longest stretch at the start is all that can be taken from there. -/
theorem Longest.takeWhile_eq (h : Longest p [] w v) : (w ++ v).takeWhile p = w := by
  have hstop : v.takeWhile p = [] := by
    cases v with
    | nil => rfl
    | cons c v =>
      have hc : p c = false := h.right c rfl
      simp [hc]
  rw [List.takeWhile_append_of_pos h.inside, hstop, List.append_nil]

/-- A longest stretch does not begin where dropping has stopped. -/
theorem Longest.ne_nil_of_dropWhile (h : Longest p u w v) (ht : t.dropWhile p = u ++ w ++ v) :
    u ≠ [] := by
  intro hu
  obtain ⟨c, w', hw⟩ := List.exists_cons_of_ne_nil h.nonempty
  have hin : p c = true := h.inside c (by rw [hw]; exact List.mem_cons_self)
  have hout : p c = false := by
    apply not_of_mem_head?_dropWhile (t := t)
    rw [ht, hu, hw]
    rfl
  rw [hin] at hout
  cases hout

/-- A longest stretch of what is left after dropping is one of the whole text. -/
theorem Longest.of_dropWhile (h : Longest p u w v) (ht : t.dropWhile p = u ++ w ++ v) :
    Longest p (t.takeWhile p ++ u) w v := by
  have hu : u ≠ [] := h.ne_nil_of_dropWhile ht
  refine ⟨h.nonempty, h.inside, ?_, h.right⟩
  rw [List.getLast?_append_of_ne_nil _ hu]
  exact h.left

/-- A longest stretch that does not stand at the start is one of what is left after dropping. -/
theorem Longest.dropWhile (h : Longest p u w v) (hu : u ≠ []) :
    (u ++ w ++ v).takeWhile p = u.takeWhile p ∧
      (u ++ w ++ v).dropWhile p = u.dropWhile p ++ w ++ v ∧
      Longest p (u.dropWhile p) w v := by
  -- The last character of `u` is not dropped.
  have hne : u.dropWhile p ≠ [] := by
    intro hnil
    have hall := List.dropWhile_eq_nil_iff.1 hnil
    have hlast := h.left (u.getLast hu) (List.getLast?_eq_some_getLast hu)
    rw [hall (u.getLast hu) (List.getLast_mem hu)] at hlast
    cases hlast
  have hcut : u.takeWhile p ++ u.dropWhile p = u := List.takeWhile_append_dropWhile
  have hshort : (u.takeWhile p).length ≠ u.length := by
    intro hlength
    have hsum := congrArg List.length hcut
    rw [List.length_append, hlength] at hsum
    have hzero : (u.dropWhile p).length = 0 := by omega
    exact hne (List.length_eq_zero_iff.1 hzero)
  refine ⟨?_, ?_, h.nonempty, h.inside, ?_, h.right⟩
  · rw [List.append_assoc, List.takeWhile_append, if_neg hshort]
  · have hfull : (u.dropWhile p).isEmpty = false := by simpa using hne
    rw [List.append_assoc, List.dropWhile_append, hfull, List.append_assoc]
    rfl
  · have hlast : (u.dropWhile p).getLast? = u.getLast? := by
      rw [← List.getLast?_append_of_ne_nil (u.takeWhile p) hne, hcut]
    rw [hlast]
    exact h.left

/-- A run that is found is a longest stretch, and its column is the width of what stands before
it. -/
theorem exists_of_mem_runsFrom (h : r ∈ runsFrom p column t) :
    ∃ u v, t = u ++ r.text ++ v ∧ r.column = column + u.width ∧ Longest p u r.text v := by
  fun_induction runsFrom p column t with
  | case1 column => cases h
  | case2 column c rest hc word ih =>
    have htake : (c :: rest).takeWhile p = word := List.takeWhile_cons_of_pos hc
    have hdrop : (c :: rest).dropWhile p = rest.dropWhile p := List.dropWhile_cons_of_pos hc
    have hparts := List.takeWhile_append_dropWhile (p := p) (l := c :: rest)
    rcases List.mem_cons.1 h with rfl | h
    · -- The run starts here and goes as far as it can.
      refine ⟨[], rest.dropWhile p, ?_, rfl, List.cons_ne_nil _ _, ?_, ?_, ?_⟩
      · rw [htake, hdrop] at hparts
        exact hparts.symm
      · intro d hd
        exact List.mem_takeWhile_imp (htake ▸ hd)
      · intro d hd
        cases hd
      · intro d hd
        exact not_of_mem_head?_dropWhile hd
    · -- It comes later, behind the run that starts here.
      obtain ⟨u, v, ht, hcolumn, hlongest⟩ := ih h
      rw [← hdrop] at ht
      refine ⟨word ++ u, v, ?_, ?_, ?_⟩
      · rw [ht, htake] at hparts
        simpa using hparts.symm
      · rw [hcolumn, width_append, Nat.add_assoc]
      · rw [← htake]
        exact hlongest.of_dropWhile ht
  | case3 column c rest hc ih =>
    obtain ⟨u, v, ht, hcolumn, hlongest⟩ := ih h
    refine ⟨c :: u, v, by rw [ht]; rfl, ?_, hlongest.nonempty, hlongest.inside, ?_,
      hlongest.right⟩
    · rw [hcolumn, width_cons, Nat.add_assoc]
    · intro d hd
      cases u with
      | nil =>
        cases hd
        simpa using hc
      | cons e u =>
        rw [List.getLast?_cons_cons] at hd
        exact hlongest.left d hd

/-- Every longest stretch is found as a run: it starts here, or it is one of what is left behind the
run that starts here. -/
theorem mem_runsFrom_of_longest (ht : t = u ++ r.text ++ v) (hcolumn : r.column = column + u.width)
    (h : Longest p u r.text v) : r ∈ runsFrom p column t := by
  fun_induction runsFrom p column t generalizing u with
  | case1 column =>
    have hall := List.append_eq_nil_iff.1 ht.symm
    exact absurd (List.append_eq_nil_iff.1 hall.1).2 h.nonempty
  | case2 column c rest hc word =>
    rename_i ih
    have htake : (c :: rest).takeWhile p = word := List.takeWhile_cons_of_pos hc
    have hdrop : (c :: rest).dropWhile p = rest.dropWhile p := List.dropWhile_cons_of_pos hc
    by_cases hu : u = []
    · have hword : r.text = word := by
        rw [hu] at ht h
        rw [← htake, ht, List.nil_append]
        exact h.takeWhile_eq.symm
      have hfirst : r = ⟨word, column⟩ := by
        rw [hu] at hcolumn
        cases r
        simp_all
      rw [hfirst]
      exact List.mem_cons_self
    · obtain ⟨htakes, hdrops, hlongest⟩ := h.dropWhile hu
      rw [← ht] at htakes hdrops
      have hwidth : u.width = word.width + width (u.dropWhile p) := by
        rw [← htake, htakes, ← width_append, List.takeWhile_append_dropWhile]
      exact List.mem_cons_of_mem _ (ih (hdrop ▸ hdrops) (by omega) hlongest)
  | case3 column c rest hc ih =>
    cases u with
    | nil =>
      -- No run starts with `c`.
      obtain ⟨d, w, hw⟩ := List.exists_cons_of_ne_nil h.nonempty
      rw [hw] at ht
      have hd : c = d := (List.cons.inj ht).1
      exact absurd (h.inside c (by rw [hw, hd]; exact List.mem_cons_self)) hc
    | cons d u =>
      obtain ⟨rfl, hrest⟩ := List.cons.inj ht
      refine ih hrest ?_ ⟨h.nonempty, h.inside, ?_, h.right⟩
      · rw [hcolumn, width_cons, Nat.add_assoc]
      · intro e he
        apply h.left
        cases u with
        | nil => cases he
        | cons d' u =>
          rw [List.getLast?_cons_cons]
          exact he

/-- The runs that are found are those that the text has. -/
theorem mem_runs_iff : r ∈ t.runs p ↔ IsRun p t r := by
  constructor
  · intro h
    obtain ⟨u, v, ht, hcolumn, hlongest⟩ := exists_of_mem_runsFrom h
    exact ⟨u, v, ht, by rw [hcolumn, Nat.zero_add], hlongest⟩
  · rintro ⟨u, v, ht, hcolumn, hlongest⟩
    exact mem_runsFrom_of_longest ht (by rw [hcolumn, Nat.zero_add]) hlongest

/-- Runs come in order, and something else stands between two of them. -/
theorem pairwise_runsFrom (p : Char → Bool) (column : Nat) (t : Text) :
    (runsFrom p column t).Pairwise fun r r' => r.endColumn < r'.column := by
  fun_induction runsFrom p column t with
  | case1 column => exact List.Pairwise.nil
  | case2 column c rest hc word ih =>
    rw [List.pairwise_cons]
    refine ⟨?_, ih⟩
    intro r hr
    obtain ⟨u, v, ht, hcolumn, hlongest⟩ := exists_of_mem_runsFrom hr
    have hpos : 0 < u.width := width_pos (hlongest.ne_nil_of_dropWhile ht)
    show column + word.width < r.column
    omega
  | case3 column c rest hc ih => exact ih

end

/-- A token is a stretch of its line without white space. -/
theorem exists_of_mem_scan {line : Text} {t : Token} (h : t ∈ Token.scan line) :
    ∃ u v, line = u ++ t.text ++ v ∧ t.column = u.width ∧ ∀ c ∈ t.text, isBlank c = false := by
  obtain ⟨u, v, hline, hcolumn, hlongest⟩ := mem_runs_iff.1 h
  refine ⟨u, v, hline, hcolumn, ?_⟩
  intro c hc
  simpa using hlongest.inside c hc

/-! ### Tails -/

theorem exists_append_dropTail (p : Char → Bool) (t : Text) :
    ∃ v, t = t.dropTail p ++ v ∧ ∀ c ∈ v, p c = true := by
  refine ⟨(t.reverse.takeWhile p).reverse, ?_, ?_⟩
  · unfold dropTail
    rw [← List.reverse_append, List.takeWhile_append_dropWhile, List.reverse_reverse]
  · intro c hc
    exact List.mem_takeWhile_imp (List.mem_reverse.1 hc)

/-! ### Pieces -/

/-- The number of characters of pieces with the line feeds after them. -/
def piecesLength (ps : List Text) : Nat := (ps.map fun p => p.length + 1).sum

/-- A piece is a stretch of the text. What stands before it is empty or ends with a line feed, and
has as many line feeds as there are pieces before it. -/
theorem exists_of_getElem?_pieces {t piece : Text} {n : Nat} (h : t.pieces[n]? = some piece) :
    ∃ u v, t = u ++ piece ++ v ∧ u.length = piecesLength (t.pieces.take n) ∧ u.count '\n' = n ∧
      (u = [] ∨ u.getLast? = some '\n') ∧ '\n' ∉ piece := by
  unfold pieces at h ⊢
  induction t generalizing n piece with
  | nil =>
    cases n with
    | zero =>
      cases h
      exact ⟨[], [], rfl, rfl, rfl, .inl rfl, List.not_mem_nil⟩
    | succ n => cases h
  | cons c rest ih =>
    rw [split] at h ⊢
    by_cases hc : c = '\n'
    · -- A line feed: the first piece is empty, and one more line feed stands before the others.
      rw [if_pos hc] at h ⊢
      subst hc
      cases n with
      | zero =>
        cases h
        exact ⟨[], '\n' :: rest, rfl, rfl, rfl, .inl rfl, List.not_mem_nil⟩
      | succ n =>
        obtain ⟨u, v, hrest, hlength, hcount, hlast, hpiece⟩ := ih h
        refine ⟨'\n' :: u, v, by rw [hrest]; rfl, ?_, ?_, .inr ?_, hpiece⟩
        · simp [piecesLength, hlength, Nat.add_comm]
        · simp [hcount]
        · rcases hlast with rfl | hlast
          · rfl
          · rw [List.getLast?_cons, hlast]
            rfl
    · -- Any other character lengthens the first piece and moves the others by one.
      rw [if_neg hc] at h ⊢
      cases hsplit : split '\n' rest with
      | nil => exact absurd hsplit (split_ne_nil '\n' rest)
      | cons first others =>
        rw [hsplit] at ih
        simp only [hsplit] at h ⊢
        cases n with
        | zero =>
          cases h
          obtain ⟨u, v, hrest, hlength, _, _, hpiece⟩ := ih (n := 0) rfl
          have hu : u = [] := List.length_eq_zero_iff.1 hlength
          subst hu
          refine ⟨[], v, by rw [hrest]; rfl, rfl, rfl, .inl rfl, ?_⟩
          intro hmem
          rcases List.mem_cons.1 hmem with heq | hmem
          · exact hc heq.symm
          · exact hpiece hmem
        | succ n =>
          obtain ⟨u, v, hrest, hlength, hcount, hlast, hpiece⟩ := ih (n := n + 1) h
          refine ⟨c :: u, v, by rw [hrest]; rfl, ?_, ?_, .inr ?_, hpiece⟩
          · simp only [List.take_succ_cons, piecesLength, List.map_cons, List.sum_cons,
              List.length_cons] at hlength ⊢
            omega
          · rw [List.count_cons_of_ne hc]
            exact hcount
          · rcases hlast with rfl | hlast
            · cases hcount
            · rw [List.getLast?_cons, hlast]
              rfl

end MelScript.Text
