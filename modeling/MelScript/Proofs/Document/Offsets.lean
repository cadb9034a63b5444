import Mathlib.Data.List.TakeWhile
import MelScript.Document.Buffer

/-! # Offsets and the positions of offsets

  `Text.offset` resolves a position through the rows of the whole text. Read
  character by character it obeys five equations, one for each way in which a
  text can begin, and everything here follows from them by induction on the
  text:

  - `offset_positionAt`: an editor that counts breaks and units up to an offset
    gives a position that stands for just this offset;
  - `offset_lt_of_line_lt`: a position on an earlier row than an offset stands
    for an earlier offset.

  The one place that has no position of its own is the one between a carriage
  return and the line feed that belongs to it.
-/

namespace MelScript

/-! ### Offsets in a list of rows -/

/-- The offset of a position in a text that has the given rows. -/
def Row.offsetIn (rs : List Row) (p : Position) : Nat :=
  match rs[p.line]? with
  | none => totalLength rs
  | some r => totalLength (rs.take p.line) + r.body.reach p.column

theorem Row.offsetIn_zero (r : Row) (rs : List Row) (column : Nat) :
    offsetIn (r :: rs) ⟨0, column⟩ = r.body.reach column := by
  simp [offsetIn, totalLength]

theorem Row.offsetIn_succ (r : Row) (rs : List Row) (line column : Nat) :
    offsetIn (r :: rs) ⟨line + 1, column⟩ = offsetIn rs ⟨line, column⟩ + r.length := by
  unfold offsetIn
  simp only [List.getElem?_cons_succ, List.take_succ_cons, totalLength]
  split <;> omega

theorem Row.length_flatMap (rs : List Row) :
    (rs.flatMap fun r => r.body ++ r.ending).length = totalLength rs := by
  induction rs with
  | nil => rfl
  | cons r rs ih =>
    rw [List.flatMap_cons, List.length_append, ih, List.length_append]
    rfl

namespace Text

theorem offset_eq_offsetIn (t : Text) (p : Position) : t.offset p = Row.offsetIn t.rows p := by
  have hlength : t.length = Row.totalLength t.rows := by
    rw [← Row.length_flatMap, flatMap_rows]
  unfold offset row? rowStart Row.offsetIn
  cases t.rows[p.line]? with
  | none => exact hlength
  | some r => rfl

/-! ### Rows character by character -/

theorem rows_cons_of_not_break {c : Char} (h : isBreak c = false) (rest : Text) :
    rows (c :: rest) =
      (rows rest).modifyHead fun r => { r with body := c :: r.body } := by
  rw [rows]
  · rw [h, if_neg Bool.false_ne_true]
    cases hrows : rows rest with
    | nil => exact absurd hrows (rows_ne_nil rest)
    | cons r rs => rfl
  · rintro rest' rfl
    cases h

theorem rows_cons_of_break {c : Char} (h : isBreak c = true) {rest : Text}
    (hpair : ¬ (c = '\r' ∧ rest.head? = some '\n')) :
    rows (c :: rest) = ⟨[], [c]⟩ :: rows rest := by
  rw [rows]
  · rw [h, if_pos rfl]
  · rintro rest' rfl rfl
    exact hpair ⟨rfl, rfl⟩

theorem rows_return_feed (rest : Text) :
    rows ('\r' :: '\n' :: rest) = ⟨[], ['\r', '\n']⟩ :: rows rest := by
  rw [rows]

/-! ### Offsets character by character -/

theorem offset_nil (p : Position) : offset [] p = 0 := by
  rw [offset_eq_offsetIn]
  obtain ⟨line, column⟩ := p
  cases line with
  | zero => rfl
  | succ line => rfl

/-- On the first row the column decides whether a character lies before the position. -/
theorem offset_cons_zero {c : Char} (h : isBreak c = false) (rest : Text) (column : Nat) :
    offset (c :: rest) ⟨0, column⟩ =
      if units c ≤ column then offset rest ⟨0, column - units c⟩ + 1 else 0 := by
  rw [offset_eq_offsetIn, offset_eq_offsetIn, rows_cons_of_not_break h]
  cases hrows : rows rest with
  | nil => exact absurd hrows (rows_ne_nil rest)
  | cons r rs =>
    rw [List.modifyHead_cons, Row.offsetIn_zero, Row.offsetIn_zero, reach]

/-- All characters of the first row lie before a position on a later one. -/
theorem offset_cons_succ {c : Char} (h : isBreak c = false) (rest : Text) (line column : Nat) :
    offset (c :: rest) ⟨line + 1, column⟩ = offset rest ⟨line + 1, column⟩ + 1 := by
  rw [offset_eq_offsetIn, offset_eq_offsetIn, rows_cons_of_not_break h]
  cases hrows : rows rest with
  | nil => exact absurd hrows (rows_ne_nil rest)
  | cons r rs =>
    rw [List.modifyHead_cons, Row.offsetIn_succ, Row.offsetIn_succ]
    simp only [Row.length, List.length_cons]
    omega

/-- No position on the first row lies behind its break. -/
theorem offset_break_zero {c : Char} (h : isBreak c = true) (rest : Text) (column : Nat) :
    offset (c :: rest) ⟨0, column⟩ = 0 := by
  rw [offset_eq_offsetIn]
  by_cases hpair : c = '\r' ∧ rest.head? = some '\n'
  · obtain ⟨rfl, hhead⟩ := hpair
    cases rest with
    | nil => cases hhead
    | cons d rest =>
      cases hhead
      rw [rows_return_feed, Row.offsetIn_zero]
      rfl
  · rw [rows_cons_of_break h hpair, Row.offsetIn_zero]
    rfl

/-- A break of one character ends the first row. -/
theorem offset_break_succ {c : Char} (h : isBreak c = true) {rest : Text}
    (hpair : ¬ (c = '\r' ∧ rest.head? = some '\n')) (line column : Nat) :
    offset (c :: rest) ⟨line + 1, column⟩ = offset rest ⟨line, column⟩ + 1 := by
  rw [offset_eq_offsetIn, offset_eq_offsetIn, rows_cons_of_break h hpair, Row.offsetIn_succ]
  rfl

/-- Before its line feed a carriage return is nothing but one more character. -/
theorem offset_return_feed (rest : Text) (line column : Nat) :
    offset ('\r' :: '\n' :: rest) ⟨line + 1, column⟩ =
      offset ('\n' :: rest) ⟨line + 1, column⟩ + 1 := by
  have hpair : ¬ ('\n' = '\r' ∧ rest.head? = some '\n') := by
    rintro ⟨h, _⟩
    cases h
  rw [offset_break_succ rfl hpair, offset_eq_offsetIn, offset_eq_offsetIn, rows_return_feed,
    Row.offsetIn_succ]
  rfl

/-! ### Positions of offsets -/

/-- The number of carriage returns that no line feed follows. -/
def loneReturns : Text → Nat
  | [] => 0
  | c :: rest => loneReturns rest + if c = '\r' ∧ rest.head? ≠ some '\n' then 1 else 0

/-- The number of breaks: line feeds, which may have a carriage return before them, and carriage
returns without a line feed. -/
def breaks (t : Text) : Nat := t.count '\n' + t.loneReturns

/-- What stands behind the last break. -/
def lastRow (t : Text) : Text := (t.reverse.takeWhile fun c => !isBreak c).reverse

/-- The position of an offset: the breaks before it, and the units since the last of them. -/
def positionAt (t : Text) (i : Nat) : Position := ⟨breaks (t.take i), width (lastRow (t.take i))⟩

/-- An offset between a carriage return and the line feed that belongs to it. -/
def SplitsBreak (t : Text) (i : Nat) : Prop :=
  (t.take i).getLast? = some '\r' ∧ (t.drop i).head? = some '\n'

instance (t : Text) (i : Nat) : Decidable (t.SplitsBreak i) :=
  inferInstanceAs (Decidable (_ ∧ _))

theorem isBreak_iff (c : Char) : isBreak c = true ↔ c = '\n' ∨ c = '\r' := by
  simp [isBreak]

theorem breaks_cons (c : Char) (rest : Text) :
    breaks (c :: rest) = breaks rest +
      ((if c = '\n' then 1 else 0) + if c = '\r' ∧ rest.head? ≠ some '\n' then 1 else 0) := by
  unfold breaks
  rw [List.count_cons, loneReturns]
  simp only [beq_iff_eq]
  omega

theorem breaks_cons_of_not_break {c : Char} (h : isBreak c = false) (rest : Text) :
    breaks (c :: rest) = breaks rest := by
  have hn : c ≠ '\n' := by
    rintro rfl
    cases h
  have hr : c ≠ '\r' := by
    rintro rfl
    cases h
  rw [breaks_cons]
  simp [hn, hr]

theorem breaks_cons_of_break {c : Char} (h : isBreak c = true) {rest : Text}
    (hpair : ¬ (c = '\r' ∧ rest.head? = some '\n')) : breaks (c :: rest) = breaks rest + 1 := by
  rw [breaks_cons]
  rcases (isBreak_iff c).1 h with rfl | rfl
  · rfl
  · have hhead : rest.head? ≠ some '\n' := fun hhead => hpair ⟨rfl, hhead⟩
    simp [hhead]

theorem breaks_feed (rest : Text) : breaks ('\n' :: rest) = breaks rest + 1 := by
  rw [breaks_cons]
  rfl

theorem breaks_return_feed (rest : Text) : breaks ('\r' :: '\n' :: rest) = breaks rest + 1 := by
  rw [breaks_cons, breaks_feed]
  rfl

theorem breaks_eq_zero_iff (t : Text) : breaks t = 0 ↔ ∀ c ∈ t, isBreak c = false := by
  induction t with
  | nil => simp [breaks, loneReturns]
  | cons c rest ih =>
    cases hc : isBreak c with
    | false =>
      rw [breaks_cons_of_not_break hc, ih]
      simp [hc]
    | true =>
      constructor
      · intro hzero
        exfalso
        by_cases hpair : c = '\r' ∧ rest.head? = some '\n'
        · obtain ⟨rfl, hhead⟩ := hpair
          cases rest with
          | nil => cases hhead
          | cons d rest =>
            cases hhead
            rw [breaks_return_feed] at hzero
            omega
        · rw [breaks_cons_of_break hc hpair] at hzero
          omega
      · intro hall
        have hfalse := hall c List.mem_cons_self
        rw [hc] at hfalse
        cases hfalse

/-- Without breaks the last row is all there is. -/
theorem takeWhile_reverse_eq_self_iff (t : Text) :
    (t.reverse.takeWhile fun c => !isBreak c) = t.reverse ↔ breaks t = 0 := by
  rw [List.takeWhile_eq_self_iff, breaks_eq_zero_iff]
  simp

theorem lastRow_of_breaks_eq_zero {t : Text} (h : breaks t = 0) : lastRow t = t := by
  unfold lastRow
  rw [(takeWhile_reverse_eq_self_iff t).2 h, List.reverse_reverse]

theorem lastRow_cons_of_breaks_ne_zero (c : Char) {t : Text} (h : breaks t ≠ 0) :
    lastRow (c :: t) = lastRow t := by
  unfold lastRow
  rw [List.reverse_cons, List.takeWhile_append, if_neg]
  intro hlength
  apply h
  rw [← takeWhile_reverse_eq_self_iff]
  exact (List.takeWhile_prefix _).eq_of_length hlength

theorem lastRow_cons_of_break {c : Char} (h : isBreak c = true) (t : Text) :
    lastRow (c :: t) = lastRow t := by
  by_cases hzero : breaks t = 0
  · unfold lastRow
    rw [List.reverse_cons, List.takeWhile_append, (takeWhile_reverse_eq_self_iff t).2 hzero,
      if_pos rfl]
    simp [h]
  · exact lastRow_cons_of_breaks_ne_zero c hzero

/-- If the end of `c :: u` does not fall inside of a break, neither does the end of `u`. -/
theorem not_split_of_cons {c : Char} {u v : Text}
    (h : ¬ ((c :: u).getLast? = some '\r' ∧ v.head? = some '\n')) :
    ¬ (u.getLast? = some '\r' ∧ v.head? = some '\n') := by
  intro hsplit
  apply h
  cases u with
  | nil => cases hsplit.1
  | cons d u => exact ⟨by rw [List.getLast?_cons_cons]; exact hsplit.1, hsplit.2⟩

/-- A break of one character in `c :: u` is one in the whole text, if the end of `c :: u` does not
fall inside of a break. -/
theorem not_pair_append {c : Char} {u v : Text}
    (hsplit : ¬ ((c :: u).getLast? = some '\r' ∧ v.head? = some '\n'))
    (hpair : ¬ (c = '\r' ∧ u.head? = some '\n')) :
    ¬ (c = '\r' ∧ (u ++ v).head? = some '\n') := by
  intro h
  obtain ⟨rfl, hhead⟩ := h
  cases u with
  | nil => exact hsplit ⟨rfl, hhead⟩
  | cons d u => exact hpair ⟨rfl, hhead⟩

/-- The position of the end of `u` in a text that goes on with `v`. The induction is on `u`; its
first character counts for the line, for the column or for neither, as in the equations above. -/
theorem offset_append (u v : Text) (hsplit : ¬ (u.getLast? = some '\r' ∧ v.head? = some '\n')) :
    offset (u ++ v) ⟨u.breaks, u.lastRow.width⟩ = u.length := by
  induction u with
  | nil =>
    cases v with
    | nil => exact offset_nil _
    | cons c v =>
      -- Every character has units, so none lies before column zero.
      show offset (c :: v) ⟨0, 0⟩ = 0
      cases hc : isBreak c with
      | true => exact offset_break_zero hc v 0
      | false =>
        have hpos := units_pos c
        rw [offset_cons_zero hc, if_neg (by omega)]
  | cons c u ih =>
    have ih := ih (not_split_of_cons hsplit)
    rw [List.cons_append, List.length_cons]
    cases hc : isBreak c with
    | false =>
      rw [breaks_cons_of_not_break hc]
      cases hbreaks : breaks u with
      | zero =>
        -- `c` and all of `u` are on the first row.
        have hrow : lastRow (c :: u) = c :: u := by
          apply lastRow_of_breaks_eq_zero
          rw [breaks_cons_of_not_break hc, hbreaks]
        rw [hbreaks, lastRow_of_breaks_eq_zero hbreaks] at ih
        rw [hrow, width_cons, offset_cons_zero hc, if_pos (Nat.le_add_right _ _),
          Nat.add_sub_cancel_left, ih]
      | succ l =>
        -- The position is on a later row, where `c` does not count.
        rw [lastRow_cons_of_breaks_ne_zero c (by omega), offset_cons_succ hc, ← hbreaks, ih]
    | true =>
      rw [lastRow_cons_of_break hc]
      by_cases hpair : c = '\r' ∧ u.head? = some '\n'
      · obtain ⟨rfl, hhead⟩ := hpair
        cases u with
        | nil => cases hhead
        | cons d u =>
          cases hhead
          -- The line feed counts for both.
          rw [breaks_feed] at ih
          rw [breaks_return_feed, List.cons_append, offset_return_feed, ← List.cons_append, ih]
      · rw [breaks_cons_of_break hc hpair, offset_break_succ hc (not_pair_append hsplit hpair), ih]

/-- **The position of an offset stands for this offset.** -/
theorem offset_positionAt {t : Text} {i : Nat} (hi : i ≤ t.length) (hsplit : ¬ t.SplitsBreak i) :
    t.offset (t.positionAt i) = i := by
  have happend := offset_append (t.take i) (t.drop i) hsplit
  rw [List.take_append_drop, List.length_take, Nat.min_eq_left hi] at happend
  exact happend

/-! ### Lone carriage returns -/

theorem loneReturns_append_le (u v : Text) :
    (u ++ v).loneReturns ≤ u.loneReturns + v.loneReturns := by
  induction u with
  | nil => simp
  | cons c u ih =>
    rw [List.cons_append, loneReturns, loneReturns]
    cases u with
    | nil =>
      by_cases hc : c = '\r'
      · have hone : (if c = '\r' ∧ v.head? ≠ some '\n' then 1 else 0) ≤ 1 := by split <;> omega
        simpa [hc, loneReturns, Nat.add_comm] using hone
      · simp [hc, loneReturns]
    | cons d u =>
      rw [List.cons_append, List.head?_cons, List.head?_cons]
      rw [List.cons_append] at ih
      omega

theorem loneReturns_le_append (u v : Text) : v.loneReturns ≤ (u ++ v).loneReturns := by
  induction u with
  | nil => exact Nat.le_refl _
  | cons c u ih =>
    rw [List.cons_append, loneReturns]
    omega

theorem loneReturns_eq_zero_of_not_mem {t : Text} (h : '\r' ∉ t) : t.loneReturns = 0 := by
  induction t with
  | nil => rfl
  | cons c t ih =>
    have hc : c ≠ '\r' := fun hc => h (hc ▸ List.mem_cons_self)
    rw [loneReturns, ih fun hmem => h (List.mem_cons_of_mem c hmem)]
    simp [hc]

/-- A carriage return at the end is a lone one. -/
theorem getLast?_ne_of_loneReturns_eq_zero {t : Text} (h : t.loneReturns = 0) :
    t.getLast? ≠ some '\r' := by
  intro hlast
  obtain ⟨u, rfl⟩ := List.getLast?_eq_some_iff.1 hlast
  have hle := loneReturns_le_append u ['\r']
  rw [h] at hle
  exact absurd hle (by decide)

/-- The last row, when it is told by what stands behind a line feed or at the start of the text. -/
theorem lastRow_append {u v : Text} (hu : u = [] ∨ u.getLast? = some '\n') (hv : breaks v = 0) :
    lastRow (u ++ v) = v := by
  unfold lastRow
  rw [List.reverse_append, List.takeWhile_append, (takeWhile_reverse_eq_self_iff v).2 hv,
    if_pos rfl]
  rcases hu with rfl | hlast
  · simp
  · obtain ⟨w, rfl⟩ := List.getLast?_eq_some_iff.1 hlast
    simp [isBreak]

/-- Without lone carriage returns it is enough to count line feeds: the position behind `u ++ v`,
where `v` stands on one line, stands for this place. -/
theorem offset_of_loneReturns_eq_zero {u v : Text} (rest : Text)
    (hu : u = [] ∨ u.getLast? = some '\n') (hv : '\n' ∉ v) (h : (u ++ v).loneReturns = 0) :
    offset (u ++ v ++ rest) ⟨u.count '\n', v.width⟩ = (u ++ v).length := by
  have hcount : v.count '\n' = 0 := List.count_eq_zero.2 hv
  have hv' : breaks v = 0 := by
    have hle := loneReturns_le_append u v
    unfold breaks
    omega
  have hbreaks : breaks (u ++ v) = u.count '\n' := by
    unfold breaks
    rw [List.count_append, hcount, h]
    rfl
  have happend := offset_append (u ++ v) rest
    fun hsplit => getLast?_ne_of_loneReturns_eq_zero h hsplit.1
  rw [hbreaks, lastRow_append hu hv'] at happend
  exact happend

/-- A position on an earlier row than the end of `u` stands for an earlier offset. -/
theorem offset_lt_of_line_lt {u : Text} {p : Position} (v : Text) (h : p.line < u.breaks) :
    offset (u ++ v) p < u.length := by
  induction u generalizing p with
  | nil => exact absurd h (Nat.not_lt_zero _)
  | cons c u ih =>
    obtain ⟨line, column⟩ := p
    rw [List.cons_append, List.length_cons]
    cases hc : isBreak c with
    | false =>
      rw [breaks_cons_of_not_break hc] at h
      cases line with
      | zero =>
        rw [offset_cons_zero hc]
        split
        · have hlt := ih (p := ⟨0, column - units c⟩) h
          omega
        · omega
      | succ line =>
        have hlt := ih h
        rw [offset_cons_succ hc]
        omega
    | true =>
      cases line with
      | zero =>
        rw [offset_break_zero hc]
        omega
      | succ line =>
        by_cases hpair : c = '\r' ∧ (u ++ v).head? = some '\n'
        · obtain ⟨rfl, hhead⟩ := hpair
          cases u with
          | nil => exact absurd h (by simp [breaks, loneReturns])
          | cons d u =>
            cases hhead
            -- The break ends with the line feed, so the row of `p` is the same from there on.
            have hfeed : breaks ('\n' :: u) = breaks ('\r' :: '\n' :: u) := by
              rw [breaks_return_feed, breaks_feed]
            have hlt := ih (p := ⟨line + 1, column⟩) (hfeed ▸ h)
            rw [List.cons_append, offset_return_feed, ← List.cons_append]
            omega
        · have hpair' : ¬ (c = '\r' ∧ u.head? = some '\n') := by
            rintro ⟨rfl, hhead⟩
            cases u with
            | nil => cases hhead
            | cons d u => exact hpair ⟨rfl, hhead⟩
          rw [breaks_cons_of_break hc hpair'] at h
          have hlt := ih (p := ⟨line, column⟩) (Nat.lt_of_succ_lt_succ h)
          rw [offset_break_succ hc hpair]
          omega

end Text

end MelScript
