import MelScript.Proofs.Server.Hovers
import MelScript.Proofs.Vocabulary.Fragments

/-! # The token before the cursor

  While a variable is being typed, completion offers variables only. Whether
  this is so is read off the row of the cursor, from the cursor backwards: there
  have to be characters of a name and then the sigil. The index reads texts from
  their start, and cuts them where a character cannot stand in a name.

  The two agree on what the cursor stands behind:

  - the test succeeds if some sigil has nothing but characters of a name behind it
    (`endsInVariable_iff`);
  - the last fragment of a text is its longest tail of characters that can stand
    in a fragment (`exists_append_lastFragment`), so a sigil with a name behind it
    lies in this tail, and the last sigil of the tail has a name behind it;
  - what the test is given is the stretch of the text from the start of the row
    to the offset of the cursor (`between_rowStart_offset`).
-/

namespace MelScript.Text

/-! ### Longest tails -/

/-- After `u`, the tail `w` is the longest one of `p`-characters. It may be empty. -/
structure LongestTail (p : Char → Bool) (u w : Text) : Prop where
  inside : ∀ c ∈ w, p c = true
  left : ∀ c ∈ u.getLast?, p c = false

/-- All tails of `p`-characters are parts of the longest one. -/
theorem LongestTail.suffix {p : Char → Bool} {u w v tail : Text} (h : LongestTail p u w)
    (heq : u ++ w = v ++ tail) (htail : ∀ c ∈ tail, p c = true) : tail <:+ w := by
  rcases List.append_eq_append_iff.1 heq with ⟨a, _, hw⟩ | ⟨a, hu, htail'⟩
  · exact ⟨a, hw.symm⟩
  · by_cases ha : a = []
    · rw [ha, List.nil_append] at htail'
      exact ⟨[], htail'⟩
    · -- A tail that reaches back into `u` holds the last character of `u`.
      have hlast : a.getLast ha ∈ u.getLast? := by
        rw [hu, List.getLast?_append_of_ne_nil _ ha]
        exact List.getLast?_eq_some_getLast ha
      have hout : p (a.getLast ha) = false := h.left _ hlast
      have hin : p (a.getLast ha) = true := by
        apply htail
        rw [htail']
        exact List.mem_append_left _ (List.getLast_mem ha)
      rw [hin] at hout
      cases hout

/-! ### The last fragment -/

theorem fragments_ne_nil (t : Text) : t.fragments ≠ [] := by
  rw [fragments]
  split <;> exact List.cons_ne_nil _ _

/-- The last fragment of a text. It is empty if the text ends outside of a fragment. -/
def lastFragment (t : Text) : Text := t.fragments.getLast t.fragments_ne_nil

theorem Cut.exists_append_getLast? {t : Text} {fs : List Text} (h : Cut t fs) :
    ∃ u f, fs.getLast? = some f ∧ t = u ++ f ∧ LongestTail isFragmentChar u f := by
  induction h with
  | @whole f inside => exact ⟨[], f, rfl, rfl, inside, by simp⟩
  | @gap f g rest fs inside nonempty outside longest cut ih =>
    obtain ⟨u, last, hlast, hrest, htail⟩ := ih
    refine ⟨f ++ g ++ u, last, ?_, ?_, htail.inside, ?_⟩
    · rw [List.getLast?_cons, hlast]
      rfl
    · rw [hrest, List.append_assoc (f ++ g)]
    · intro c hc
      by_cases hu : u = []
      · -- The last fragment follows the gap at once.
        rw [hu, List.append_nil, List.getLast?_append_of_ne_nil _ nonempty] at hc
        exact outside c (List.mem_of_getLast? hc)
      · rw [List.getLast?_append_of_ne_nil _ hu] at hc
        exact htail.left c hc

theorem exists_append_lastFragment (t : Text) :
    ∃ u, t = u ++ t.lastFragment ∧ LongestTail isFragmentChar u t.lastFragment := by
  obtain ⟨u, f, hlast, htext, htail⟩ := (cut_fragments t).exists_append_getLast?
  have hf : t.lastFragment = f := by
    rw [List.getLast?_eq_some_getLast t.fragments_ne_nil] at hlast
    exact Option.some.inj hlast
  rw [hf]
  exact ⟨u, htext, htail⟩

/-! ### The test -/

/-- A text ends in a variable if and only if some sigil in it has nothing but characters of a name
behind it. -/
theorem endsInVariable_iff (t : Text) :
    t.endsInVariable = true ↔ ∃ u w, t = u ++ '$' :: w ∧ ∀ c ∈ w, isNameChar c = true := by
  unfold endsInVariable
  rw [beq_iff_eq]
  constructor
  · intro hlast
    obtain ⟨w, htext, hname⟩ := t.exists_append_dropTail isNameChar
    obtain ⟨u, hu⟩ := List.getLast?_eq_some_iff.1 hlast
    rw [hu, List.append_assoc] at htext
    exact ⟨u, w, htext, hname⟩
  · rintro ⟨u, w, rfl, hname⟩
    have hdrop : (u ++ '$' :: w).dropTail isNameChar = u ++ ['$'] := by
      unfold dropTail
      rw [List.reverse_append, List.reverse_cons, List.append_assoc,
        List.dropWhile_append_of_pos (by simpa using hname)]
      simp [isNameChar]
    rw [hdrop, List.getLast?_concat]

/-- In a fragment, all characters but the sigil are characters of a name. -/
theorem isNameChar_of_ne_sigil {c : Char} (h : isFragmentChar c = true) (hc : c ≠ '$') :
    isNameChar c = true := by
  simpa [isFragmentChar, hc] using h

/-- A character that occurs in a text has a last occurrence. -/
theorem exists_last_of_mem {t : Text} {c : Char} (h : c ∈ t) : ∃ u w, t = u ++ c :: w ∧ c ∉ w := by
  obtain ⟨w, u, hreverse, hw⟩ := List.eq_append_cons_of_mem (List.mem_reverse.2 h)
  refine ⟨u.reverse, w.reverse, ?_, fun hc => hw (List.mem_reverse.1 hc)⟩
  rw [← t.reverse_reverse, hreverse]
  simp

/-- A text ends in a variable if and only if there is a sigil in its last fragment. -/
theorem endsInVariable_iff_mem_lastFragment (t : Text) :
    t.endsInVariable = true ↔ '$' ∈ t.lastFragment := by
  obtain ⟨u, htext, htail⟩ := t.exists_append_lastFragment
  rw [endsInVariable_iff]
  constructor
  · rintro ⟨v, w, hvariable, hname⟩
    have hinside : ∀ c ∈ '$' :: w, isFragmentChar c = true := by
      intro c hc
      rcases List.mem_cons.1 hc with rfl | hc
      · rfl
      · simp [isFragmentChar, hname c hc]
    have hsuffix : '$' :: w <:+ t.lastFragment :=
      htail.suffix (htext.symm.trans hvariable) hinside
    exact hsuffix.subset List.mem_cons_self
  · intro hsigil
    -- Behind the last sigil of the fragment there is no other one, hence only a name.
    obtain ⟨v, w, hlast, hw⟩ := exists_last_of_mem hsigil
    refine ⟨u ++ v, w, ?_, ?_⟩
    · rw [List.append_assoc, ← hlast]
      exact htext
    · intro c hc
      apply isNameChar_of_ne_sigil
      · apply htail.inside
        rw [hlast]
        exact List.mem_append_right _ (List.mem_cons_of_mem _ hc)
      · rintro rfl
        exact hw hc

/-! ### Positions -/

/-- The characters of a row before a position are those from the start of the row to the offset of
the position. -/
theorem between_rowStart_offset {t row : Text} {p : Position} (h : t.row? p.line = some row) :
    t.between (t.rowStart p.line) (t.offset p) = row.take (row.reach p.column) := by
  obtain ⟨pre, post, htext, hlength⟩ := exists_of_row? h
  have hreach : (row.take (row.reach p.column)).length = row.reach p.column :=
    List.length_take_of_le (reach_le_length p.column row)
  have hoffset : t.offset p = (pre ++ row.take (row.reach p.column)).length := by
    unfold offset
    rw [h, List.length_append, hreach, hlength]
  have hparts : t = pre ++ row.take (row.reach p.column) ++
      (row.drop (row.reach p.column) ++ post) := by
    rw [htext, List.append_assoc pre (row.take _), ← List.append_assoc (row.take _),
      List.take_append_drop, List.append_assoc]
  rw [hoffset, ← hlength, hparts]
  exact between_append pre _ _

/-- **The test at the cursor and the index agree on what a variable is made of.** On a row of the
text, a variable is being typed if and only if there is a sigil in the last fragment of what stands
between the start of the row and the cursor. On a row that the text does not have, none is. -/
theorem typing_variable_iff_sigil_in_last_fragment (t : Text) (p : Position) :
    (p.line < t.rows.length →
      (t.typingVariable p = true ↔
        '$' ∈ (t.between (t.rowStart p.line) (t.offset p)).lastFragment)) ∧
      (t.rows.length ≤ p.line → t.typingVariable p = false) := by
  constructor
  · intro hline
    have hrow : t.row? p.line = some t.rows[p.line].body := by
      unfold row?
      rw [List.getElem?_eq_getElem hline, Option.map_some]
    rw [between_rowStart_offset hrow, ← endsInVariable_iff_mem_lastFragment]
    unfold typingVariable
    rw [hrow]
  · intro hline
    have hrow : t.row? p.line = none := by
      unfold row?
      rw [List.getElem?_eq_none hline, Option.map_none]
    unfold typingVariable
    rw [hrow]

/-- Behind two units of one character there is a fragment with two sigils, neither of them in front.
The digit zero ends it. -/
theorem typing_behind_second_sigil :
    let t : Text := "x\r\n😀a$b$c0é".toList
    (1 < t.rows.length ∧ t.rows.length ≤ 2) ∧
      (t.between (t.rowStart 1) (t.offset ⟨1, 7⟩)).lastFragment = "a$b$c".toList ∧
      t.typingVariable ⟨1, 7⟩ = true ∧ t.typingVariable ⟨1, 8⟩ = false ∧
      t.typingVariable ⟨2, 0⟩ = false := by
  intro t
  have hfragment :
      (t.between (t.rowStart 1) (t.offset ⟨1, 7⟩)).lastFragment = "a$b$c".toList := by
    decide +kernel
  have hended : '$' ∉ (t.between (t.rowStart 1) (t.offset ⟨1, 8⟩)).lastFragment := by
    decide +kernel
  obtain ⟨hinside, _⟩ := typing_variable_iff_sigil_in_last_fragment t ⟨1, 7⟩
  obtain ⟨hbehind, _⟩ := typing_variable_iff_sigil_in_last_fragment t ⟨1, 8⟩
  obtain ⟨_, houtside⟩ := typing_variable_iff_sigil_in_last_fragment t ⟨2, 0⟩
  refine ⟨⟨by decide, by decide⟩, hfragment, ?_, ?_, houtside (by decide)⟩
  · rw [hinside (by decide), hfragment]
    decide
  · rw [Bool.eq_false_iff, Ne, hbehind (by decide)]
    exact hended

end MelScript.Text
