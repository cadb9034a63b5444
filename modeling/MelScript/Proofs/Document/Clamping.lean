import Mathlib.Data.List.Basic
import MelScript.Proofs.Document.Offsets

/-! # Any position in any text

  A position may lie outside of the text: on a row that is not there, behind the
  end of its row, or in the middle of a character. It stands for an offset all
  the same, and this is always a *place* of the text, that is, an offset within
  it and not inside of a break.

  Which place it is, is said by `le_offset_iff`: the places up to the offset of
  a position are those whose own positions do not come after it. In other words,
  a position stands for the last place that does not lie behind it. Hence later
  positions stand for later places (`offset_mono`).

  So an edit can be made between any two positions, and it does not matter which
  of them comes first.
-/

namespace MelScript.Text

/-! ### Places -/

/-- An offset within a text, not inside of a break. -/
structure IsPlace (t : Text) (i : Nat) : Prop where
  within : i ≤ t.length
  whole : ¬ t.SplitsBreak i

theorem isPlace_zero (t : Text) : t.IsPlace 0 := by
  refine ⟨Nat.zero_le _, ?_⟩
  intro hsplit
  cases hsplit.1

/-- A place stays one behind one more character, unless it is the start of a line feed and the
character is the carriage return before it. -/
theorem IsPlace.succ {c : Char} {rest : Text} {i : Nat} (h : rest.IsPlace i)
    (hpair : i = 0 → ¬ (c = '\r' ∧ rest.head? = some '\n')) : IsPlace (c :: rest) (i + 1) := by
  refine ⟨Nat.succ_le_succ h.within, ?_⟩
  intro hsplit
  unfold SplitsBreak at hsplit
  rw [List.take_succ_cons, List.drop_succ_cons] at hsplit
  obtain ⟨hlast, hhead⟩ := hsplit
  by_cases hi : i = 0
  · apply hpair hi
    subst hi
    exact ⟨by simpa using hlast, hhead⟩
  · have hne : rest.take i ≠ [] := by
      intro hnil
      have hlength := congrArg List.length hnil
      have hwithin := h.within
      rw [List.length_take, List.length_nil] at hlength
      omega
    rw [← List.singleton_append, List.getLast?_append_of_ne_nil _ hne] at hlast
    exact h.whole ⟨hlast, hhead⟩

/-- Every position stands for a place. -/
theorem isPlace_offset (t : Text) (p : Position) : t.IsPlace (t.offset p) := by
  induction t generalizing p with
  | nil =>
    rw [offset_nil]
    exact isPlace_zero []
  | cons c rest ih =>
    obtain ⟨line, column⟩ := p
    cases hc : isBreak c with
    | false =>
      -- Such a character is no half of a break.
      have hpair : ¬ (c = '\r' ∧ rest.head? = some '\n') := by
        intro hpair
        rw [hpair.1] at hc
        cases hc
      cases line with
      | zero =>
        rw [offset_cons_zero hc]
        split
        · exact (ih ⟨0, column - units c⟩).succ fun _ => hpair
        · exact isPlace_zero _
      | succ line =>
        rw [offset_cons_succ hc]
        exact (ih ⟨line + 1, column⟩).succ fun _ => hpair
    | true =>
      cases line with
      | zero =>
        rw [offset_break_zero hc]
        exact isPlace_zero _
      | succ line =>
        by_cases hpair : c = '\r' ∧ rest.head? = some '\n'
        · -- The row starts behind the line feed, so the place is not the one between the two.
          obtain ⟨rfl, hhead⟩ := hpair
          obtain ⟨rest', rfl⟩ := List.head?_eq_some_iff.1 hhead
          have hfeed : ¬ ('\n' = '\r' ∧ rest'.head? = some '\n') := by
            intro h
            exact absurd h.1 (by decide)
          have hpos : offset ('\n' :: rest') ⟨line + 1, column⟩ ≠ 0 := by
            rw [offset_break_succ rfl hfeed]
            omega
          rw [offset_return_feed]
          exact (ih ⟨line + 1, column⟩).succ fun hzero => absurd hzero hpos
        · rw [offset_break_succ hc hpair]
          exact (ih ⟨line, column⟩).succ fun _ => hpair

/-! ### The place of a position -/

/-- One more character in front widens the last row only when there is no other. -/
theorem width_lastRow_cons {c : Char} (hc : isBreak c = false) (u : Text) :
    breaks u = 0 ∧ (lastRow (c :: u)).width = units c + (lastRow u).width ∨
      breaks u ≠ 0 ∧ (lastRow (c :: u)).width = (lastRow u).width := by
  by_cases hzero : breaks u = 0
  · left
    have hrow : lastRow (c :: u) = c :: u := by
      apply lastRow_of_breaks_eq_zero
      rw [breaks_cons_of_not_break hc, hzero]
    rw [hrow, lastRow_of_breaks_eq_zero hzero]
    exact ⟨hzero, width_cons c u⟩
  · right
    exact ⟨hzero, by rw [lastRow_cons_of_breaks_ne_zero c hzero]⟩

/-- The end of `u` does not lie behind a position exactly when the position of this end does not
come after it. The induction is on `u`: each character counts on both sides, for the line or for the
column. -/
theorem length_le_offset_iff (u v : Text)
    (hsplit : ¬ (u.getLast? = some '\r' ∧ v.head? = some '\n')) (p : Position) :
    u.length ≤ offset (u ++ v) p ↔ (⟨u.breaks, u.lastRow.width⟩ : Position) ≤ p := by
  induction u generalizing p with
  | nil =>
    have hstart : (⟨0, 0⟩ : Position) ≤ p := by
      simp only [Position.le_def]
      omega
    exact ⟨fun _ => hstart, fun _ => Nat.zero_le _⟩
  | cons c u ih =>
    have ih := ih (not_split_of_cons hsplit)
    obtain ⟨line, column⟩ := p
    rw [List.cons_append, List.length_cons]
    cases hc : isBreak c with
    | false =>
      have hwidth := width_lastRow_cons hc u
      rw [breaks_cons_of_not_break hc]
      cases line with
      | zero =>
        -- `c` takes its units off the column, or the column is too small for it.
        have ih := ih ⟨0, column - units c⟩
        rw [offset_cons_zero hc]
        simp only [Position.le_def] at ih ⊢
        split <;> omega
      | succ line =>
        have ih := ih ⟨line + 1, column⟩
        rw [offset_cons_succ hc]
        simp only [Position.le_def] at ih ⊢
        omega
    | true =>
      cases line with
      | zero =>
        -- Neither the break nor anything behind it is on the first row.
        have hbreaks : breaks (c :: u) ≠ 0 := by
          rw [Ne, breaks_eq_zero_iff]
          intro hall
          rw [hall c List.mem_cons_self] at hc
          cases hc
        rw [offset_break_zero hc]
        simp only [Position.le_def]
        omega
      | succ line =>
        rw [lastRow_cons_of_break hc]
        by_cases hpair : c = '\r' ∧ u.head? = some '\n'
        · -- The line feed counts for both, on either side.
          obtain ⟨rfl, hhead⟩ := hpair
          obtain ⟨u', rfl⟩ := List.head?_eq_some_iff.1 hhead
          have hfeed : breaks ('\r' :: '\n' :: u') = breaks ('\n' :: u') := by
            rw [breaks_return_feed, breaks_feed]
          rw [List.cons_append, offset_return_feed, ← List.cons_append, hfeed,
            Nat.succ_le_succ_iff]
          exact ih ⟨line + 1, column⟩
        · have ih := ih ⟨line, column⟩
          rw [breaks_cons_of_break hc hpair, offset_break_succ hc (not_pair_append hsplit hpair)]
          simp only [Position.le_def] at ih ⊢
          omega

variable {t : Text} {i : Nat} {p q : Position}

/-- A position stands for the last place that does not lie behind it. -/
theorem le_offset_iff (h : t.IsPlace i) (p : Position) :
    i ≤ t.offset p ↔ t.positionAt i ≤ p := by
  have hiff := length_le_offset_iff (t.take i) (t.drop i) h.whole p
  rw [List.take_append_drop, List.length_take, Nat.min_eq_left h.within] at hiff
  exact hiff

/-- Later positions stand for later places. -/
theorem offset_mono (h : p ≤ q) : t.offset p ≤ t.offset q := by
  -- The place of `p` does not lie behind `p`, hence not behind `q`.
  have hplace : t.IsPlace (t.offset p) := t.isPlace_offset p
  have hback : t.positionAt (t.offset p) ≤ p := (le_offset_iff hplace p).1 (Nat.le_refl _)
  exact (le_offset_iff hplace q).2 (Position.le_trans hback h)

/-! ### Edits -/

/-- Two offsets cut a text into three parts, whichever of them comes first. -/
theorem exists_three_parts (t : Text) {i j : Nat} (hi : i ≤ t.length) (hj : j ≤ t.length) :
    ∃ before old after, t = before ++ old ++ after ∧ before.length = min i j ∧
      (before ++ old).length = max i j := by
  have hfront : t.take (min i j) ++ (t.take (max i j)).drop (min i j) = t.take (max i j) := by
    have hcut := List.take_append_drop (min i j) (t.take (max i j))
    rw [List.take_take, Nat.min_eq_left (by omega)] at hcut
    exact hcut
  refine ⟨t.take (min i j), (t.take (max i j)).drop (min i j), t.drop (max i j), ?_, ?_, ?_⟩
  · rw [hfront, List.take_append_drop]
  · rw [List.length_take]
    omega
  · rw [hfront, List.length_take]
    omega

/-- An edit keeps what lies before and behind the two places of its span. -/
theorem edit_eq_of_parts {before old after : Text} (new : Text) (hparts : t = before ++ old ++ after)
    (hbefore : before.length = min (t.offset p) (t.offset q))
    (hold : (before ++ old).length = max (t.offset p) (t.offset q)) :
    t.edit ⟨some ⟨p, q⟩, new⟩ = before ++ new ++ after := by
  show t.take (min (t.offset p) (t.offset q)) ++ new ++ t.drop (max (t.offset p) (t.offset q)) = _
  rw [← hbefore, ← hold]
  have htake : t.take before.length = before := by
    rw [hparts, List.append_assoc, List.take_left]
  have hdrop : t.drop (before ++ old).length = after := by
    rw [hparts, List.drop_left]
  rw [htake, hdrop]

/-- **Edits between any two positions are safe, and the order of the positions does not matter.**
Later positions stand for later offsets. The offset of a position lies in the text and not inside of
a break; it is the last such place that does not lie behind the position. An edit replaces what lies
between the two offsets and keeps all else, also when its span is turned around. -/
theorem any_span_can_be_edited (t : Text) (p q : Position) (new : Text) :
    (p ≤ q → t.offset p ≤ t.offset q) ∧
      (t.offset p ≤ t.length ∧ ¬ t.SplitsBreak (t.offset p)) ∧
      (∀ i, t.IsPlace i → (i ≤ t.offset p ↔ t.positionAt i ≤ p)) ∧
      ∃ before old after, t = before ++ old ++ after ∧
        before.length = min (t.offset p) (t.offset q) ∧
        (before ++ old).length = max (t.offset p) (t.offset q) ∧
        t.edit ⟨some ⟨p, q⟩, new⟩ = before ++ new ++ after ∧
        t.edit ⟨some ⟨q, p⟩, new⟩ = before ++ new ++ after := by
  have hp : t.IsPlace (t.offset p) := t.isPlace_offset p
  have hq : t.IsPlace (t.offset q) := t.isPlace_offset q
  refine ⟨offset_mono, ⟨hp.within, hp.whole⟩, fun i hi => le_offset_iff hi p, ?_⟩
  obtain ⟨before, old, after, hparts, hbefore, hold⟩ := t.exists_three_parts hp.within hq.within
  refine ⟨before, old, after, hparts, hbefore, hold, ?_, ?_⟩
  · exact edit_eq_of_parts new hparts hbefore hold
  · apply edit_eq_of_parts new hparts
    · rw [hbefore, Nat.min_comm]
    · rw [hold, Nat.max_comm]

/-- A span from the middle of a pair of units back to a column behind the end of the row before. -/
theorem span_turned_around_over_break :
    let t : Text := "a\r\n😀\rb".toList
    (⟨0, 9⟩ : Position) ≤ ⟨1, 1⟩ ∧ t.offset ⟨0, 9⟩ ≤ t.offset ⟨1, 1⟩ ∧
      t.edit ⟨some ⟨⟨1, 1⟩, ⟨0, 9⟩⟩, ['-']⟩ = t.edit ⟨some ⟨⟨0, 9⟩, ⟨1, 1⟩⟩, ['-']⟩ ∧
      t.edit ⟨some ⟨⟨0, 9⟩, ⟨1, 1⟩⟩, ['-']⟩ = "a-😀\rb".toList := by
  intro t
  have hle : (⟨0, 9⟩ : Position) ≤ ⟨1, 1⟩ := by decide
  obtain ⟨hmono, _, _, before, old, after, _, _, _, hedit, hturned⟩ :=
    any_span_can_be_edited t ⟨0, 9⟩ ⟨1, 1⟩ ['-']
  exact ⟨hle, hmono hle, by rw [hedit, hturned], by decide⟩

end MelScript.Text
