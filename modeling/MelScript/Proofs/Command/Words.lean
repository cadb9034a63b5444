import Mathlib.Data.List.Pairwise
import MelScript.Command.Hover
import MelScript.Proofs.Command.Catalogue
import MelScript.Proofs.Text.Stretches

/-! # Words and their records

  The help for a column of a line is found in two steps, each of which is told
  here by itself:

  - `wordAt?_eq_some_iff`: the word at a column is the run of word characters that
    the column touches. There is no other one, since something stands between two
    runs. `word_at_column_exact` says the same by what stands before the word and
    after it.
  - `lookup?_eq_some_iff`, which tables bring along: the record of a word is the
    last one that has it as its trigger.
-/

namespace MelScript

/-! ### The word at a column -/

/-- A column lies within a run or right after it. -/
def Run.Touches (r : Run) (column : Nat) : Prop := r.column ≤ column ∧ column ≤ r.endColumn

/-- Two runs are the same, or one of them ends before the other one starts. -/
def Run.Apart (r r' : Run) : Prop := r = r' ∨ r.endColumn < r'.column ∨ r'.endColumn < r.column

theorem Run.Apart.symm {r r' : Run} (h : r.Apart r') : r'.Apart r := by
  rcases h with heq | hbefore | hafter
  · exact .inl heq.symm
  · exact .inr (.inr hbefore)
  · exact .inr (.inl hafter)

instance : Std.Symm Run.Apart := ⟨fun _ _ h => h.symm⟩

theorem Text.apart_of_mem_runs {p : Char → Bool} {line : Text} {r r' : Run}
    (hr : r ∈ line.runs p) (hr' : r' ∈ line.runs p) : r.Apart r' := by
  have hpairwise : (line.runs p).Pairwise Run.Apart :=
    (Text.pairwise_runsFrom p 0 line).imp fun hbefore => .inr (.inl hbefore)
  exact hpairwise.forall_of_forall (fun _ _ => .inl rfl) hr hr'

/-- A column touches at most one of the runs of a line: it cannot lie on both sides of a gap. -/
theorem Text.eq_of_touches {p : Char → Bool} {line : Text} {r r' : Run} {column : Nat}
    (hr : r ∈ line.runs p) (hr' : r' ∈ line.runs p) (h : r.Touches column)
    (h' : r'.Touches column) : r = r' := by
  obtain ⟨hstart, hend⟩ := h
  obtain ⟨hstart', hend'⟩ := h'
  rcases apart_of_mem_runs hr hr' with heq | hbefore | hafter
  · exact heq
  · omega
  · omega

/-- The word at a column is the one that the column touches. -/
theorem Text.wordAt?_eq_some_iff {line : Text} {column : Nat} {w : Run} :
    line.wordAt? column = some w ↔ line.IsRun isWordChar w ∧ w.Touches column := by
  rw [← Text.mem_runs_iff]
  unfold wordAt?
  constructor
  · intro h
    have htouches := List.find?_some h
    rw [Bool.and_eq_true, decide_eq_true_eq, decide_eq_true_eq] at htouches
    exact ⟨List.mem_of_find?_eq_some h, htouches⟩
  · rintro ⟨hw, htouches⟩
    have hfound : (line.words.find? fun w => w.column ≤ column && column ≤ w.endColumn).isSome := by
      rw [List.find?_isSome]
      refine ⟨w, hw, ?_⟩
      rw [Bool.and_eq_true, decide_eq_true_eq, decide_eq_true_eq]
      exact htouches
    obtain ⟨w', hw'⟩ := Option.isSome_iff_exists.1 hfound
    have htouches' := List.find?_some hw'
    rw [Bool.and_eq_true, decide_eq_true_eq, decide_eq_true_eq] at htouches'
    rw [hw', Text.eq_of_touches (List.mem_of_find?_eq_some hw') hw htouches' htouches]

/-- A word of a line that a column touches, with what stands before it and after it. -/
structure Text.WordAround (line : Text) (column : Nat) (before word after : Text) : Prop where
  parts : line = before ++ word ++ after
  longest : Text.Longest isWordChar before word after
  touched : before.width ≤ column ∧ column ≤ before.width + word.width

namespace Text.WordAround

variable {line before word after before' word' after' : Text} {column : Nat}

theorem wordAt?_eq (h : line.WordAround column before word after) :
    line.wordAt? column = some ⟨word, before.width⟩ :=
  wordAt?_eq_some_iff.2 ⟨⟨before, after, h.parts, rfl, h.longest⟩, h.touched⟩

/-- A column touches no second word, and it touches a word at one place only. -/
theorem unique (h : line.WordAround column before word after)
    (h' : line.WordAround column before' word' after') :
    before = before' ∧ word = word' ∧ after = after' := by
  have hsame : (⟨word, before.width⟩ : Run) = ⟨word', before'.width⟩ := by
    apply Option.some.inj
    rw [← h.wordAt?_eq, ← h'.wordAt?_eq]
  obtain ⟨hword, hwidth⟩ := Run.mk.inj hsame
  have hparts : before ++ (word ++ after) = before' ++ (word' ++ after') := by
    rw [← List.append_assoc, ← List.append_assoc, ← h.parts, ← h'.parts]
  obtain ⟨hbefore, hrest⟩ := append_inj_of_width hparts hwidth
  rw [hword] at hrest
  exact ⟨hbefore, hword, List.append_cancel_left hrest⟩

end Text.WordAround

/-- **The word at a column is the one that the column touches.** It is found, with the columns at
which it starts and ends, exactly when it is a longest stretch of word characters and the column
lies within it or right after it. There is at most one such stretch. -/
theorem Text.word_at_column_exact (line : Text) (column : Nat) :
    (∀ (first last : Nat) (word : Text),
        (line.wordAt? column).map (fun w => (w.column, w.endColumn, w.text)) =
            some (first, last, word) ↔
          ∃ before after, line.WordAround column before word after ∧ first = before.width ∧
            last = first + word.width) ∧
      ∀ before word after before' word' after',
        line.WordAround column before word after → line.WordAround column before' word' after' →
          before = before' ∧ word = word' ∧ after = after' := by
  refine ⟨?_, ?_⟩
  · intro first last word
    rw [Option.map_eq_some_iff]
    constructor
    · intro hfound
      obtain ⟨w, hw, heq⟩ := hfound
      simp only [Prod.mk.injEq] at heq
      obtain ⟨hfirst, hlast, hword⟩ := heq
      obtain ⟨⟨before, after, hparts, hcolumn, hlongest⟩, htouches⟩ := wordAt?_eq_some_iff.1 hw
      subst hfirst hlast hword
      refine ⟨before, after, ⟨hparts, hlongest, ?_⟩, hcolumn, rfl⟩
      rw [← hcolumn]
      exact htouches
    · intro htouched
      obtain ⟨before, after, h, hfirst, hlast⟩ := htouched
      refine ⟨⟨word, before.width⟩, h.wordAt?_eq, ?_⟩
      rw [hlast, hfirst]
      rfl
  · intro before word after before' word' after' h h'
    exact h.unique h'

/-- A column at the end of a word with a pair of units, between two marks. -/
theorem Text.word_at_column_of_paired_units :
    Text.WordAround "a(😀b)".toList 5 "a(".toList "😀b".toList ")".toList ∧
      (Text.wordAt? "a(😀b)".toList 5).map (fun w => (w.column, w.endColumn, w.text)) =
        some (2, 5, "😀b".toList) := by
  have hinside : "😀b".toList.all isWordChar = true := by decide
  have hlongest : Text.Longest isWordChar "a(".toList "😀b".toList ")".toList := by
    refine ⟨by decide, List.all_eq_true.1 hinside, ?_, ?_⟩
    · intro c hc
      cases hc
      decide
    · intro c hc
      cases hc
      decide
  have h : Text.WordAround "a(😀b)".toList 5 "a(".toList "😀b".toList ")".toList :=
    ⟨rfl, hlongest, by decide⟩
  exact ⟨h, ((Text.word_at_column_exact _ 5).1 2 5 _).2 ⟨_, _, h, rfl, rfl⟩⟩

/-! ### The help for a word -/

namespace CommandTable

/-- The help for a column is that of the last record of the word that the column touches. -/
theorem hover?_eq_some_iff {table : CommandTable} {helpBase line : Text}
    {lineNumber column : Nat} {h : Hover} :
    table.hover? helpBase lineNumber line column = some h ↔
      ∃ w record, (line.IsRun isWordChar w ∧ w.Touches column) ∧
        (record.trigger = w.text ∧ table.IsLast record) ∧
        h = ⟨record.trigger, MelScript.helpUrl helpBase record.trigger,
          record.markdown (MelScript.helpUrl helpBase record.trigger),
          Span.onLine lineNumber w.column w.endColumn⟩ := by
  unfold hover?
  simp only [Option.bind_eq_bind, Option.bind_eq_some_iff, Option.pure_def, Option.some.injEq,
    Text.wordAt?_eq_some_iff, lookup?_eq_some_iff]
  constructor
  · rintro ⟨w, hw, record, hrecord, heq⟩
    exact ⟨w, record, hw, hrecord, heq.symm⟩
  · rintro ⟨w, record, hw, hrecord, heq⟩
    exact ⟨w, hw, record, hrecord, heq.symm⟩

end CommandTable

end MelScript
