import MelScript.Editor.Protocol
import MelScript.Proofs.Command.Words
import MelScript.Proofs.Server.Notifications
import MelScript.Proofs.Server.Ranges

/-! # Hover answers

  A hover is asked for at a position of an open document. The row of the position
  is taken from the text of the document, the word that the column touches from
  the row, and the record of the word from the command table that is in force.

  The span of the answer is counted on the row, while an editor resolves it in
  the whole text: `Text.cutOut_row` says that it finds the word there.
-/

namespace MelScript

/-! ### Rows in the text -/

namespace Text

/-- A row is a stretch of the text, and it begins where `rowStart` says. -/
theorem exists_of_row? {t row : Text} {n : Nat} (h : t.row? n = some row) :
    ∃ pre post, t = pre ++ row ++ post ∧ pre.length = t.rowStart n := by
  obtain ⟨r, hr, hbody⟩ := Option.map_eq_some_iff.1 h
  obtain ⟨hn, hget⟩ := List.getElem?_eq_some_iff.1 hr
  have hrows : t.rows = t.rows.take n ++ r :: t.rows.drop (n + 1) := by
    rw [← hget, List.getElem_cons_drop, List.take_append_drop]
  refine ⟨(t.rows.take n).flatMap fun r => r.body ++ r.ending,
    r.ending ++ (t.rows.drop (n + 1)).flatMap fun r => r.body ++ r.ending, ?_, ?_⟩
  · calc
      t = t.rows.flatMap fun r => r.body ++ r.ending := t.flatMap_rows.symm
      _ = (t.rows.take n ++ r :: t.rows.drop (n + 1)).flatMap fun r => r.body ++ r.ending :=
        congrArg (List.flatMap fun r : Row => r.body ++ r.ending) hrows
      _ = _ := by
        rw [← hbody]
        simp
  · exact Row.length_flatMap _

/-- A stretch of a row is found in the text by its columns. -/
theorem cutOut_row {t row u w v : Text} {n : Nat} (h : t.row? n = some row)
    (hrow : row = u ++ w ++ v) :
    t.cutOut (Span.onLine n u.width (u.width + w.width)) = w := by
  obtain ⟨pre, post, htext, hlength⟩ := exists_of_row? h
  have hstart : t.offset ⟨n, u.width⟩ = (pre ++ u).length := by
    unfold offset
    rw [h]
    show t.rowStart n + row.reach u.width = _
    rw [hrow, List.append_assoc, reach_width, ← hlength, List.length_append]
  have hstop : t.offset ⟨n, u.width + w.width⟩ = (pre ++ u ++ w).length := by
    unfold offset
    rw [h]
    show t.rowStart n + row.reach (u.width + w.width) = _
    rw [← width_append, hrow, reach_width, ← hlength, List.append_assoc, ← List.length_append]
  have hparts : t = pre ++ u ++ w ++ (v ++ post) := by
    rw [htext, hrow]
    simp
  show t.between (t.offset ⟨n, u.width⟩) (t.offset ⟨n, u.width + w.width⟩) = w
  rw [hstart, hstop, hparts]
  exact between_append (pre ++ u) w (v ++ post)

/-- A word of a row of the text that a position touches. -/
def WordTouched (t : Text) (p : Position) (w : Run) : Prop :=
  ∃ row, t.row? p.line = some row ∧ row.IsRun isWordChar w ∧ w.Touches p.column

/-- The word that a position touches is found in the text by its columns. -/
theorem WordTouched.cutOut {t : Text} {p : Position} {w : Run} (h : t.WordTouched p w) :
    t.cutOut (Span.onLine p.line w.column w.endColumn) = w.text := by
  obtain ⟨row, hrow, ⟨u, v, hcut, hcolumn, _⟩, _⟩ := h
  unfold Run.endColumn
  rw [hcolumn]
  exact cutOut_row hrow hcut

end Text

/-! ### Answers -/

namespace Server

variable {s : Server} {uri : FileUri} {d : Document} {p : Position}

/-- What is shown for a word of a line by one of its records. -/
def helpFor (s : Server) (line : Nat) (w : Run) (record : Command) : Hover :=
  let url := helpUrl s.settings.helpBase record.trigger
  ⟨record.trigger, url, record.markdown url, Span.onLine line w.column w.endColumn⟩

/-- The help at a position is that of the last record of the word that the position touches. -/
theorem hover?_eq_some_iff (hd : s.document? uri = some d) (h : Hover) :
    s.hover? uri p = some h ↔
      ∃ w record, d.text.WordTouched p w ∧ (record.trigger = w.text ∧ s.table.IsLast record) ∧
        h = s.helpFor p.line w record := by
  unfold hover?
  rw [hd]
  simp only [Option.bind_eq_bind, Option.bind_some, Option.bind_eq_some_iff,
    CommandTable.hover?_eq_some_iff]
  constructor
  · rintro ⟨row, hrow, w, record, ⟨hrun, htouches⟩, hrecord, heq⟩
    exact ⟨w, record, ⟨row, hrow, hrun, htouches⟩, hrecord, heq⟩
  · rintro ⟨w, record, ⟨row, hrow, hrun, htouches⟩, hrecord, heq⟩
    exact ⟨row, hrow, w, record, ⟨hrun, htouches⟩, hrecord, heq⟩

/-- A word with a record is answered with the last of its records. -/
theorem hover?_of_trigger (hd : s.document? uri = some d) {w : Run}
    (hw : d.text.WordTouched p w) (htrigger : ∃ r ∈ s.table.records, r.trigger = w.text) :
    ∃ record, record.trigger = w.text ∧ s.table.IsLast record ∧
      s.hover? uri p = some (s.helpFor p.line w record) := by
  obtain ⟨record, hrecord⟩ := CommandTable.exists_lookup?_iff.2 htrigger
  obtain ⟨hspelled, hlast⟩ := CommandTable.lookup?_eq_some_iff.1 hrecord
  refine ⟨record, hspelled, hlast, ?_⟩
  rw [hover?_eq_some_iff hd]
  exact ⟨w, record, hw, ⟨hspelled, hlast⟩, rfl⟩

/-- Only a word with a record is answered. -/
theorem exists_trigger_of_hover? (hd : s.document? uri = some d) {h : Hover}
    (hhover : s.hover? uri p = some h) :
    ∃ w, d.text.WordTouched p w ∧ ∃ r ∈ s.table.records, r.trigger = w.text := by
  obtain ⟨w, record, hw, hlast, _⟩ := (hover?_eq_some_iff hd h).1 hhover
  have hrecord : s.table.lookup? w.text = some record := CommandTable.lookup?_eq_some_iff.2 hlast
  exact ⟨w, hw, CommandTable.exists_lookup?_iff.1 ⟨record, hrecord⟩⟩

end Server

namespace Service

end Service

end MelScript
