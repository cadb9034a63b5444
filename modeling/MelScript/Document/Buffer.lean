import MelScript.Position
import MelScript.Text.Lines
import MelScript.Vocabulary.Fragment

/-! # The text of an open document

  An editor addresses the text of a document by rows and columns. A row ends
  with a line feed, a carriage return, or both in this order, and nothing else
  ends a row; a text always has one more row than it has such breaks.

  A position stands for an offset into the text. A row past the last one
  stands for the end of the text, a column past the end of its row for the end
  of that row, and a column inside of a character for the start of that
  character. Edits replace what lies between two offsets.
-/

namespace MelScript

/-! ### Rows -/

/-- A row of a document: what stands on it and the break that ends it. -/
structure Row where
  /-- The characters on the row. -/
  body : Text
  /-- The break after them; empty on the last row. -/
  ending : Text
  deriving DecidableEq, Repr

/-- The number of characters of a row with its break. -/
def Row.length (r : Row) : Nat := r.body.length + r.ending.length

/-- The number of characters of rows with their breaks. -/
def Row.totalLength : List Row → Nat
  | [] => 0
  | r :: rs => r.length + totalLength rs

namespace Text

/-- The rows of a text. -/
def rows : Text → List Row
  | [] => [⟨[], []⟩]
  | '\r' :: '\n' :: rest => ⟨[], ['\r', '\n']⟩ :: rows rest
  | c :: rest =>
    if isBreak c then ⟨[], [c]⟩ :: rows rest
    else match rows rest with
      | [] => [⟨[c], []⟩]
      | r :: rs => { r with body := c :: r.body } :: rs

theorem rows_ne_nil (t : Text) : t.rows ≠ [] := by
  fun_cases rows t <;> simp_all

/-- The rows with their breaks make up the text. -/
theorem flatMap_rows (t : Text) : t.rows.flatMap (fun r => r.body ++ r.ending) = t := by
  fun_induction rows t <;> simp_all [rows_ne_nil]

/-- What stands on a row, if the text has it. -/
def row? (t : Text) (line : Nat) : Option Text := (t.rows[line]?).map (·.body)

/-! ### Offsets -/

/-- How many characters from the start of a row lie within its first `column` units. -/
def reach (column : Nat) : Text → Nat
  | [] => 0
  | c :: rest => if units c ≤ column then reach (column - units c) rest + 1 else 0

theorem reach_le_length (column : Nat) (t : Text) : t.reach column ≤ t.length := by
  induction t generalizing column with
  | nil => simp [reach]
  | cons c rest ih =>
    rw [reach]
    split
    · have := ih (column - units c)
      simp only [List.length_cons]; omega
    · simp

/-- The offset of the start of a row. -/
def rowStart (t : Text) (line : Nat) : Nat := Row.totalLength (t.rows.take line)

/-- The offset that a position stands for. -/
def offset (t : Text) (p : Position) : Nat :=
  match t.row? p.line with
  | none => t.length
  | some row => t.rowStart p.line + row.reach p.column

end Text

/-! ### Edits -/

/-- A change of a document: the new text, and what it replaces. Without a span it replaces
everything. -/
structure Edit where
  /-- The stretch that is replaced. -/
  span : Option Span
  /-- What comes in its place. -/
  text : Text
  deriving DecidableEq, Repr

namespace Text

/-- The text after an edit. The ends of the edit's span may come in either order. -/
def edit (t : Text) (e : Edit) : Text :=
  match e.span with
  | none => e.text
  | some span =>
    let i := t.offset span.start
    let j := t.offset span.stop
    t.take (min i j) ++ e.text ++ t.drop (max i j)

/-! ### The cursor -/

/-- Whether a text ends in a `$` and perhaps the characters of a name after it. -/
def endsInVariable (t : Text) : Bool := (t.dropTail isNameChar).getLast? == some '$'

/-- Whether a variable is being typed at a position. -/
def typingVariable (t : Text) (p : Position) : Bool :=
  match t.row? p.line with
  | none => false
  | some row => endsInVariable (row.take (row.reach p.column))

end Text

end MelScript
