import MelScript.Text.Basic

/-! # Positions and spans

  A position is a line number and a column, both counted from zero; columns
  count UTF-16 units. Positions are ordered by line, then by column. A span is
  a pair of positions, the end being the first position that is no longer part
  of it.

  Line numbers and columns that reach this library from outside fit in 32
  bits, and the numbers shown for them are taken in 32 bits as well: `shown`
  counts from one and returns to zero after the last 32-bit number.
-/

namespace MelScript

/-- A place in a script. -/
structure Position where
  /-- The line, from zero. -/
  line : Nat
  /-- The column in UTF-16 units, from zero. -/
  column : Nat
  deriving DecidableEq, Repr, Inhabited

/-- A stretch of a script. -/
structure Span where
  /-- Where it starts. -/
  start : Position
  /-- The first position after it. -/
  stop : Position
  deriving DecidableEq, Repr, Inhabited

namespace Position

/-- The order of reading: by line, then by column. -/
def compare (p q : Position) : Ordering :=
  (Ord.compare p.line q.line).then (Ord.compare p.column q.column)

/-- `p` does not come after `q`. -/
def Le (p q : Position) : Prop := p.line < q.line ∨ p.line = q.line ∧ p.column ≤ q.column

instance : LE Position := ⟨Le⟩

theorem le_def (p q : Position) :
    p ≤ q ↔ p.line < q.line ∨ p.line = q.line ∧ p.column ≤ q.column := Iff.rfl

instance (p q : Position) : Decidable (p ≤ q) :=
  inferInstanceAs (Decidable (p.line < q.line ∨ p.line = q.line ∧ p.column ≤ q.column))

theorem le_refl (p : Position) : p ≤ p := (le_def p p).2 (.inr ⟨rfl, Nat.le_refl _⟩)

theorem le_trans {p q r : Position} (h : p ≤ q) (k : q ≤ r) : p ≤ r := by
  rw [le_def] at *; omega

end Position

/-- A 32-bit number from zero as it is shown, from one. -/
def shown (n : Nat) : Nat := (n + 1) % 0x100000000

/-- The position as `line:column`, counted from one. -/
def Position.label (p : Position) : Text :=
  Text.ofNat (shown p.line) ++ ':' :: Text.ofNat (shown p.column)

namespace Span

/-- The span from one column to another of a single line. -/
def onLine (line first last : Nat) : Span := ⟨⟨line, first⟩, ⟨line, last⟩⟩

/-- The span `t` lies inside the span `s`. -/
def contains (s t : Span) : Bool := decide (s.start ≤ t.start) && decide (t.stop ≤ s.stop)

/-- The number of lines that the span touches. -/
def lineCount (s : Span) : Nat := shown (s.stop.line - s.start.line)

/-- The span as `line:column-line:column`, counted from one. -/
def label (s : Span) : Text := s.start.label ++ '-' :: s.stop.label

end Span

end MelScript
