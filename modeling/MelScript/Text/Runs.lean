import MelScript.Text.Basic

/-! # Runs

  A run is a maximal stretch of neighbouring characters that satisfy one
  test, together with the column at which it starts. The tokens of a line and
  the words of a line are both runs, for two different tests.
-/

namespace MelScript

/-- A stretch of a line and the column at which it starts. -/
structure Run where
  /-- The characters of the stretch. -/
  text : Text
  /-- The width of everything before it on its line. -/
  column : Nat
  deriving DecidableEq, Repr

/-- The column right after the run. -/
def Run.endColumn (r : Run) : Nat := r.column + r.text.width

namespace Text

/-- The runs of `p`-characters of `t`, in order, when `t` stands at `column`. -/
def runsFrom (p : Char → Bool) (column : Nat) (t : Text) : List Run :=
  match t with
  | [] => []
  | c :: rest =>
    if p c then
      let word : Text := c :: rest.takeWhile p
      ⟨word, column⟩ :: runsFrom p (column + word.width) (rest.dropWhile p)
    else
      runsFrom p (column + units c) rest
termination_by t.length
decreasing_by
  · have := (List.dropWhile_sublist (p := p) (l := rest)).length_le
    simp only [List.length_cons]; omega
  · simp

@[simp] theorem runsFrom_nil (p : Char → Bool) (column : Nat) : runsFrom p column [] = [] := by
  rw [runsFrom]

/-- A character that is no part of a run moves the rest to the right. -/
theorem runsFrom_cons_of_neg {p : Char → Bool} {c : Char} (h : p c = false) (column : Nat)
    (rest : Text) : runsFrom p column (c :: rest) = runsFrom p (column + units c) rest := by
  rw [runsFrom]
  simp [h]

/-- A character of a run starts it; the run ends where the characters cease to satisfy `p`. -/
theorem runsFrom_cons_of_pos {p : Char → Bool} {c : Char} (h : p c = true) (column : Nat)
    (rest : Text) :
    runsFrom p column (c :: rest) =
      ⟨c :: rest.takeWhile p, column⟩ ::
        runsFrom p (column + width (c :: rest.takeWhile p)) (rest.dropWhile p) := by
  rw [runsFrom]
  simp [h]

/-- The runs of `p`-characters of a whole line. -/
def runs (p : Char → Bool) (t : Text) : List Run := runsFrom p 0 t

end Text

end MelScript
