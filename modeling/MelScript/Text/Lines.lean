import MelScript.Text.Basic

/-! # Lines of a script

  Two ways to cut a script into lines at its line feeds:

  - `pieces` keeps everything between two line feeds, so `n` line feeds give
    `n + 1` pieces;
  - `lines` is what a reader of files counts: a carriage return right before a
    line feed belongs to the break, and a text that ends in a line feed has no
    further, empty line after it.
-/

namespace MelScript.Text

/-- Whether a character is a line feed or a carriage return. -/
def isBreak (c : Char) : Bool := c == '\n' || c == '\r'

/-- The stretches between line feeds, the empty ones included. -/
def pieces (t : Text) : List Text := t.split '\n'

/-- The piece without the carriage return at its end, if it has one. -/
def dropReturn (t : Text) : Text :=
  if t.getLast? = some '\r' then t.dropLast else t

/-- The lines of a file's text. -/
def lines (t : Text) : List Text :=
  let ps := pieces t
  let closed := ps.dropLast.map dropReturn
  match ps.getLast? with
  | some (c :: rest) => closed ++ [c :: rest]
  | _ => closed

/-- The line without the line feeds and carriage returns at its end. -/
def dropBreaks (t : Text) : Text := dropTail isBreak t

end MelScript.Text
