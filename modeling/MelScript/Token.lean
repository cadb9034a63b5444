import MelScript.Text.Blank
import MelScript.Text.Runs

/-! # Tokens

  The tokens of a line are the stretches between white space, each with its
  column. Nothing else separates tokens: a brace or an equals sign that touches
  a name is part of the name's token.
-/

namespace MelScript

/-- A stretch of a line without white space. -/
abbrev Token := Run

namespace Token

/-- The tokens of a line, in order. -/
def scan (line : Text) : List Token := line.runs fun c => !isBlank c

/-- Whether the token holds an opening brace. -/
def opensBlock (t : Token) : Bool := t.text.contains '\x7b'

/-- Whether the token holds a closing brace. -/
def closesBlock (t : Token) : Bool := t.text.contains '\x7d'

end Token

end MelScript
