import MelScript.Outline.Symbol
import MelScript.Text.Lines
import MelScript.Token

/-! # Finding the outline of a script

  The scanner reads a script line by line and token by token. It keeps the
  symbols found so far, the number of blocks that are open, and the procedure
  in which it is, if any. Each token is looked at in four ways, in this order:

  1. an opening brace in it opens a block;
  2. the keyword `proc` declares the procedure named by the next tokens of the
     line; outside of a procedure the scanner is in this one from then on;
  3. a closing brace in it closes a block, and, when none is left open, the
     procedure in which the scanner is;
  4. a `$` at its start, with an assignment, declares a variable.

  A declaration inside a procedure becomes a child of that procedure. Only one
  level of procedures is followed: a procedure declared inside another one is a
  child without children.
-/

namespace MelScript

/-- The state of the scanner between two tokens. -/
structure Scanner where
  /-- The symbols that are complete. -/
  finished : List Symbol := []
  /-- The procedure in which the scanner is. -/
  current : Option Symbol := none
  /-- Opening less closing tokens so far. -/
  level : Int := 0
  /-- The number of the next line. -/
  nextLine : Nat := 0
  deriving Repr

namespace Scanner

/-- The state before the first line. -/
def start : Scanner := {}

/-- Whether the scanner is in a procedure. -/
def insideProcedure (s : Scanner) : Bool := s.current.isSome

/-- All symbols found so far. -/
def symbols (s : Scanner) : List Symbol := s.finished ++ s.current.toList

/-- Adds a symbol to the procedure in which the scanner is, or to the outline itself. -/
def add (s : Scanner) (symbol : Symbol) : Scanner :=
  match s.current with
  | some p => { s with current := some (p.addChild symbol) }
  | none => { s with finished := s.finished ++ [symbol] }

/-! ### What a token declares -/

/-- The keyword that declares a procedure. -/
def procKeyword : Text := "proc".toList

/-- The result types that may stand between the keyword and the name. -/
def resultTypes : List Text := ["string".toList, "string[]".toList]

/-- The token with a procedure's name, among those after the keyword. -/
def nameToken? : List Token → Option Token
  | [] => none
  | t :: rest => if resultTypes.contains t.text then rest.head? else some t

/-- The procedure that the tokens after the keyword declare. Until it is closed its body is its
line, which is `width` wide. -/
def declaredProcedure? (line width : Nat) (following : List Token) : Option Symbol := do
  let token ← nameToken? following
  let name := token.text.before '('
  if name.isEmpty then none
  else
    let declaration := Span.onLine line token.column (token.column + name.width)
    some (.procedure name declaration (Span.onLine line 0 width))

/-- Whether a token that starts with `$` assigns: it holds an equals sign or one follows it. -/
def assigns (token : Token) (following : List Token) : Bool :=
  token.text.contains '=' || (following.head?.map (·.text)) == some ['=']

/-- The variable that a token declares. -/
def declaredVariable? (line : Nat) (token : Token) (following : List Token) : Option Symbol :=
  if token.text.head? == some '$' && assigns token following then
    let target := token.text.before '='
    let name := Text.dropOne '$' target
    if name.isEmpty then none
    else some (.var name (Span.onLine line token.column (token.column + target.width)))
  else none

/-! ### Steps -/

/-- An opening brace opens a block. -/
def openBlock (s : Scanner) (token : Token) : Scanner :=
  if token.opensBlock then { s with level := s.level + 1 } else s

/-- The keyword declares a procedure. -/
def declareProcedure (s : Scanner) (line width : Nat) (token : Token) (following : List Token) :
    Scanner :=
  if token.text = procKeyword then
    match declaredProcedure? line width following with
    | none => s
    | some p => if s.insideProcedure then s.add p else { s with current := some p }
  else s

/-- A closing brace closes a block, and the procedure when no block is left open. The procedure's
body then ends with the line. -/
def closeBlock (s : Scanner) (line width : Nat) (token : Token) : Scanner :=
  if token.closesBlock then
    let s := { s with level := s.level - 1 }
    match s.level == 0, s.current with
    | true, some p =>
      let body : Span := ⟨p.body.start, ⟨line, width⟩⟩
      { s with finished := s.finished ++ [{ p with body }], current := none }
    | _, _ => s
  else s

/-- An assignment to a name with `$` declares a variable. -/
def declareVariable (s : Scanner) (line : Nat) (token : Token) (following : List Token) : Scanner :=
  match declaredVariable? line token following with
  | some v => s.add v
  | none => s

/-- Takes one token of a line that is `width` wide; `following` are the line's later tokens. -/
def token (s : Scanner) (line width : Nat) (token : Token) (following : List Token) : Scanner :=
  let s := s.openBlock token
  let s := s.declareProcedure line width token following
  let s := s.closeBlock line width token
  s.declareVariable line token following

/-- Takes the tokens of a line in order. -/
def tokens (s : Scanner) (line width : Nat) : List Token → Scanner
  | [] => s
  | t :: rest => (s.token line width t rest).tokens line width rest

/-- Takes a line. Line feeds and carriage returns at its end do not belong to it. -/
def feed (s : Scanner) (line : Text) : Scanner :=
  let line := line.dropBreaks
  let n := s.nextLine
  ({ s with nextLine := n + 1 }).tokens n line.width (Token.scan line)

end Scanner

/-! ### Outlines -/

namespace Outline

/-- The outline of a list of lines. -/
def ofLines (lines : List Text) : List Symbol := (lines.foldl Scanner.feed .start).symbols

/-- The outline of a file's text. -/
def ofText (t : Text) : List Symbol := ofLines t.lines

/-- Goes on with the scan of lines that may be called off. Before each line and after the last one
the next flag is looked at; a raised flag ends the scan without an outline. Flags that are not given
are not raised. -/
def scanUnlessCancelled (s : Scanner) : (flags : List Bool) → (lines : List Text) →
    Option (List Symbol)
  | true :: _, _ => none
  | false :: _, [] => some s.symbols
  | [], [] => some s.symbols
  | false :: flags, line :: lines => scanUnlessCancelled (s.feed line) flags lines
  | [], line :: lines => scanUnlessCancelled (s.feed line) [] lines

/-- The outline of a list of lines, unless the scan is called off. -/
def ofLinesUnlessCancelled (flags : List Bool) (lines : List Text) : Option (List Symbol) :=
  scanUnlessCancelled .start flags lines

end Outline

end MelScript
