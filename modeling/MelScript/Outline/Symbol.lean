import MelScript.Position

/-! # Symbols

  An outline is a list of symbols: procedures and variables, each with the
  span of its name and the span of its body. The symbols declared inside a
  procedure are its children.
-/

namespace MelScript

/-- What a symbol stands for. -/
inductive SymbolKind where
  /-- A procedure. -/
  | procedure
  /-- A variable. -/
  | var
  deriving DecidableEq, Repr

/-- The name of a kind of symbol. -/
def SymbolKind.name : SymbolKind → Text
  | .procedure => "procedure".toList
  | .var => "variable".toList

/-- A declaration found in a script. -/
structure Symbol where
  /-- The declared name; a variable's name stands without its `$`. -/
  name : Text
  /-- What is declared. -/
  kind : SymbolKind
  /-- Where the name stands. -/
  declaration : Span
  /-- All lines of a procedure's body; the declaration itself for a variable. -/
  body : Span
  /-- What is declared inside. -/
  children : List Symbol
  deriving Repr

namespace Symbol

/-- A procedure in which nothing is declared yet. -/
def procedure (name : Text) (declaration body : Span) : Symbol :=
  ⟨name, .procedure, declaration, body, []⟩

/-- A variable. -/
def var (name : Text) (span : Span) : Symbol := ⟨name, .var, span, span, []⟩

/-- Whether the symbol is a procedure. -/
def isProcedure (s : Symbol) : Bool := s.kind == .procedure

/-- The first child with a name. -/
def child? (s : Symbol) (name : Text) : Option Symbol := s.children.find? fun c => c.name == name

/-- The procedure with one more child at the end. -/
def addChild (s c : Symbol) : Symbol := { s with children := s.children ++ [c] }

mutual

/-- The symbol and all below it, each before its children, with their depths. -/
def walk (depth : Nat) : Symbol → List (Nat × Symbol)
  | ⟨name, kind, declaration, body, children⟩ =>
    (depth, ⟨name, kind, declaration, body, children⟩) :: walkAll (depth + 1) children

/-- The walks of symbols that stand next to each other. -/
def walkAll (depth : Nat) : List Symbol → List (Nat × Symbol)
  | [] => []
  | s :: ss => walk depth s ++ walkAll depth ss

end

end Symbol

end MelScript
