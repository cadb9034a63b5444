import MelScript.Json.Skip
import MelScript.Json.Writer
import MelScript.Outline.Symbol

/-! # Outlines as JSON

  A symbol is written as an object with the members `name`, `kind`,
  `declarationRange`, `bodyRange` and, unless there are none, `children`. A
  span has the members `start` and `end`, a position `line` and `column`.

  The reader takes each of these also as an array of its members' values in
  the same order. Members of an object may come in any order, and unknown ones
  are passed over; a known one may not be repeated. Reading stops at the first
  fault.
-/

namespace MelScript

open Json

/-! ### Writing -/

/-- A position as an object. -/
def Position.toJson (p : Position) : Value :=
  .object [("line".toList, .nat p.line), ("column".toList, .nat p.column)]

/-- A span as an object. -/
def Span.toJson (s : Span) : Value :=
  .object [("start".toList, s.start.toJson), ("end".toList, s.stop.toJson)]

namespace Symbol

mutual

/-- A symbol as an object. -/
def toJson : Symbol → Value
  | ⟨name, kind, declaration, body, children⟩ =>
    .object <|
      [("name".toList, .string name), ("kind".toList, .string kind.name),
        ("declarationRange".toList, declaration.toJson), ("bodyRange".toList, body.toJson)] ++
      match children with
      | [] => []
      | c :: cs => [("children".toList, .array (listToJson (c :: cs)))]

/-- Symbols as objects. -/
def listToJson : List Symbol → List Value
  | [] => []
  | s :: ss => s.toJson :: listToJson ss

end

end Symbol

/-- An outline as an array. -/
def Outline.toJson (symbols : List Symbol) : Value := .array (Symbol.listToJson symbols)

/-! ### Reading the parts -/

namespace Outline

/-- The value of a member that must not be there yet: the colon, then the value. -/
def field {α : Type} (old : Option α) (value : Text → Reading (α × Text)) (t : Text) :
    Reading (Option α × Text) :=
  match old with
  | some _ => .error .mismatched
  | none => do
    let ((), t) ← readColon t
    let (a, t) ← value t
    return (some a, t)

/-- The value of an unknown member: the colon, then a value that is passed over. -/
def unknownField {σ : Type} (s : σ) (t : Text) : Reading (σ × Text) := do
  let ((), t) ← readColon t
  let t ← skipValue t
  return (s, t)

/-- A member that has to be there. -/
def required {α : Type} : Option α → Reading α
  | some a => .ok a
  | none => .error .mismatched

/-- The item at the next place of an array: `first` tells whether no item stands before it. There is
none when the array ends here. -/
def item? {α : Type} (first : Bool) (value : Text → Reading (α × Text)) (t : Text) :
    Reading (Option α × Text) :=
  let t := skipSpace t
  match t with
  | [] => .error .truncated
  | ']' :: _ => .ok (none, t)
  | ',' :: rest =>
    if first then (value t).map fun (a, t) => (some a, t)
    else (value rest).map fun (a, t) => (some a, t)
  | _ => if first then (value t).map fun (a, t) => (some a, t) else .error .malformed

/-- An item that has to be there. -/
def item {α : Type} (first : Bool) (value : Text → Reading (α × Text)) (t : Text) :
    Reading (α × Text) := do
  let (a, t) ← item? first value t
  let a ← required a
  return (a, t)

/-- The end of an array all of whose items were taken. -/
def itemsEnd (t : Text) : Reading Text :=
  match skipSpace t with
  | [] => .error .truncated
  | ']' :: t => .ok t
  | _ => .error .malformed

/-- A string. -/
def readText (t : Text) : Reading (Text × Text) :=
  match skipSpace t with
  | '"' :: t => readString t
  | t => .error (unexpected t)

/-- An integer of 32 bits without a sign. -/
def readCount (t : Text) : Reading (Nat × Text) :=
  match skipSpace t with
  | [] => .error .truncated
  | c :: rest =>
    if c = '-' || isDigit c then do
      let (n, t) ← readNumber (c :: rest)
      match n with
      | .integer (.ofNat n) => if n < 0x100000000 then return (n, t) else throw .mismatched
      | _ => throw .mismatched
    else .error (unexpected (c :: rest))

/-! ### Reading positions and spans -/

/-- A position, `depth` levels of arrays and objects being left. -/
def readPosition (depth : Nat) (t : Text) : Reading (Position × Text) :=
  match depth, skipSpace t with
  | 0, '[' :: _ => .error .malformed
  | 0, '\x7b' :: _ => .error .malformed
  | _ + 1, '[' :: t => do
    let (line, t) ← item true readCount t
    let (column, t) ← item false readCount t
    let t ← itemsEnd t
    return (⟨line, column⟩, t)
  | _ + 1, '\x7b' :: t => do
    let member (s : Option Nat × Option Nat) (name : Text) (t : Text) : Reading _ := do
      if name = "line".toList then
        let (line, t) ← field s.1 readCount t
        return ((line, s.2), t)
      else if name = "column".toList then
        let (column, t) ← field s.2 readCount t
        return ((s.1, column), t)
      else unknownField s t
    let (s, t) ← record member (none, none) t
    let line ← required s.1
    let column ← required s.2
    return (⟨line, column⟩, t)
  | _, t => .error (unexpected t)

/-- A span, `depth` levels of arrays and objects being left. -/
def readSpan (depth : Nat) (t : Text) : Reading (Span × Text) :=
  match depth, skipSpace t with
  | 0, '[' :: _ => .error .malformed
  | 0, '\x7b' :: _ => .error .malformed
  | depth + 1, '[' :: t => do
    let (start, t) ← item true (readPosition depth) t
    let (stop, t) ← item false (readPosition depth) t
    let t ← itemsEnd t
    return (⟨start, stop⟩, t)
  | depth + 1, '\x7b' :: t => do
    let member (s : Option Position × Option Position) (name : Text) (t : Text) : Reading _ := do
      if name = "start".toList then
        let (start, t) ← field s.1 (readPosition depth) t
        return ((start, s.2), t)
      else if name = "end".toList then
        let (stop, t) ← field s.2 (readPosition depth) t
        return ((s.1, stop), t)
      else unknownField s t
    let (s, t) ← record member (none, none) t
    let start ← required s.1
    let stop ← required s.2
    return (⟨start, stop⟩, t)
  | _, t => .error (unexpected t)

/-! ### Reading kinds -/

/-- The kind with a name. -/
def kindNamed (name : Text) : Reading SymbolKind :=
  if name = SymbolKind.procedure.name then .ok .procedure
  else if name = SymbolKind.var.name then .ok .var
  else .error .mismatched

/-- The value `null`. -/
def readNull (t : Text) : Reading (Unit × Text) :=
  match skipSpace t with
  | 'n' :: t => readWord "ull".toList t
  | t => .error (unexpected t)

/-- A kind: its name, or an object with its name as the only member and the value `null`. -/
def readKind (depth : Nat) (t : Text) : Reading (SymbolKind × Text) :=
  match depth, skipSpace t with
  | _, [] => .error .truncated
  | _, '"' :: t => do
    let (name, t) ← readString t
    let kind ← kindNamed name
    return (kind, t)
  | 0, '\x7b' :: _ => .error .malformed
  | _ + 1, '\x7b' :: t => do
    let (name, t) ← readName t
    let kind ← kindNamed name
    let ((), t) ← readColon t
    let ((), t) ← readNull t
    match skipSpace t with
    | [] => throw .truncated
    | '\x7d' :: t => return (kind, t)
    | _ => throw .malformed
  | _, _ => .error .malformed

/-! ### Reading symbols -/

/-- The members of a symbol that were read so far. -/
structure Draft where
  /-- The name. -/
  name : Option Text := none
  /-- The kind. -/
  kind : Option SymbolKind := none
  /-- The span of the name. -/
  declaration : Option Span := none
  /-- The span of the body. -/
  body : Option Span := none
  /-- The children. -/
  children : Option (List Symbol) := none

/-- The symbol of a draft. Only the children may be missing. -/
def Draft.symbol (d : Draft) : Reading Symbol := do
  let name ← required d.name
  let kind ← required d.kind
  let declaration ← required d.declaration
  let body ← required d.body
  return ⟨name, kind, declaration, body, d.children.getD []⟩

/-- An array of values that are read by `value`. -/
def readArray {α : Type} (value : Text → Reading (α × Text)) (t : Text) :
    Reading (List α × Text) :=
  match skipSpace t with
  | '[' :: t => sequence value t
  | t => .error (unexpected t)

/-- A member of a symbol, `depth` levels being left inside the symbol. -/
def readMember (depth : Nat) (children : Text → Reading (List Symbol × Text)) (d : Draft)
    (name : Text) (t : Text) : Reading (Draft × Text) := do
  if name = "name".toList then
    let (name, t) ← field d.name readText t
    return ({ d with name }, t)
  else if name = "kind".toList then
    let (kind, t) ← field d.kind (readKind depth) t
    return ({ d with kind }, t)
  else if name = "declarationRange".toList then
    let (declaration, t) ← field d.declaration (readSpan depth) t
    return ({ d with declaration }, t)
  else if name = "bodyRange".toList then
    let (body, t) ← field d.body (readSpan depth) t
    return ({ d with body }, t)
  else if name = "children".toList then
    let (children, t) ← field d.children children t
    return ({ d with children }, t)
  else unknownField d t

/-- A symbol, `depth` levels of arrays and objects being left. -/
def readSymbol (depth : Nat) (t : Text) : Reading (Symbol × Text) :=
  match depth, skipSpace t with
  | 0, '[' :: _ => .error .malformed
  | 0, '\x7b' :: _ => .error .malformed
  | depth + 1, '[' :: t => do
    let (name, t) ← item true readText t
    let (kind, t) ← item false (readKind depth) t
    let (declaration, t) ← item false (readSpan depth) t
    let (body, t) ← item false (readSpan depth) t
    let (children, t) ← item? false (readChildren depth) t
    let t ← itemsEnd t
    return (⟨name, kind, declaration, body, children.getD []⟩, t)
  | depth + 1, '\x7b' :: t => do
    let (d, t) ← record (readMember depth (readChildren depth)) {} t
    let s ← d.symbol
    return (s, t)
  | _, t => .error (unexpected t)
where
  /-- An array of symbols, `depth` levels being left. -/
  readChildren : Nat → Text → Reading (List Symbol × Text)
    | 0, t => match skipSpace t with
      | '[' :: _ => .error .malformed
      | t => .error (unexpected t)
    | depth + 1, t => readArray (readSymbol depth) t

/-- The outline that a whole text is. -/
def parse (t : Text) : Reading (List Symbol) := do
  let (symbols, rest) ← readSymbol.readChildren maxDepth t
  if atEnd rest then return symbols else throw .malformed

end Outline

end MelScript
