import MelScript.Json.Reader

/-! # Skipping JSON values

  A value that nobody asked for is passed over without being taken apart: it
  may be nested to any depth, its numbers may be of any size, and an escape
  may name a surrogate on its own. Only its form is checked.
-/

namespace MelScript.Json

/-- Passes over the rest of a string, from right after its opening quotation mark. -/
def skipString : Text → Reading Text
  | [] => .error .truncated
  | '"' :: t => .ok t
  | '\\' :: [] => .error .truncated
  | '\\' :: 'u' :: a :: b :: c :: d :: t =>
    if [a, b, c, d].all fun x => (hexValue? x).isSome then skipString t else .error .malformed
  | '\\' :: 'u' :: t => .error (if Text.utf8Size t < 4 then .truncated else .malformed)
  | '\\' :: c :: t => if "\"\\/bfnrt".toList.contains c then skipString t else .error .malformed
  | c :: t => if c.toNat < 0x20 then .error .malformed else skipString t

/-- Passes over a number. A literal that breaks off is malformed, even at the end of the text. -/
def skipNumber (t : Text) : Reading Text :=
  match Numeral.scan t with
  | .ok (_, t) => .ok t
  | .error _ => .error .malformed

/-- Passes over a value that is neither array nor object, from its first character. -/
def skipScalar (t : Text) : Reading Text :=
  match t with
  | [] => .error .truncated
  | '"' :: t => skipString t
  | c :: rest =>
    if c = '-' || isDigit c then skipNumber (c :: rest)
    else (readScalar (c :: rest)).map (·.2)

/-- Passes over the name and the colon of a member. -/
def skipName (t : Text) : Reading Text :=
  match skipSpace t with
  | [] => .error .truncated
  | '"' :: t => do
    let t ← skipString t
    let ((), t) ← readColon t
    return t
  | _ => .error .malformed

/-- An array or an object that is open. -/
inductive Enclosure where
  /-- An array. -/
  | array
  /-- An object. -/
  | object
  deriving DecidableEq, Repr

/-- The mark that ends an array or an object. -/
def Enclosure.closing : Enclosure → Char
  | .array => ']'
  | .object => '\x7d'

/-- Passes over what stands before a value inside of an array or an object: nothing, or a member's
name. -/
def Enclosure.skipLead : Enclosure → Text → Reading Text
  | .array, t => .ok t
  | .object, t => skipName t

/-- What is awaited while a value is passed over. -/
inductive Awaited where
  /-- A value. -/
  | value
  /-- The first item or member of what was just opened, or its end. -/
  | first
  /-- A comma and the next item or member, or the end. -/
  | next
  deriving DecidableEq, Repr

/-- Passes over a value, or over the rest of one that lies in the given open arrays and objects, the
innermost first. Each round takes at least one character or turns to a first item or member, so
that twice as many rounds as the text has characters, and one, are enough. -/
def skipFrom : Nat → Awaited → List Enclosure → Text → Reading Text
  | 0, _, _, _ => .error .truncated
  | rounds + 1, awaited, enclosing, t =>
    match awaited, enclosing, skipSpace t with
    | _, _, [] => .error .truncated
    | .value, _, '[' :: t => skipFrom rounds .first (.array :: enclosing) t
    | .value, _, '\x7b' :: t => skipFrom rounds .first (.object :: enclosing) t
    | .value, _, t => do
      let t ← skipScalar t
      if enclosing.isEmpty then return t else skipFrom rounds .next enclosing t
    | _, [], t => .ok t
    | awaited, inner :: outer, c :: t =>
      if c = inner.closing then
        if outer.isEmpty then .ok t else skipFrom rounds .next outer t
      else match awaited, c with
        | .next, ',' => do
          let t ← inner.skipLead t
          skipFrom rounds .value enclosing t
        | .next, _ => .error .malformed
        | _, _ => do
          let t ← inner.skipLead (c :: t)
          skipFrom rounds .value enclosing t

/-- Passes over the value at the start of a text. -/
def skipValue (t : Text) : Reading Text := skipFrom (2 * t.length + 1) .value [] t

end MelScript.Json
