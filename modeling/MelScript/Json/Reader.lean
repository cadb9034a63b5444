import MelScript.Json.Number
import MelScript.Json.String

/-! # Reading JSON

  Readers take a text and give back what they read together with the text
  after it. White space may stand before every part. Arrays and objects may be
  nested `maxDepth` deep; a reader of nested values takes the depth that is
  left, and refuses an array or object when none is.

  `sequence` and `record` read arrays and objects whose items and members are
  read by a given reader, so that values of a known shape can be read in a
  single pass: the first fault in reading order is the one reported.
-/

namespace MelScript.Json

/-- How deep arrays and objects may be nested. -/
def maxDepth : Nat := 127

/-- Whether a character is white space between the parts of a JSON text. -/
def isSpace (c : Char) : Bool := c == ' ' || c == '\t' || c == '\n' || c == '\r'

/-- The text without white space at its start. -/
def skipSpace (t : Text) : Text := t.dropWhile isSpace

/-- Whether nothing but white space is left. -/
def atEnd (t : Text) : Bool := t.all isSpace

/-- The given word at the start of a text. -/
def readWord : (word : Text) → Text → Reading (Unit × Text)
  | [], t => .ok ((), t)
  | _ :: _, [] => .error .truncated
  | w :: ws, c :: t => if c = w then readWord ws t else .error .malformed

/-! ### Arrays and objects -/

/-- One item and all that follow it in an array. Each item takes at least one character, so that
as many rounds as the text has characters are enough. -/
def sequenceFrom {α : Type} (item : Text → Reading (α × Text)) :
    Nat → Text → Reading (List α × Text)
  | 0, _ => .error .truncated
  | rounds + 1, t => do
    let (x, t) ← item t
    match skipSpace t with
    | [] => throw .truncated
    | ']' :: t => return ([x], t)
    | ',' :: t =>
      let (xs, t) ← sequenceFrom item rounds t
      return (x :: xs, t)
    | _ => throw .malformed

/-- The items of an array, from right after its opening bracket. -/
def sequence {α : Type} (item : Text → Reading (α × Text)) (t : Text) : Reading (List α × Text) :=
  match skipSpace t with
  | ']' :: t => .ok ([], t)
  | t => sequenceFrom item t.length t

/-- The colon after the name of a member. -/
def readColon (t : Text) : Reading (Unit × Text) :=
  match skipSpace t with
  | [] => .error .truncated
  | ':' :: t => .ok ((), t)
  | _ => .error .malformed

/-- The name of a member. Nothing but a string can be one. -/
def readName (t : Text) : Reading (Text × Text) :=
  match skipSpace t with
  | [] => .error .truncated
  | '"' :: t => readString t
  | _ => .error .malformed

/-- One member and all that follow it in an object. The reader `member` is given what the members
before it left, the member's name and the text after the name. -/
def recordFrom {σ : Type} (member : σ → Text → Text → Reading (σ × Text)) :
    Nat → σ → Text → Reading (σ × Text)
  | 0, _, _ => .error .truncated
  | rounds + 1, s, t => do
    let (name, t) ← readName t
    let (s, t) ← member s name t
    match skipSpace t with
    | [] => throw .truncated
    | '\x7d' :: t => return (s, t)
    | ',' :: t => recordFrom member rounds s t
    | _ => throw .malformed

/-- The members of an object, from right after its opening brace. -/
def record {σ : Type} (member : σ → Text → Text → Reading (σ × Text)) (s : σ) (t : Text) :
    Reading (σ × Text) :=
  match skipSpace t with
  | '\x7d' :: t => .ok (s, t)
  | t => recordFrom member t.length s t

/-! ### Values -/

/-- A value that is neither array nor object, when the text starts with its first character. -/
def readScalar (t : Text) : Reading (Value × Text) :=
  match t with
  | [] => .error .truncated
  | '"' :: t => (readString t).map fun (s, t) => (.string s, t)
  | 'n' :: t => (readWord "ull".toList t).map fun (_, t) => (.null, t)
  | 't' :: t => (readWord "rue".toList t).map fun (_, t) => (.bool true, t)
  | 'f' :: t => (readWord "alse".toList t).map fun (_, t) => (.bool false, t)
  | c :: _ =>
    if c = '-' || isDigit c then (readNumber t).map fun (n, t) => (.number n, t)
    else .error .malformed

/-- A value nested at most `depth` deep. -/
def readValue (depth : Nat) (t : Text) : Reading (Value × Text) :=
  match depth, skipSpace t with
  | 0, '[' :: _ => .error .malformed
  | 0, '\x7b' :: _ => .error .malformed
  | depth + 1, '[' :: t => (sequence (readValue depth) t).map fun (xs, t) => (.array xs, t)
  | depth + 1, '\x7b' :: t =>
    let member (ms : List (Text × Value)) (name : Text) (t : Text) : Reading _ := do
      let ((), t) ← readColon t
      let (v, t) ← readValue depth t
      return (ms ++ [(name, v)], t)
    (record member [] t).map fun (ms, t) => (.object ms, t)
  | _, t => readScalar t

/-- What is wrong with the value at the start of a text where one of another shape is wanted. A
value that is neither array nor object is read to its end first. -/
def unexpected (t : Text) : Fault :=
  match skipSpace t with
  | '[' :: _ => .mismatched
  | '\x7b' :: _ => .mismatched
  | t => match readScalar t with
    | .error e => e
    | .ok _ => .mismatched

/-- The value that a whole text is. -/
def Value.parse (t : Text) : Reading Value := do
  let (v, rest) ← readValue maxDepth t
  if atEnd rest then return v else throw .malformed

end MelScript.Json
