import MelScript.Json.Value

/-! # JSON numbers

  A number literal is a sign, digits, perhaps a fraction and perhaps an
  exponent. `Numeral.scan` finds the longest literal at the start of a text.
  A literal is accepted if it is an integer of 64 bits, or if its double is
  finite. The double is found as follows:

  - the digits are taken into a 64-bit significand as long as they fit; later
    digits of the integer part raise the exponent by one each, later digits
    of the fraction are dropped;
  - significand and power of ten are rounded to doubles and multiplied.
-/

namespace MelScript.Json

/-- The value of a decimal digit. -/
def digit (c : Char) : Nat := c.toNat - '0'.toNat

/-- Whether a character is a decimal digit. -/
def isDigit (c : Char) : Bool := '0'.toNat ≤ c.toNat && c.toNat ≤ '9'.toNat

/-- The natural number that a list of digits writes. -/
def ofDigits (ds : Text) : Nat := ds.foldl (fun n d => 10 * n + digit d) 0

/-- A number literal, taken apart. -/
structure Numeral where
  /-- Whether it starts with a minus sign. -/
  negative : Bool
  /-- The digits before the point. -/
  whole : Text
  /-- The digits after the point, if there is a point. -/
  fraction : Option Text
  /-- Whether the exponent is negative, and its digits, if there is one. -/
  exponent : Option (Bool × Text)
  deriving DecidableEq, Repr

namespace Numeral

/-! ### Scanning -/

/-- At least one digit at the start of the text. -/
def digits (t : Text) : Reading (Text × Text) :=
  match t with
  | [] => .error .truncated
  | c :: _ =>
    if isDigit c then .ok (t.takeWhile isDigit, t.dropWhile isDigit) else .error .malformed

/-- The integer part: a zero alone, or digits that start with another one. -/
def scanWhole (t : Text) : Reading (Text × Text) :=
  match t with
  | '0' :: c :: rest => if isDigit c then .error .malformed else .ok (['0'], c :: rest)
  | _ => digits t

/-- The fraction, if a point follows. -/
def scanFraction (t : Text) : Reading (Option Text × Text) :=
  match t with
  | '.' :: rest => (digits rest).map fun (ds, rest) => (some ds, rest)
  | _ => .ok (none, t)

/-- The exponent, if its letter follows. -/
def scanExponent (t : Text) : Reading (Option (Bool × Text) × Text) :=
  let signed (t : Text) : Reading (Option (Bool × Text) × Text) :=
    match t with
    | '-' :: rest => (digits rest).map fun (ds, rest) => (some (true, ds), rest)
    | '+' :: rest => (digits rest).map fun (ds, rest) => (some (false, ds), rest)
    | _ => (digits t).map fun (ds, rest) => (some (false, ds), rest)
  match t with
  | 'e' :: rest => signed rest
  | 'E' :: rest => signed rest
  | _ => .ok (none, t)

/-- The literal at the start of a text. -/
def scan (t : Text) : Reading (Numeral × Text) := do
  let (negative, t) : Bool × Text := match t with
    | '-' :: rest => (true, rest)
    | _ => (false, t)
  let (whole, t) ← scanWhole t
  let (fraction, t) ← scanFraction t
  let (exponent, t) ← scanExponent t
  return (⟨negative, whole, fraction, exponent⟩, t)

/-- The literal written with a small exponent letter and without plus signs. -/
def toText (n : Numeral) : Text :=
  (if n.negative then ['-'] else []) ++ n.whole ++
    (match n.fraction with
      | some ds => '.' :: ds
      | none => []) ++
    (match n.exponent with
      | some (true, ds) => 'e' :: '-' :: ds
      | some (false, ds) => 'e' :: ds
      | none => [])

/-! ### Value -/

/-- The largest significand, of 64 bits. -/
def maxSignificand : Nat := 0xFFFFFFFFFFFFFFFF

/-- The integer that the literal writes, if it has 64 bits. A minus sign before zero makes no
integer. -/
def integer? (n : Numeral) : Option Int :=
  match n.fraction, n.exponent with
  | none, none =>
    let v := ofDigits n.whole
    if n.negative then
      if 0 < v && v ≤ 0x8000000000000000 then some (-(v : Int)) else none
    else
      if v ≤ maxSignificand then some v else none
  | _, _ => none

/-- Takes the digits of the integer part: the significand and the number of digits left over. -/
def takeWhole : Text → Nat → Nat × Nat
  | [], s => (s, 0)
  | d :: ds, s =>
    if 10 * s + digit d ≤ maxSignificand then takeWhole ds (10 * s + digit d)
    else (s, (d :: ds).length)

/-- Takes the digits of the fraction: the significand and the number of digits taken. -/
def takeFraction : Text → Nat → Nat × Nat
  | [], s => (s, 0)
  | d :: ds, s =>
    if 10 * s + digit d ≤ maxSignificand then
      let (s', k) := takeFraction ds (10 * s + digit d)
      (s', k + 1)
    else (s, 0)

/-- The number rounded to 53 binary digits, a half to the even neighbour. -/
def nearestDouble (n : Nat) : Nat :=
  let unit := Nat.pow 2 (n.log2 + 1 - 53)
  let q := n / unit
  let r := n % unit
  let up := unit < 2 * r || (2 * r == unit && q % 2 == 1)
  (if up then q + 1 else q) * unit

/-- The least number that is too large for a double after rounding. -/
def doubleLimit : Nat := Nat.pow 2 1024 - Nat.pow 2 970

/-- Whether the double of the literal is finite. -/
def isFinite (n : Numeral) : Bool :=
  let (s, extra) := takeWhole n.whole 0
  let (s, taken) := takeFraction (n.fraction.getD []) s
  let base : Int := (extra : Int) - taken
  let power : Int := match n.exponent with
    | none => base
    | some (true, ds) => base - ofDigits ds
    | some (false, ds) => base + ofDigits ds
  if s = 0 || power ≤ 0 then true
  else if 308 < power then false
  else nearestDouble s * nearestDouble (Nat.pow 10 power.toNat) < doubleLimit

end Numeral

/-- The number at the start of a text. -/
def readNumber (t : Text) : Reading (Number × Text) := do
  let (n, rest) ← Numeral.scan t
  match n.integer? with
  | some i => return (.integer i, rest)
  | none => if n.isFinite then return (.literal n.toText, rest) else throw .malformed

end MelScript.Json
