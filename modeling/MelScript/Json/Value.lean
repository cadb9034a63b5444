import MelScript.Text.Basic

/-! # JSON values

  A JSON value as it was written: an object is the list of its members in
  order, repeated names included, and a number is either an integer of 64 bits
  or, with a fraction, an exponent or too many digits, its literal.

  Reading can fail in three ways, `Fault`: the text ends too early, it is no
  JSON, or it is JSON of another shape than the one asked for.
-/

namespace MelScript.Json

/-- A JSON number. -/
inductive Number where
  /-- An integer from `-2^63` to `2^64 - 1` that is written without fraction and exponent. -/
  | integer (value : Int)
  /-- The literal of any other number. -/
  | literal (digits : Text)
  deriving DecidableEq, Repr

/-- A JSON value. -/
inductive Value where
  /-- The value `null`. -/
  | null
  /-- A truth value. -/
  | bool (b : Bool)
  /-- A number. -/
  | number (n : Number)
  /-- A string. -/
  | string (t : Text)
  /-- An array. -/
  | array (items : List Value)
  /-- An object, with its members as they were written. -/
  | object (members : List (Text × Value))
  deriving Repr, Inhabited

/-- Why a text was not read. -/
inductive Fault where
  /-- The text ends too early. -/
  | truncated
  /-- The text is not JSON. -/
  | malformed
  /-- The text is JSON of the wrong shape. -/
  | mismatched
  deriving DecidableEq, Repr

/-- The name of a kind of fault. -/
def Fault.category : Fault → Text
  | .truncated => "eof".toList
  | .malformed => "syntax".toList
  | .mismatched => "data".toList

/-- The outcome of reading. A reader of a part of a text gives back what it read and the text after
it. -/
abbrev Reading := Except Fault

namespace Value

/-- A natural number as a value. -/
def nat (n : Nat) : Value := .number (.integer n)

/-- The value of the last member with a name. -/
def member? (name : Text) : Value → Option Value
  | .object members => (members.reverse.find? fun m => m.1 == name).map (·.2)
  | _ => none

/-- The text of a string. -/
def text? : Value → Option Text
  | .string t => some t
  | _ => none

/-- The value of an integer. -/
def int? : Value → Option Int
  | .number (.integer i) => some i
  | _ => none

/-- The value of an integer that is not negative. -/
def nat? : Value → Option Nat
  | .number (.integer (.ofNat n)) => some n
  | _ => none

/-- The truth value of a boolean. -/
def bool? : Value → Option Bool
  | .bool b => some b
  | _ => none

/-- The items of an array. -/
def items? : Value → Option (List Value)
  | .array items => some items
  | _ => none

end Value

end MelScript.Json
