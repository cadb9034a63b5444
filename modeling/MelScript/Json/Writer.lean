import MelScript.Json.String

/-! # Writing JSON

  Two layouts: `compact` puts nothing between the parts of a value, `pretty`
  starts a new line for every item and member, indented by two spaces for each
  array and object around it. An empty array or object stays on its line.
-/

namespace MelScript.Json

/-- A number as it is written. -/
def Number.toText : Number → Text
  | .integer (.ofNat n) => Text.ofNat n
  | .integer (.negSucc n) => '-' :: Text.ofNat (n + 1)
  | .literal ds => ds

/-- A line break and the indentation of the given depth. -/
def newline (depth : Nat) : Text := '\n' :: List.replicate (2 * depth) ' '

/-- Opening and closing marks around parts that are not empty. -/
def between (opening closing : Char) (depth : Nat) (body : Text) : Text :=
  opening :: (newline (depth + 1) ++ body ++ newline depth ++ [closing])

mutual

/-- A value without any white space between its parts. -/
def Value.compact : Value → Text
  | .null => "null".toList
  | .bool true => "true".toList
  | .bool false => "false".toList
  | .number n => n.toText
  | .string t => quote t
  | .array items => '[' :: (compactItems items ++ [']'])
  | .object members => '\x7b' :: (compactMembers members ++ ['\x7d'])

/-- Items, with commas between them. -/
def compactItems : List Value → Text
  | [] => []
  | [v] => v.compact
  | v :: w :: vs => v.compact ++ ',' :: compactItems (w :: vs)

/-- Members, with commas between them. -/
def compactMembers : List (Text × Value) → Text
  | [] => []
  | [(name, v)] => quote name ++ ':' :: v.compact
  | (name, v) :: m :: ms => quote name ++ ':' :: (v.compact ++ ',' :: compactMembers (m :: ms))

end

mutual

/-- A value laid out over several lines, inside `depth` arrays and objects. -/
def Value.prettyAt (depth : Nat) : Value → Text
  | .null => "null".toList
  | .bool true => "true".toList
  | .bool false => "false".toList
  | .number n => n.toText
  | .string t => quote t
  | .array [] => "[]".toList
  | .array (v :: vs) => between '[' ']' depth (prettyItems (depth + 1) (v :: vs))
  | .object [] => ['\x7b', '\x7d']
  | .object (m :: ms) => between '\x7b' '\x7d' depth (prettyMembers (depth + 1) (m :: ms))

/-- Items, each on lines of its own. -/
def prettyItems (depth : Nat) : List Value → Text
  | [] => []
  | [v] => v.prettyAt depth
  | v :: w :: vs => v.prettyAt depth ++ ',' :: (newline depth ++ prettyItems depth (w :: vs))

/-- Members, each on lines of its own. -/
def prettyMembers (depth : Nat) : List (Text × Value) → Text
  | [] => []
  | [(name, v)] => quote name ++ ':' :: ' ' :: v.prettyAt depth
  | (name, v) :: m :: ms =>
    quote name ++ ':' :: ' ' ::
      (v.prettyAt depth ++ ',' :: (newline depth ++ prettyMembers depth (m :: ms)))

end

/-- A value laid out over several lines. -/
def Value.pretty (v : Value) : Text := v.prettyAt 0

end MelScript.Json
