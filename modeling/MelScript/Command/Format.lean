import MelScript.Command.Table
import MelScript.Json.Reader
import MelScript.Text.Blank

/-! # Command tables as JSON

  A table is written as an array of records, or as an object whose member
  `completions` is such an array. A record is an object with a string
  `trigger` and perhaps a string `comment`, or an array of one or two strings in
  this order. Further members are ignored, but none of the three may be
  repeated. A text with nothing but white space is the empty table.
-/

namespace MelScript.CommandTable

open Json

/-- The value of the only member with a name: `none` inside when there is no such member. Repeating
it is a fault. -/
def only? (name : Text) (members : List (Text × Value)) : Option (Option Value) :=
  match members.filter fun m => m.1 == name with
  | [] => some none
  | [(_, v)] => some (some v)
  | _ => none

/-- The record that a value is. -/
def record? : Value → Option Command
  | .object members => do
    let trigger ← only? "trigger".toList members
    let comment ← only? "comment".toList members
    match trigger, comment with
    | some (.string trigger), none => some ⟨trigger, []⟩
    | some (.string trigger), some (.string comment) => some ⟨trigger, comment⟩
    | _, _ => none
  | .array [.string trigger] => some ⟨trigger, []⟩
  | .array [.string trigger, .string comment] => some ⟨trigger, comment⟩
  | _ => none

/-- The records that a value lists. -/
def records? : Value → Option (List Command)
  | .array items => items.mapM record?
  | _ => none

/-- The table that a value is. -/
def ofJson? : Value → Option CommandTable
  | .object members => do
    let completions ← only? "completions".toList members
    let records ← completions.bind records?
    some ⟨records⟩
  | v => (records? v).map fun records => ⟨records⟩

/-- The table that a text is. Text after the table is looked for last. -/
def parse (t : Text) : Reading CommandTable :=
  if t.allBlank then .ok .empty
  else do
    let (v, rest) ← readValue maxDepth t
    match ofJson? v with
    | none => throw .mismatched
    | some table => if atEnd rest then return table else throw .malformed

end MelScript.CommandTable
