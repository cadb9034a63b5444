import MelScript.Command.Hover
import MelScript.Json.Value
import MelScript.Text.Blank

/-! # Settings

  A client configures the server by a JSON value with four groups of one entry
  each:

  - `logging` with `verbose`,
  - `help` with `urlBase`,
  - `reference` with `path`,
  - `performance` with `maxConcurrent`.

  The value and each group may be an object or an array of its entries in this
  order, the last ones of which may be left out. An entry that is left out or
  `null` is unset; the value `null` sets nothing. A value of another shape is
  rejected as a whole.
-/

namespace MelScript

open Json

/-- The settings in force. -/
structure Settings where
  /-- Whether everything is logged. -/
  verbose : Bool := false
  /-- The folder of the online help pages. -/
  helpBase : Text := defaultHelpBase
  /-- The file with the command table, if it is not the bundled one. -/
  tablePath : Option Text := none
  /-- How many outlines may be computed at the same time. -/
  maxConcurrent : Nat := 2
  deriving DecidableEq, Repr

/-- The entries of a client's value. -/
structure SettingsSection where
  /-- The entry `verbose`. -/
  verbose : Option Bool := none
  /-- The entry `urlBase`. -/
  urlBase : Option Text := none
  /-- The entry `path`. -/
  path : Option Text := none
  /-- The entry `maxConcurrent`. -/
  maxConcurrent : Option Nat := none
  deriving DecidableEq, Repr

namespace SettingsSection

/-- The entry of a group, read by `entry` unless it is unset. A missing group is empty. -/
def group? {α : Type} (name : Text) (entry : Value → Option α) : Option Value → Option (Option α)
  | none => some none
  | some group =>
    let entry? : Option Value → Option (Option α)
      | none => some none
      | some .null => some none
      | some v => (entry v).map some
    match group with
    | .object _ => entry? (group.member? name)
    | .array [] => some none
    | .array [v] => entry? (some v)
    | _ => none

/-- The section of the four groups. -/
def ofGroups? (logging help reference performance : Option Value) : Option SettingsSection := do
  let verbose ← group? "verbose".toList Value.bool? logging
  let urlBase ← group? "urlBase".toList Value.text? help
  let path ← group? "path".toList Value.text? reference
  let maxConcurrent ← group? "maxConcurrent".toList Value.nat? performance
  return { verbose, urlBase, path, maxConcurrent }

/-- The section that a value is. -/
def ofJson? : Value → Option SettingsSection
  | .null => some {}
  | .object members =>
    let group (name : Text) : Option Value := (Value.object members).member? name
    ofGroups? (group "logging".toList) (group "help".toList) (group "reference".toList)
      (group "performance".toList)
  | .array items =>
    if items.length ≤ 4 then ofGroups? items[0]? items[1]? items[2]? items[3]? else none
  | _ => none

end SettingsSection

namespace Settings

/-- The settings after a section. A blank help folder, an empty path and a zero count as unset.
What is unset takes its default, except for the number of computations, which stays. -/
def afterSection (s : Settings) (e : SettingsSection) : Settings where
  verbose := e.verbose.getD false
  helpBase := (e.urlBase.filter fun base => !base.allBlank).getD defaultHelpBase
  tablePath := e.path.filter fun path => !path.isEmpty
  maxConcurrent := (e.maxConcurrent.filter fun n => 0 < n).getD s.maxConcurrent

/-- The settings after a client's value, unless it is rejected. -/
def update? (s : Settings) (v : Value) : Option Settings :=
  (SettingsSection.ofJson? v).map s.afterSection

end Settings

end MelScript
