import MelScript.Command.Bundled
import MelScript.Command.Load
import MelScript.CommandLine.Arguments
import MelScript.Outline.Json
import MelScript.Outline.Listing
import MelScript.Outline.Scanner
import MelScript.Text.Controls
import MelScript.Text.Lines
import MelScript.Vocabulary.Listing
import MelScript.Vocabulary.Session

/-! # The command line program

  The program reads its arguments, does what they ask for and prints the
  result. Its exit code is 0, or 1 if the task failed, or 2 if the arguments
  were refused. Files are read through a given reader.
-/

namespace MelScript.CommandLine

/-- The name and the version of the program. -/
def versionLine : Text := "mel 0.1.0\n".toList

/-! ### Tasks -/

/-- Why a task failed. -/
inductive TaskFault where
  /-- The script cannot be read. -/
  | unreadable (path : Text)
  /-- The command table cannot be loaded. -/
  | table (fault : LoadFault)
  /-- The script does not have the line. -/
  | noLine (path : Text) (line : Nat)
  /-- There is no command at the position. -/
  | noHover (line column : Nat)
  deriving DecidableEq, Repr

/-- The fault in words. -/
def TaskFault.message : TaskFault → Text
  | .unreadable path => "Failed to read file '".toList ++ path ++ ['\'']
  | .table fault => fault.message
  | .noLine path line =>
    "no hover: '".toList ++ path ++ "' has no line ".toList ++ Text.ofNat line
  | .noHover line column =>
    "no hover at ".toList ++ Text.ofNat line ++ ':' :: Text.ofNat column

/-- The text of a script. -/
def readScript (read : Text → Option Text) (path : Text) : Except TaskFault Text :=
  match read path with
  | some t => .ok t
  | none => .error (.unreadable path)

/-- The table at a path, or the bundled one. -/
def loadTable (read : Text → Option Text) : Option Text → Except TaskFault CommandTable
  | none => .ok .bundled
  | some path => (CommandTable.load read path).mapError .table

/-- The text as a line. -/
def line (t : Text) : Text := t ++ ['\n']

/-- The names of an index as JSON. -/
def indexJson (index : Index) : Json.Value :=
  .object
    [("variables".toList, .array ((Index.shown index.vars).map .string)),
      ("words".toList, .array ((Index.shown index.words).map .string))]

/-- Does a task. The result is what is printed. -/
def Task.run (read : Text → Option Text) : Task → Except TaskFault Text
  | .version => return versionLine
  | .outline file json => do
    let script ← readScript read file
    let symbols := Outline.ofText script
    return if json then line (Outline.toJson symbols).pretty else Outline.listing symbols
  | .index file json table => do
    let script ← readScript read file
    let table ← loadTable read table
    let index := ((Session.ofTable table).refresh script).1.index
    return if json then line (indexJson index).pretty else index.listing
  | .hover file lineNumber column table helpBase => do
    let script ← readScript read file
    let table ← loadTable read table
    match script.lines[lineNumber - 1]? with
    | none => throw (.noLine file lineNumber)
    | some text =>
      match table.hover? helpBase (lineNumber - 1) text (column - 1) with
      | none => throw (.noHover lineNumber column)
      | some found => return line found.markdown
  | .commands table => do
    let table ← loadTable read table
    return table.triggers.flatMap line

/-- The paths that a task may read. -/
def Task.paths : Task → List Text
  | .version => []
  | .outline file _ => [file]
  | .index file _ table => file :: table.toList
  | .hover file _ _ table _ => file :: table.toList
  | .commands table => table.toList

/-! ### The program -/

/-- How a slot is called in a message. -/
def Slot.display : Slot → Text
  | .file => "<FILE>".toList
  | .table => "--reference <PATH>".toList
  | .line => "--line <LINE>".toList
  | .column => "--column <COLUMN>".toList
  | .helpBase => "--url-base <URL>".toList
  | .json => "--json".toList
  | .verbose => "--verbose".toList

/-- The fault in words, as far as they are part of this library. Of a value, the part that a
terminal shows is given. -/
def UsageFault.message? : UsageFault → Option Text
  | .parentFolder value slot => some <|
    "invalid value '".toList ++ value.shown ++ "' for '".toList ++ slot.display ++
      "': Parent directory components ('..') are not allowed in file paths.".toList
  | .other => none

/-- What a run of the program leaves. -/
structure Outcome where
  /-- The exit code. -/
  exit : Nat
  /-- What was printed. -/
  output : Text := []
  /-- What was printed as an error. -/
  error : Option Text := none
  deriving DecidableEq, Repr

/-- Runs the program. -/
def run (read : Text → Option Text) (args : List Text) : Outcome :=
  match readArguments false args with
  | .error fault =>
    { exit := 2, error := fault.message?.map fun m => "error: ".toList ++ m }
  | .ok task => match task.run read with
    | .error fault => { exit := 1, error := some ("Error: ".toList ++ fault.message) }
    | .ok output => { exit := 0, output }

end MelScript.CommandLine
