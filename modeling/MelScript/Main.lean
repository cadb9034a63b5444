import MelScript.CommandLine.Run

/-! # The program `mel`

  Reads the files that the arguments name, runs the program on them and prints
  what it leaves.
-/

open MelScript

/-- The text of the file at a path, if there is one. -/
def readScriptFile (path : Text) : IO (Option Text) := do
  try
    let s ← IO.FS.readFile (String.ofList path)
    return some s.toList
  catch _ => return none

/-- Runs the program with the given arguments. -/
def main (args : List String) : IO UInt32 := do
  let args := args.map String.toList
  let paths := match CommandLine.readArguments false args with
    | .ok task => task.paths
    | .error _ => []
  let files ← paths.mapM fun path => return (path, ← readScriptFile path)
  let read (path : Text) : Option Text := (files.find? fun f => f.1 == path).bind (·.2)
  let outcome := CommandLine.run read args
  IO.print (String.ofList outcome.output)
  if outcome.exit ≠ 0 then
    IO.eprintln (String.ofList (outcome.error.getD "error: invalid arguments".toList))
  return outcome.exit.toUInt32
