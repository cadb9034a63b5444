import MelScript.Command.Format

/-! # Command tables in files

  A table is loaded through a reader of files, which gives the text at a path or
  nothing.
-/

namespace MelScript

/-- Why a table was not loaded. -/
inductive LoadFault where
  /-- There is no text to read at the path. -/
  | unreadable (path : Text)
  /-- The text at the path is no table. -/
  | invalid (path : Text)
  deriving DecidableEq, Repr

/-- The fault in words. -/
def LoadFault.message : LoadFault → Text
  | .unreadable path => "Failed to read command table '".toList ++ path ++ ['\'']
  | .invalid path => "Failed to load command table '".toList ++ path ++ ['\'']

namespace CommandTable

/-- What is said of a text that is no table. -/
def invalidMessage : Text := "invalid command table".toList

/-- The table in the file at a path. -/
def load (read : Text → Option Text) (path : Text) : Except LoadFault CommandTable :=
  match read path with
  | none => .error (.unreadable path)
  | some t => match parse t with
    | .ok table => .ok table
    | .error _ => .error (.invalid path)

end CommandTable

end MelScript
