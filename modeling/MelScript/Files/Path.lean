import MelScript.Text.Basic

/-! # Paths

  A path is a text whose components are divided by slashes. Empty components and
  the component `.` mean nothing, except for a slash or a `.` at the start. Two
  paths with the same `components` are the same path.
-/

namespace MelScript.Path

/-- Whether the path does not depend on a folder. -/
def isAbsolute (path : Text) : Bool := path.head? == some '/'

/-- The number of bytes of the longest path that can be followed. -/
def maxSize : Nat := 4095

/-- Whether a component means a step. -/
def isStep (component : Text) : Bool := !(component.isEmpty || component == ['.'])

/-- The components that mean a step. -/
def steps (path : Text) : List Text := (path.split '/').filter isStep

/-- The steps, and before them the slash or the `.` at the start of the path. -/
def components (path : Text) : List Text :=
  let root : List Text :=
    if isAbsolute path then [['/']]
    else if (path.split '/').head? == some ['.'] then [['.']]
    else []
  root ++ steps path

/-- The component that leads to the folder above. -/
def parent : Text := "..".toList

/-- Whether the path goes through a folder above. -/
def usesParent (path : Text) : Bool := (path.split '/').contains parent

end MelScript.Path
