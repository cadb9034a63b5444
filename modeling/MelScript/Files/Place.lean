import MelScript.Files.Path

/-! # Places

  A place is where a path leads in the file system of a machine. The files of a
  tree lie below one folder of it, the *home*, in which relative paths start.
  Little is known of the machine around it:

  - the home lies `depth` folders below the root, and the folders between them
    can be gone through, but nothing in them is known;
  - the root has some folders that are the same everywhere, among them the one
    with the null device, and a link to the home.
-/

namespace MelScript

/-- Where a path leads. -/
inductive Place where
  /-- To the home or below it, by these steps. -/
  | inside (steps : List Text)
  /-- To a folder so many levels above the home, but below the root. -/
  | above (levels : Nat)
  /-- To the root or below it, by these steps. -/
  | outside (steps : List Text)
  deriving DecidableEq, Repr

namespace Place

/-- The number of folders from the home to the root. -/
def depth : Nat := 2

/-- The home. -/
def home : Place := .inside []

/-- The root of the machine. -/
def root : Place := .outside []

/-- Where a path starts. -/
def start (path : Text) : Place := if Path.isAbsolute path then root else home

/-- The folder so many levels above the home. -/
def aboveHome (levels : Nat) : Place := if levels < depth then .above levels else root

/-- The folder above a place. The root is above itself. -/
def parent : Place → Place
  | .inside [] => aboveHome 1
  | .inside steps => .inside steps.dropLast
  | .above levels => aboveHome (levels + 1)
  | .outside steps => .outside steps.dropLast

/-- The steps from the root to the link to the home. -/
def homeLink : List Text := ["proc".toList, "self".toList, "cwd".toList]

/-- The steps from the root to the null device. -/
def nullDevice : List Text := ["dev".toList, "null".toList]

/-- The steps to the folders of the machine that are known. -/
def folders : List (List Text) :=
  [[], ["dev".toList], ["etc".toList], ["proc".toList], ["proc".toList, "self".toList],
    ["tmp".toList], ["usr".toList], ["var".toList]]

/-- What a name leads to from a folder, if that is known. -/
def child? (name : Text) : Place → Option Place
  | .inside steps => some (.inside (steps ++ [name]))
  | .above _ => none
  | .outside steps =>
    if steps ++ [name] = homeLink then some home else some (.outside (steps ++ [name]))

/-- Where a component leads from a folder, if that is known. -/
def advance (place : Place) (component : Text) : Option Place :=
  if !Path.isStep component then some place
  else if component = Path.parent then some place.parent
  else place.child? component

end Place

end MelScript
