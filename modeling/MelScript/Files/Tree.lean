import MelScript.Files.Place

/-! # File trees

  A file tree is what can be read below one folder: files with their places in
  it. A file holds a text, or bytes that are no text.

  A path is followed component by component, and every component but the last
  has to lead to a folder. Outside of the tree there is only one file, the null
  device, which is always empty. When a file is written, the folders on the way
  to it are made, and they stay even if the path leaves them again.
-/

namespace MelScript

/-- What a file holds. -/
inductive Contents where
  /-- A text. -/
  | text (t : Text)
  /-- Bytes that are no text. -/
  | binary
  deriving DecidableEq, Repr

/-- The contents that bytes in UTF-8 are. -/
def Contents.ofBytes (bytes : List UInt8) : Contents :=
  match String.fromUTF8? ⟨bytes.toArray⟩ with
  | some s => .text s.toList
  | none => .binary

/-- Files below one folder. -/
structure FileTree where
  /-- The files, each with the steps that lead to it. -/
  files : List (List Text × Contents) := []
  /-- The folders, each with the steps that lead to it; the outermost one need not be among them. -/
  folders : List (List Text) := []
  deriving DecidableEq, Repr

namespace FileTree

/-- Whether there is a folder at a place. -/
def isFolder (tree : FileTree) : Place → Bool
  | .inside steps => steps.isEmpty || tree.folders.contains steps
  | .above _ => true
  | .outside steps => Place.folders.contains steps

/-- What the file at a place holds. -/
def contentsAt? (tree : FileTree) : Place → Option Contents
  | .inside steps => (tree.files.find? fun f => f.1 == steps).map (·.2)
  | .above _ => none
  | .outside steps => if steps = Place.nullDevice then some (.text []) else none

/-- Where the components lead from a place. -/
def follow (tree : FileTree) : Place → List Text → Option Place
  | place, [] => some place
  | place, component :: rest =>
    if !tree.isFolder place then none
    else do
      let next ← place.advance component
      tree.follow next rest

/-- What the file at a path holds. -/
def contents? (tree : FileTree) (path : Text) : Option Contents :=
  if Path.maxSize < path.utf8Size then none
  else do
    let place ← tree.follow (Place.start path) (path.split '/')
    tree.contentsAt? place

/-- The text of the file at a path. -/
def read? (tree : FileTree) (path : Text) : Option Text :=
  match tree.contents? path with
  | some (.text t) => some t
  | _ => none

/-- The tree with a file that these steps lead to. -/
def put (tree : FileTree) (steps : List Text) (contents : Contents) : FileTree :=
  { tree with files := tree.files.filter (fun f => f.1 != steps) ++ [(steps, contents)] }

/-- The tree with a folder at a place, if that belongs to it. -/
def makeFolder (tree : FileTree) : Place → FileTree
  | .inside steps => { tree with folders := tree.folders ++ [steps] }
  | _ => tree

/-- The tree with a file written at the end of components from a place, and with all folders on the
way to it. Nothing is written outside of the tree. -/
def writeFrom (tree : FileTree) (contents : Contents) : Place → List Text → FileTree
  | .inside steps, [] => tree.put steps contents
  | _, [] => tree
  | place, component :: rest =>
    match place.advance component with
    | none => tree
    | some next => (tree.makeFolder place).writeFrom contents next rest

/-- The tree with a file written at a path. -/
def write (tree : FileTree) (path : Text) (contents : Contents) : FileTree :=
  tree.writeFrom contents (Place.start path) (path.split '/')

end FileTree

end MelScript
