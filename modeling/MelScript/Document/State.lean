import MelScript.Document.Buffer
import MelScript.Outline.Scanner
import MelScript.Vocabulary.Session

/-! # Open documents

  What the server knows of an open document: its text, the version that the
  editor gave it, the number of changes since it was opened, its outline if it
  was computed for the present text, and its completion session.
-/

namespace MelScript

/-- An open document. -/
structure Document where
  /-- The text. -/
  text : Text
  /-- The version given by the editor. -/
  version : Int
  /-- The number of changes since it was opened. -/
  revision : Nat := 0
  /-- The outline, if it is known. -/
  outline : Option (List Symbol) := none
  /-- The completion session. -/
  session : Session
  /-- The text that the session's index has taken last. -/
  indexed : Option Text := none
  deriving Repr

namespace Document

/-- A document that was just opened, with the commands of a table. -/
def fresh (text : Text) (version : Int) (table : CommandTable) : Document where
  text := text
  version := version
  session := Session.ofTable table

/-- The outline of the document's text. -/
def computeOutline (text : Text) : List Symbol := Outline.ofLines text.pieces

/-- The document after a change: edits are made in order, and the outline is no longer known. -/
def change (d : Document) (version : Int) (edits : List Edit) : Document :=
  { d with
    text := edits.foldl Text.edit d.text
    version
    revision := d.revision + 1
    outline := none }

/-- The document with its present text in the index. A text that was the last one taken is not taken
again. -/
def refreshIndex (d : Document) : Document :=
  if d.indexed = some d.text then d
  else { d with session := (d.session.refresh d.text).1, indexed := some d.text }

/-- What completion offers at a position: variables only after the character `$` or while a variable
is being typed. -/
def complete (d : Document) (p : Position) (trigger : Option Text) :
    Document × List Completion :=
  let variablesOnly := trigger == some ['$'] || d.text.typingVariable p
  let d := d.refreshIndex
  (d, if variablesOnly then d.session.variableCompletions else d.session.generalCompletions)

end Document

end MelScript
