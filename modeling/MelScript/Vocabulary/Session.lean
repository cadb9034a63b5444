import MelScript.Command.Table
import MelScript.Vocabulary.Index

/-! # Completion sessions

  A session offers the names of a script together with the commands of a
  table. The commands are those of the table with which it was created, and
  their triggers are reserved in its index, so that a name is never offered as
  a command and as a word.
-/

namespace MelScript

/-- Something that completion offers. -/
inductive Completion where
  /-- A command, with its documentation. -/
  | command (record : Command)
  /-- A variable. -/
  | var (name : Text)
  /-- Any other word. -/
  | word (name : Text)
  deriving DecidableEq, Repr

/-- The text that is offered. -/
def Completion.label : Completion → Text
  | .command record => record.trigger
  | .var name => name
  | .word name => name

/-- The completions that an editor can show: those with a label. -/
def Completion.shown (offered : List Completion) : List Completion :=
  offered.filter fun c => !c.label.isEmpty

/-- The completions of a command table: one for each of its records. -/
def CommandTable.completions (table : CommandTable) : List Completion :=
  table.records.map .command

/-- The state of completion for one script. -/
structure Session where
  /-- The names found so far. -/
  index : Index
  /-- The commands that are offered. -/
  commands : List Completion
  deriving DecidableEq, Repr

namespace Session

/-- A session with the commands of a table. -/
def ofTable (table : CommandTable) : Session :=
  ⟨Index.reserving table.triggers, table.completions⟩

/-- Takes the names of a text into the index, and counts what is new. -/
def refresh (s : Session) (t : Text) : Session × Growth :=
  let (index, growth) := s.index.add t
  ({ s with index }, growth)

/-- The variables found so far. -/
def variableCompletions (s : Session) : List Completion := s.index.vars.map .var

/-- Words, then commands, then variables. -/
def generalCompletions (s : Session) : List Completion :=
  s.index.words.map .word ++ s.commands ++ s.variableCompletions

end Session

end MelScript
