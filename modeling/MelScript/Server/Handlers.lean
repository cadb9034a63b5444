import MelScript.Command.Hover
import MelScript.Server.State

/-! # Handling documents

  What the server does with its documents when the editor opens, changes and
  closes them and asks for outlines, hovers and completions.

  An outline is asked for in two steps, since other messages may be handled
  while it is being computed. At the start the server takes what it needs from
  the document: a known outline is the answer already, and otherwise the text is
  taken together with the document's version and revision. At the end the
  outline of that text is the answer. It is also kept in the document, if that
  is open with the same version and revision.
-/

namespace MelScript.Server

/-! ### Opening, changing, closing -/

/-- Opens a document, in place of one with the same URI. -/
def openDocument (s : Server) (uri : FileUri) (text : Text) (version : Int) : Server :=
  s.putDocument uri (.fresh text version s.table)

/-- Changes a document. One that is not open is opened empty. -/
def changeDocument (s : Server) (uri : FileUri) (version : Int) (edits : List Edit) : Server :=
  let d := (s.document? uri).getD (.fresh [] version s.table)
  s.putDocument uri (d.change version edits)

/-- Closes a document. -/
def closeDocument (s : Server) (uri : FileUri) : Server :=
  { s with documents := s.documents.erase uri }

/-! ### Outlines -/

/-- An outline that was asked for. -/
inductive OutlineRequest where
  /-- The answer is known, or it is known that there is none. -/
  | settled (answer : Option (List Symbol))
  /-- The outline of a text is being computed for a version and revision of a document. -/
  | computing (text : Text) (version : Int) (revision : Nat)
  deriving Repr

/-- The start of a request for an outline. A broken limiter leaves it without an answer. -/
def startOutline (s : Server) (uri : FileUri) : OutlineRequest :=
  match s.document? uri with
  | none => .settled none
  | some d => match d.outline, s.limiter with
    | some symbols, _ => .settled (some symbols)
    | none, .broken => .settled none
    | none, .permits _ => .computing d.text d.version d.revision

/-- Keeps an outline in a document, if that has the given version and revision. -/
def keepOutline (s : Server) (uri : FileUri) (version : Int) (revision : Nat)
    (symbols : List Symbol) : Server :=
  match s.document? uri with
  | none => s
  | some d =>
    if d.version = version ∧ d.revision = revision then
      s.putDocument uri { d with outline := some symbols }
    else s

/-- The end of a request for an outline, and its answer. -/
def finishOutline (s : Server) (uri : FileUri) : OutlineRequest → Server × Option (List Symbol)
  | .settled answer => (s, answer)
  | .computing text version revision =>
    let symbols := Document.computeOutline text
    (s.keepOutline uri version revision symbols, some symbols)

/-! ### Hovers and completions -/

/-- The help for the word at a position of a document. -/
def hover? (s : Server) (uri : FileUri) (p : Position) : Option Hover := do
  let d ← s.document? uri
  let row ← d.text.row? p.line
  s.table.hover? s.settings.helpBase p.line row p.column

/-- What completion offers at a position of a document. -/
def complete (s : Server) (uri : FileUri) (p : Position) (trigger : Option Text) :
    Server × Option (List Completion) :=
  match s.document? uri with
  | none => (s, none)
  | some d =>
    let (d, offered) := d.complete p trigger
    (s.putDocument uri d, some offered)

end MelScript.Server
