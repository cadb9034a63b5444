import MelScript.Command.Hover
import MelScript.Document.Buffer
import MelScript.Files.Uri
import MelScript.Json.Value
import MelScript.Outline.Symbol
import MelScript.Vocabulary.Session

/-! # Messages

  What an editor sends to the server, what it gets as an answer, and what the
  server sends on its own. A *request* always has an answer; any other message
  is a notification.
-/

namespace MelScript

/-- The client's reply when the server asks for its settings. -/
inductive SettingsReply where
  /-- The client could not tell. -/
  | failed
  /-- The client's result, of any shape. -/
  | result (v : Json.Value)

/-- The settings in a reply: the first item of an array. -/
def SettingsReply.first? : SettingsReply → Option Json.Value
  | .result (.array (v :: _)) => some v
  | _ => none

/-- A message from the editor. Where the server asks for settings while it handles the message, the
client's reply comes with it. -/
inductive Message where
  /-- The request that starts everything. -/
  | handshake
  /-- The notification that the client is ready. -/
  | ready (reply : SettingsReply)
  /-- The request that ends everything. -/
  | shutdown
  /-- A document was opened. -/
  | didOpen (uri : FileUri) (text : Text) (version : Int)
  /-- A document was changed. -/
  | didChange (uri : FileUri) (version : Int) (edits : List Edit)
  /-- A document was closed. -/
  | didClose (uri : FileUri)
  /-- The settings have changed. -/
  | didConfigure (settings : Json.Value) (reply : SettingsReply)
  /-- The outline of a document is asked for. -/
  | outline (uri : FileUri)
  /-- The help at a position is asked for. -/
  | hover (uri : FileUri) (p : Position)
  /-- Completions at a position are asked for, perhaps after a trigger character. -/
  | complete (uri : FileUri) (p : Position) (trigger : Option Text)

/-- Whether a message has to be answered. -/
def Message.isRequest : Message → Bool
  | .handshake | .shutdown | .outline _ | .hover _ _ | .complete _ _ _ => true
  | _ => false

/-- Why a request was refused. -/
inductive Refusal where
  /-- It came before the handshake. -/
  | notReady
  /-- It was a second handshake, it came after the shutdown, or its number was in use. -/
  | invalid
  deriving DecidableEq, Repr

/-- The number of a refusal. -/
def Refusal.code : Refusal → Int
  | .notReady => -32002
  | .invalid => -32600

/-- What comes back for a message. -/
inductive Answer where
  /-- Nothing. -/
  | nothing
  /-- Nothing yet: the request is under way. -/
  | underWay
  /-- What the server can do. -/
  | capabilities
  /-- An outline. -/
  | outline (symbols : Option (List Symbol))
  /-- A hover. -/
  | hover (h : Option Hover)
  /-- Completions, all of which can be shown. -/
  | completions (offered : Option (List Completion))
  /-- The request was refused. -/
  | refused (r : Refusal)
  /-- The server failed while it handled the message. -/
  | failed

/-- A message that the server sends on its own. -/
inductive Outgoing where
  /-- Something to be shown in the editor's log. -/
  | log (text : Text)
  /-- The question for the settings. -/
  | askSettings
  deriving DecidableEq, Repr

end MelScript
