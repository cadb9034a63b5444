import MelScript.Files.Tree
import MelScript.Server.Configure
import MelScript.Server.Handlers
import MelScript.Server.Message

/-! # The service

  The service is the server as the editor sees it: it lives from the handshake
  to the shutdown. Requests before the handshake, a second handshake and all
  requests after the shutdown are refused, and notifications at these times
  are dropped.

  A run of the service is a sequence of events. A message is handled at once; a
  request for an outline may also be started and finished by two events, with
  anything in between. Files, from which command tables are read, may be written
  at any time.

  Requests have numbers. While a request is under way its number is in use, and
  another request with this number is refused.
-/

namespace MelScript

/-- The times in the life of the service. -/
inductive Phase where
  /-- Before the handshake. -/
  | fresh
  /-- Between handshake and shutdown. -/
  | running
  /-- After the shutdown. -/
  | stopped
  deriving DecidableEq, Repr

/-- A request for an outline that is under way. -/
structure Pending where
  /-- The number of the request. -/
  number : Nat
  /-- The document whose outline was asked for. -/
  uri : FileUri
  /-- What was taken from the document. -/
  request : Server.OutlineRequest
  deriving Repr

/-- The state of the service. -/
structure Service where
  /-- The time of its life. -/
  phase : Phase := .fresh
  /-- The server. -/
  server : Server := .initial
  /-- The files that can be read. -/
  files : FileTree := {}
  /-- The requests that are under way. -/
  pending : List Pending := []

/-- Something that happens to the service. -/
inductive Event where
  /-- A message is handled. If it is a request, it has the given number. -/
  | receive (number : Nat) (m : Message)
  /-- A request for an outline is started. -/
  | startOutline (number : Nat) (uri : FileUri)
  /-- The request for an outline that is under way is finished. -/
  | finishOutline (number : Nat)
  /-- A file is written. -/
  | write (path : Text) (contents : Contents)

/-- What an event brings back: an answer, and what the server sent meanwhile. -/
structure Response where
  /-- The answer. -/
  answer : Answer := .nothing
  /-- What was sent, in order. -/
  sent : List Outgoing := []

namespace Service

/-- The notice that the service has started. -/
def startedNotice : Text := "MEL Language Server started".toList

/-- The name of the settings for this server among all settings of a client. -/
def settingsName : Text := "mel".toList

/-! ### Settings -/

/-- Puts a client's value into force. -/
def applySettings (s : Service) (v : Json.Value) : Service × Answer :=
  let (server, applied) := s.server.applySettings s.files.read? v
  ({ s with server }, if applied = .crashed then .failed else .nothing)

/-- Puts the settings of a reply into force, if it has any. -/
def pullSettings (s : Service) (reply : SettingsReply) : Service × Answer :=
  match reply.first? with
  | some v => s.applySettings v
  | none => (s, .nothing)

/-! ### Messages -/

/-- Handles a message between handshake and shutdown. -/
def handle (s : Service) : Message → Service × Response
  | .handshake => (s, { answer := .refused .invalid })
  | .ready reply =>
    let (s, answer) := s.pullSettings reply
    (s, { answer, sent := [.log startedNotice, .askSettings] })
  | .shutdown => ({ s with phase := .stopped }, {})
  | .didOpen uri text version =>
    ({ s with server := s.server.openDocument uri text version }, {})
  | .didChange uri version edits =>
    ({ s with server := s.server.changeDocument uri version edits }, {})
  | .didClose uri => ({ s with server := s.server.closeDocument uri }, {})
  | .didConfigure settings reply =>
    match settings.member? settingsName with
    | some v =>
      let (s, answer) := s.applySettings v
      (s, { answer })
    | none =>
      let (s, answer) := s.pullSettings reply
      (s, { answer, sent := [.askSettings] })
  | .outline uri =>
    let (server, symbols) := s.server.finishOutline uri (s.server.startOutline uri)
    ({ s with server }, { answer := .outline symbols })
  | .hover uri p => (s, { answer := .hover (s.server.hover? uri p) })
  | .complete uri p trigger =>
    let (server, offered) := s.server.complete uri p trigger
    ({ s with server }, { answer := .completions (offered.map Completion.shown) })

/-- The refusal of a message before the handshake or after the shutdown. -/
def refuse (s : Service) (m : Message) (r : Refusal) : Service × Response :=
  (s, { answer := if m.isRequest then .refused r else .nothing })

/-- The request that is under way with a number. -/
def pending? (s : Service) (number : Nat) : Option Pending :=
  s.pending.find? fun p => p.number == number

/-- Whether a number is in use. -/
def inUse (s : Service) (number : Nat) : Bool := (s.pending? number).isSome

/-- The refusal of a request whose number is in use. A shutdown takes place all the same. -/
def refuseNumber (s : Service) (m : Message) : Service × Response :=
  let answer := .refused .invalid
  match m with
  | .shutdown => ({ s with phase := .stopped }, { answer })
  | _ => (s, { answer })

/-- Receives a message. -/
def receive (s : Service) (number : Nat) (m : Message) : Service × Response :=
  match s.phase, m with
  | .fresh, .handshake => ({ s with phase := .running }, { answer := .capabilities })
  | .fresh, m => s.refuse m .notReady
  | .running, m => if m.isRequest && s.inUse number then s.refuseNumber m else s.handle m
  | .stopped, m => s.refuse m .invalid

/-! ### Events -/

/-- Starts a request for an outline. It is under way unless its answer is known at once. -/
def start (s : Service) (number : Nat) (uri : FileUri) : Service × Response :=
  match s.phase with
  | .fresh => (s, { answer := .refused .notReady })
  | .stopped => (s, { answer := .refused .invalid })
  | .running =>
    if s.inUse number then (s, { answer := .refused .invalid })
    else match s.server.startOutline uri with
      | .settled symbols => (s, { answer := .outline symbols })
      | request =>
        ({ s with pending := ⟨number, uri, request⟩ :: s.pending }, { answer := .underWay })

/-- Finishes the request that is under way with a number. -/
def finish (s : Service) (number : Nat) : Service × Response :=
  match s.pending? number with
  | none => (s, {})
  | some p =>
    let (server, symbols) := s.server.finishOutline p.uri p.request
    let pending := s.pending.filter fun q => q.number != number
    ({ s with server, pending }, { answer := .outline symbols })

/-- What an event does. -/
def step (s : Service) : Event → Service × Response
  | .receive number m => s.receive number m
  | .startOutline number uri => s.start number uri
  | .finishOutline number => s.finish number
  | .write path contents => ({ s with files := s.files.write path contents }, {})

/-- What a sequence of events does. -/
def run (s : Service) : List Event → Service × List Response
  | [] => (s, [])
  | e :: es =>
    let (s, r) := s.step e
    let (s, rs) := s.run es
    (s, r :: rs)

end Service

end MelScript
