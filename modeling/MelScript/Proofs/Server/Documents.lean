import MelScript.Server.Service

/-! # What events do to documents

  The parts of the service that an event leaves alone are told by one equation
  for each kind of event (`receive_frame`, `start_frame`, `finish_frame`).

  The documents are in the part that changes. Every event is looked at once,
  from the side of a single document:

  - `Service.Touch` lists what an event can make of the document with a URI;
  - `Service.step_touch` shows that nothing else can happen to it;
  - `Service.after` is the service after a run from the start. What a run keeps
    true of a document follows from `step_touch` by induction on the run.
-/

namespace MelScript

/-! ### Handlers -/

namespace Server

theorem document?_putDocument (s : Server) (uri other : FileUri) (d : Document) :
    (s.putDocument uri d).document? other =
      if other = uri then some d else s.document? other :=
  s.documents.get?_insert uri other d

theorem document?_closeDocument (s : Server) (uri other : FileUri) :
    (s.closeDocument uri).document? other = if other = uri then none else s.document? other :=
  s.documents.get?_erase uri other

/-- Settings leave the documents alone, whether or not they come into force. -/
theorem documents_applySettings (read : Text → Option Text) (s : Server) (v : Json.Value) :
    (s.applySettings read v).1.documents = s.documents := by
  have hreload : ∀ next, (s.reloadTable read next).documents = s.documents := by
    intro next
    unfold reloadTable
    split <;> rfl
  unfold applySettings
  split
  · rfl
  · next next _ =>
    dsimp only
    split <;> exact hreload next

end Server

namespace Service

theorem documents_applySettings (s : Service) (v : Json.Value) :
    (s.applySettings v).1.server.documents = s.server.documents :=
  Server.documents_applySettings s.files.read? s.server v

theorem documents_pullSettings (s : Service) (reply : SettingsReply) :
    (s.pullSettings reply).1.server.documents = s.server.documents := by
  unfold pullSettings
  split
  · exact s.documents_applySettings _
  · rfl

/-! ### What events leave alone -/

theorem pullSettings_frame (s : Service) (reply : SettingsReply) :
    (s.pullSettings reply).1 = { s with server := (s.pullSettings reply).1.server } := by
  unfold pullSettings
  split <;> rfl

/-- A message that is handled changes nothing but the server, unless it is the shutdown. -/
theorem handle_frame (s : Service) {m : Message} (hm : m ≠ .shutdown) :
    (s.handle m).1 = { s with server := (s.handle m).1.server } := by
  cases m with
  | shutdown => exact absurd rfl hm
  | ready reply => exact s.pullSettings_frame reply
  | didConfigure settings reply =>
    -- The settings are in the message itself or else in the reply; both go to the server alone.
    unfold handle
    dsimp only
    split
    · rfl
    · exact s.pullSettings_frame reply
  | _ => rfl

/-- A message changes nothing but the phase and the server, whether it is handled or not. -/
theorem receive_frame (s : Service) (n : Nat) (m : Message) :
    (s.receive n m).1 =
      { s with phase := (s.receive n m).1.phase, server := (s.receive n m).1.server } := by
  have hhandle : ∀ m, (s.handle m).1 =
      { s with phase := (s.handle m).1.phase, server := (s.handle m).1.server } := by
    intro m
    by_cases hm : m = .shutdown
    · rw [hm]
      rfl
    · rw [s.handle_frame hm]
  unfold receive
  split
  · rfl
  · rfl
  · split
    · -- A request with a number in use is refused, but a shutdown still sets the phase.
      unfold refuseNumber
      split <;> rfl
    · exact hhandle _
  · rfl

/-- The start of a request changes nothing but the requests under way. -/
theorem start_frame (s : Service) (n : Nat) (uri : FileUri) :
    (s.start n uri).1 = { s with pending := (s.start n uri).1.pending } := by
  unfold start
  split
  · rfl
  · rfl
  · split
    · rfl
    · split <;> rfl

/-- The end of a request changes nothing but the server and the requests under way. -/
theorem finish_frame (s : Service) (n : Nat) :
    (s.finish n).1 =
      { s with server := (s.finish n).1.server, pending := (s.finish n).1.pending } := by
  unfold finish
  split <;> rfl

/-! ### One event -/

/-- What an event can make of the document with a URI. -/
inductive Touch (s : Service) (uri : FileUri) : Event → Option Document → Prop where
  /-- The document stays as it is, or stays away. -/
  | untouched {e : Event} : Touch s uri e (s.server.document? uri)
  /-- It is opened, in place of one that was open. -/
  | opened {n : Nat} {text : Text} {version : Int} :
      Touch s uri (.receive n (.didOpen uri text version))
        (some (.fresh text version s.server.table))
  /-- It is changed, and created before that if it was not open. -/
  | changed {n : Nat} {version : Int} {edits : List Edit} :
      Touch s uri (.receive n (.didChange uri version edits))
        (some (((s.server.document? uri).getD (.fresh [] version s.server.table)).change
          version edits))
  /-- It is closed. -/
  | closed {n : Nat} : Touch s uri (.receive n (.didClose uri)) none
  /-- Its text is taken into the index. -/
  | indexed {n : Nat} {p : Position} {trigger : Option Text} {d : Document}
      (isOpen : s.server.document? uri = some d) :
      Touch s uri (.receive n (.complete uri p trigger)) (some d.refreshIndex)
  /-- Its outline is computed at once and kept. -/
  | computed {n : Nat} {d : Document} (isOpen : s.server.document? uri = some d) :
      Touch s uri (.receive n (.outline uri))
        (some { d with outline := some (Document.computeOutline d.text) })
  /-- An outline that was under way is kept, since version and revision agree. -/
  | kept {n : Nat} {p : Pending} {d : Document} {text : Text}
      (pending : s.pending? n = some p) (concerned : p.uri = uri)
      (request : p.request = .computing text d.version d.revision)
      (isOpen : s.server.document? uri = some d) :
      Touch s uri (.finishOutline n)
        (some { d with outline := some (Document.computeOutline text) })

/-- Whatever leaves the documents alone leaves the document alone. -/
theorem Touch.of_documents_eq {s s' : Service} (h : s'.server.documents = s.server.documents)
    (uri : FileUri) (e : Event) : s.Touch uri e (s'.server.document? uri) := by
  have hdoc : s'.server.document? uri = s.server.document? uri := by
    unfold Server.document?
    rw [h]
  rw [hdoc]
  exact .untouched

/-- A document that is put back under its URI is touched; the others are not. -/
theorem Touch.of_putDocument {s : Service} {uri other : FileUri} {e : Event} {d : Document}
    (h : other = uri → s.Touch other e (some d)) :
    s.Touch other e ((s.server.putDocument uri d).document? other) := by
  rw [Server.document?_putDocument]
  split
  · next heq => exact h heq
  · exact .untouched

theorem touch_keepOutline {s : Service} {uri other : FileUri} {e : Event} {version : Int}
    {revision : Nat} {symbols : List Symbol}
    (h : ∀ d, other = uri → s.server.document? uri = some d → d.version = version →
      d.revision = revision → s.Touch other e (some { d with outline := some symbols })) :
    s.Touch other e ((s.server.keepOutline uri version revision symbols).document? other) := by
  unfold Server.keepOutline
  split
  · exact .untouched
  · next d hd =>
    split
    · next hsame => exact .of_putDocument fun heq => h d heq hd hsame.1 hsame.2
    · exact .untouched

/-- A request for an outline that is answered at once computes it, or finds it known. -/
theorem touch_outline (s : Service) (n : Nat) (uri other : FileUri) :
    s.Touch other (.receive n (.outline uri))
      ((s.server.finishOutline uri (s.server.startOutline uri)).1.document? other) := by
  unfold Server.startOutline
  split
  · exact .untouched
  · next d hd =>
    split
    · exact .untouched
    · exact .untouched
    · -- Nothing has come between start and end: the document is still the one that was taken.
      refine touch_keepOutline fun d' heq hd' _ _ => ?_
      subst heq
      rw [hd] at hd'
      cases hd'
      exact .computed hd

theorem touch_complete (s : Service) (n : Nat) (uri other : FileUri) (p : Position)
    (trigger : Option Text) :
    s.Touch other (.receive n (.complete uri p trigger))
      ((s.server.complete uri p trigger).1.document? other) := by
  unfold Server.complete
  split
  · exact .untouched
  · next d hd =>
    refine .of_putDocument fun heq => ?_
    subst heq
    exact .indexed hd

theorem touch_handle (s : Service) (n : Nat) (m : Message) (other : FileUri) :
    s.Touch other (.receive n m) ((s.handle m).1.server.document? other) := by
  cases m with
  | handshake => exact .untouched
  | ready reply => exact .of_documents_eq (s.documents_pullSettings reply) other _
  | shutdown => exact .untouched
  | didOpen uri text version => exact .of_putDocument fun heq => heq ▸ .opened
  | didChange uri version edits => exact .of_putDocument fun heq => heq ▸ .changed
  | didClose uri =>
    show s.Touch other _ ((s.server.closeDocument uri).document? other)
    rw [Server.document?_closeDocument]
    split
    · next heq => exact heq ▸ .closed
    · exact .untouched
  | didConfigure settings reply =>
    unfold handle
    dsimp only
    split
    · next v _ => exact .of_documents_eq (s.documents_applySettings v) other _
    · exact .of_documents_eq (s.documents_pullSettings reply) other _
  | outline uri => exact s.touch_outline n uri other
  | hover uri p => exact .untouched
  | complete uri p trigger => exact s.touch_complete n uri other p trigger

theorem touch_receive (s : Service) (n : Nat) (m : Message) (other : FileUri) :
    s.Touch other (.receive n m) ((s.receive n m).1.server.document? other) := by
  unfold receive
  split
  · exact .untouched
  · exact .untouched
  · -- Only here, between handshake and shutdown, are messages handled.
    split
    · unfold refuseNumber
      split <;> exact .untouched
    · exact s.touch_handle n _ other
  · exact .untouched

theorem touch_finish (s : Service) (n : Nat) (other : FileUri) :
    s.Touch other (.finishOutline n) ((s.finish n).1.server.document? other) := by
  unfold finish
  split
  · exact .untouched
  · next p hp =>
    cases hreq : p.request with
    | settled answer => exact .untouched
    | computing text version revision =>
      -- The document is looked up now; it need not be the one that was open at the start.
      refine touch_keepOutline fun d heq hd hv hr => ?_
      subst heq
      exact .kept hp rfl (by rw [hreq, hv, hr]) hd

/-- An event makes of a document one of the things that `Touch` lists. -/
theorem step_touch (s : Service) (e : Event) (uri : FileUri) :
    s.Touch uri e ((s.step e).1.server.document? uri) := by
  cases e with
  | receive n m => exact s.touch_receive n m uri
  | startOutline n other =>
    -- A start takes a copy of a document and changes none.
    show s.Touch uri _ ((s.start n other).1.server.document? uri)
    rw [start_frame]
    exact .untouched
  | finishOutline n => exact s.touch_finish n uri
  | write path contents => exact .untouched

/-! ### Runs -/

/-- The service after a run of events from the start, when some files can be read. -/
def after (files : FileTree) (es : List Event) : Service := (({ files } : Service).run es).1

theorem run_append_fst (s : Service) (es es' : List Event) :
    (s.run (es ++ es')).1 = ((s.run es).1.run es').1 := by
  induction es generalizing s with
  | nil => rfl
  | cons e es ih => exact ih (s.step e).1

theorem after_append (files : FileTree) (es es' : List Event) :
    after files (es ++ es') = ((after files es).run es').1 :=
  run_append_fst _ es es'

/-- A run that is one event longer takes one step more. -/
theorem after_concat (files : FileTree) (es : List Event) (e : Event) :
    after files (es ++ [e]) = ((after files es).step e).1 :=
  after_append files es [e]

end Service

end MelScript
