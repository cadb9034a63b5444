import MelScript.Proofs.Server.Configuration
import MelScript.Proofs.Server.OutlineCache

/-! # Services that differ in other documents

  Two services are *alike* from the side of a document if they differ in nothing
  but other documents and the requests about them that are under way. So they
  have the same settings, command table, limiter and files, and they know the
  same of the document itself.

  A message about the document is handled alike by both, and so is a message
  about no document (`Service.Alike.handle`): handlers read and write the entry
  of their own document, and what all documents share.
-/

namespace MelScript

/-- The document that a message is about, if it is about one. -/
def Message.subject? : Message → Option FileUri
  | .didOpen uri _ _ | .didChange uri _ _ | .didClose uri => some uri
  | .outline uri | .hover uri _ | .complete uri _ _ => some uri
  | .handshake | .ready _ | .shutdown | .didConfigure _ _ => none

/-! ### Servers -/

namespace Server

/-- Two servers that differ in nothing but documents with other URIs. -/
structure Alike (uri : FileUri) (s s' : Server) : Prop where
  configuration : s.SameConfiguration s'
  document : s'.document? uri = s.document? uri

namespace Alike

variable {uri : FileUri} {s s' : Server}

theorem refl (uri : FileUri) (s : Server) : s.Alike uri s := ⟨.refl s, rfl⟩

theorem putDocument (h : s.Alike uri s') (d : Document) :
    (s.putDocument uri d).Alike uri (s'.putDocument uri d) := by
  refine ⟨⟨h.configuration.table, h.configuration.settings, h.configuration.limiter⟩, ?_⟩
  rw [document?_putDocument, document?_putDocument, if_pos rfl, if_pos rfl]

theorem openDocument (h : s.Alike uri s') (text : Text) (version : Int) :
    (s.openDocument uri text version).Alike uri (s'.openDocument uri text version) := by
  unfold Server.openDocument
  rw [h.configuration.table]
  exact h.putDocument _

theorem changeDocument (h : s.Alike uri s') (version : Int) (edits : List Edit) :
    (s.changeDocument uri version edits).Alike uri (s'.changeDocument uri version edits) := by
  unfold Server.changeDocument
  rw [h.document, h.configuration.table]
  exact h.putDocument _

theorem closeDocument (h : s.Alike uri s') :
    (s.closeDocument uri).Alike uri (s'.closeDocument uri) := by
  refine ⟨⟨h.configuration.table, h.configuration.settings, h.configuration.limiter⟩, ?_⟩
  rw [document?_closeDocument, document?_closeDocument, if_pos rfl, if_pos rfl]

theorem startOutline (h : s.Alike uri s') : s'.startOutline uri = s.startOutline uri := by
  unfold Server.startOutline
  rw [h.document, h.configuration.limiter]

theorem finishOutline (h : s.Alike uri s') (request : OutlineRequest) :
    (s.finishOutline uri request).1.Alike uri (s'.finishOutline uri request).1 ∧
      (s'.finishOutline uri request).2 = (s.finishOutline uri request).2 := by
  cases request with
  | settled answer => exact ⟨h, rfl⟩
  | computing text version revision =>
    refine ⟨?_, rfl⟩
    show (s.keepOutline uri version revision _).Alike uri (s'.keepOutline uri version revision _)
    unfold Server.keepOutline
    rw [h.document]
    cases s.document? uri with
    | none => exact h
    | some d =>
      dsimp only
      split
      · exact h.putDocument _
      · exact h

theorem hover? (h : s.Alike uri s') (p : Position) : s'.hover? uri p = s.hover? uri p := by
  unfold Server.hover?
  rw [h.document, h.configuration.table, h.configuration.settings]

theorem complete (h : s.Alike uri s') (p : Position) (trigger : Option Text) :
    (s.complete uri p trigger).1.Alike uri (s'.complete uri p trigger).1 ∧
      (s'.complete uri p trigger).2 = (s.complete uri p trigger).2 := by
  unfold Server.complete
  rw [h.document]
  cases s.document? uri with
  | none => exact ⟨h, rfl⟩
  | some d => exact ⟨h.putDocument _, rfl⟩

/-- Settings come into force without a look at documents. -/
theorem applySettings (h : s.Alike uri s') (read : Text → Option Text) (v : Json.Value) :
    (s.applySettings read v).1.Alike uri (s'.applySettings read v).1 := by
  have hlimiter : ∀ next, s'.renewLimiter? next = s.renewLimiter? next := by
    intro next
    unfold renewLimiter?
    rw [h.configuration.settings, h.configuration.limiter]
  have hreload : ∀ next, (s.reloadTable read next).Alike uri (s'.reloadTable read next) := by
    intro next
    unfold reloadTable
    rw [h.configuration.settings]
    split
    · exact h
    · exact ⟨⟨rfl, rfl, h.configuration.limiter⟩, h.document⟩
  unfold Server.applySettings
  rw [h.configuration.settings]
  cases s.settings.update? v with
  | none => exact h
  | some next =>
    dsimp only
    rw [hlimiter]
    have htable := (hreload next).configuration.table
    have hdocument := (hreload next).document
    cases s.renewLimiter? next with
    | none => exact ⟨⟨htable, (hreload next).configuration.settings, rfl⟩, hdocument⟩
    | some limiter => exact ⟨⟨htable, rfl, rfl⟩, hdocument⟩

end Alike

end Server

namespace Service

/-- Two services that differ in nothing but other documents and requests about them. -/
structure Alike (uri : FileUri) (s s' : Service) : Prop where
  phase : s'.phase = s.phase
  files : s'.files = s.files
  server : s.server.Alike uri s'.server
  pending : ∀ n, s'.pending? n = (s.pending? n).filter fun p => p.uri == uri

theorem pending?_cons (s : Service) (p : Pending) (n : Nat) :
    ({ s with pending := p :: s.pending } : Service).pending? n =
      if n = p.number then some p else s.pending? n := by
  unfold pending?
  by_cases h : n = p.number
  · simp [h]
  · have h' : (p.number == n) = false := by simpa using fun heq => h heq.symm
    simp [h, h']

namespace Alike

variable {uri : FileUri} {s s' : Service}

/-! ### Requests under way -/

/-- A number is in use on both sides or on none, unless the request crosses another one. -/
theorem inUse (h : s.Alike uri s') {n : Nat}
    (hown : ∀ p, s.pending? n = some p → p.uri = uri) : s'.inUse n = s.inUse n := by
  unfold Service.inUse
  rw [h.pending]
  cases hp : s.pending? n with
  | none => rfl
  | some p => simp [Option.filter_some, hown p hp]

/-- A request about the document gets under way. -/
theorem push (h : s.Alike uri s') (p : Pending) (hp : p.uri = uri) :
    ({ s with pending := p :: s.pending } : Service).Alike uri
      { s' with pending := p :: s'.pending } := by
  refine ⟨h.phase, h.files, h.server, ?_⟩
  intro n
  rw [pending?_cons, pending?_cons]
  split
  · simp [Option.filter_some, hp]
  · exact h.pending n

/-! ### Messages -/

theorem with_server (h : s.Alike uri s') {server server' : Server}
    (hserver : server.Alike uri server') :
    ({ s with server } : Service).Alike uri { s' with server := server' } :=
  ⟨h.phase, h.files, hserver, h.pending⟩

theorem applySettings (h : s.Alike uri s') (v : Json.Value) :
    (s.applySettings v).1.Alike uri (s'.applySettings v).1 := by
  have hserver : (s.server.applySettings s.files.read? v).1.Alike uri
      (s'.server.applySettings s'.files.read? v).1 := by
    rw [h.files]
    exact h.server.applySettings s.files.read? v
  exact h.with_server hserver

theorem pullSettings (h : s.Alike uri s') (reply : SettingsReply) :
    (s.pullSettings reply).1.Alike uri (s'.pullSettings reply).1 := by
  unfold Service.pullSettings
  split
  · exact h.applySettings _
  · exact h

/-- A message about the document, or about none, is handled alike. If it is about the document, the
same comes back. -/
theorem handle (h : s.Alike uri s') {m : Message}
    (hm : ∀ other, m.subject? = some other → other = uri) :
    (s.handle m).1.Alike uri (s'.handle m).1 ∧
      (m.subject? = some uri → (s'.handle m).2 = (s.handle m).2) := by
  cases m with
  | handshake => exact ⟨h, fun hnone => by cases hnone⟩
  | ready reply => exact ⟨h.pullSettings reply, fun hnone => by cases hnone⟩
  | shutdown => exact ⟨⟨rfl, h.files, h.server, h.pending⟩, fun hnone => by cases hnone⟩
  | didConfigure settings reply =>
    refine ⟨?_, fun hnone => by cases hnone⟩
    unfold Service.handle
    dsimp only
    split
    · exact h.applySettings _
    · exact h.pullSettings reply
  | didOpen other text version =>
    obtain rfl := hm other rfl
    exact ⟨h.with_server (h.server.openDocument text version), fun _ => rfl⟩
  | didChange other version edits =>
    obtain rfl := hm other rfl
    exact ⟨h.with_server (h.server.changeDocument version edits), fun _ => rfl⟩
  | didClose other =>
    obtain rfl := hm other rfl
    exact ⟨h.with_server h.server.closeDocument, fun _ => rfl⟩
  | outline other =>
    obtain rfl := hm other rfl
    obtain ⟨hserver, hanswer⟩ := h.server.finishOutline (s.server.startOutline other)
    simp only [Service.handle, h.server.startOutline]
    exact ⟨h.with_server hserver, fun _ => by rw [hanswer]⟩
  | hover other p =>
    obtain rfl := hm other rfl
    refine ⟨h, fun _ => ?_⟩
    simp only [Service.handle, h.server.hover?]
  | complete other p trigger =>
    obtain rfl := hm other rfl
    obtain ⟨hserver, hanswer⟩ := h.server.complete p trigger
    simp only [Service.handle]
    exact ⟨h.with_server hserver, fun _ => by rw [hanswer]⟩

/-- What becomes of a service that turns a message away because of its number. -/
theorem refuseNumber (h : s.Alike uri s') (m : Message) :
    (s.refuseNumber m).1.Alike uri (s'.refuseNumber m).1 ∧
      (s'.refuseNumber m).2 = (s.refuseNumber m).2 := by
  cases m with
  | shutdown => exact ⟨⟨rfl, h.files, h.server, h.pending⟩, rfl⟩
  | _ => exact ⟨h, rfl⟩

end Alike

end Service

end MelScript
