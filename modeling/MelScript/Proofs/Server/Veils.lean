import MelScript.Server.Service

/-! # What only completion can see

  The session of a document and its memory of the text that was taken last are
  there for completion. A *veil* hides some of this in the documents, and leaves
  everything else as it is.

  - `Veil` has the laws that say so. There are two veils: one hides the memory of
    every document (`Veil.memory`), the other one hides all that completion knows
    of any document but one (`Veil.others`).
  - Every handler but completion does the same behind a veil, and so does a step
    of the service that is not a completion request (`Service.step_veil`): the
    answers are the same, and the states too if the veil is put over them again.
-/

namespace MelScript

/-- A way to hide what only completion can see. It may depend on the URI of the document. -/
structure Veil where
  /-- The document behind the veil. -/
  hide : FileUri → Document → Document
  /-- A second veil hides nothing more. -/
  hide_hide : ∀ uri d, hide uri (hide uri d) = hide uri d
  text : ∀ uri d, (hide uri d).text = d.text
  version : ∀ uri d, (hide uri d).version = d.version
  revision : ∀ uri d, (hide uri d).revision = d.revision
  outline : ∀ uri d, (hide uri d).outline = d.outline
  change : ∀ uri d version edits,
    (hide uri d).change version edits = hide uri (d.change version edits)
  outlined : ∀ uri d symbols,
    { hide uri d with outline := some symbols } = hide uri { d with outline := some symbols }

namespace Veil

/-- Hides which text a document has taken last. -/
def memory : Veil where
  hide _ d := { d with indexed := none }
  hide_hide _ _ := rfl
  text _ _ := rfl
  version _ _ := rfl
  revision _ _ := rfl
  outline _ _ := rfl
  change _ _ _ _ := rfl
  outlined _ _ _ := rfl

/-- Hides all that completion knows of documents with another URI. -/
def others (uri : FileUri) : Veil where
  hide other d := if other = uri then d else { d with session := ⟨{}, []⟩, indexed := none }
  hide_hide other d := by split <;> rfl
  text other d := by split <;> rfl
  version other d := by split <;> rfl
  revision other d := by split <;> rfl
  outline other d := by split <;> rfl
  change other d version edits := by split <;> rfl
  outlined other d symbols := by split <;> rfl

theorem hide_others_self (uri : FileUri) (d : Document) : (others uri).hide uri d = d :=
  if_pos rfl

theorem hide_others_of_ne {uri other : FileUri} (h : other ≠ uri) (d : Document) :
    (others uri).hide other d = { d with session := ⟨{}, []⟩, indexed := none } :=
  if_neg h

end Veil

/-! ### Documents by URI -/

namespace Documents

/-- The documents behind a veil. -/
def veil (v : Veil) (ds : Documents) : Documents :=
  ⟨ds.entries.map fun e => (e.1, v.hide e.1 e.2)⟩

theorem get?_veil (v : Veil) (ds : Documents) (uri : FileUri) :
    (ds.veil v).get? uri = (ds.get? uri).map (v.hide uri) := by
  unfold get? veil
  rw [List.find?_map]
  show ((ds.entries.find? fun e => e.1 == uri).map _).map _ = _
  cases h : ds.entries.find? fun e => e.1 == uri with
  | none => rfl
  | some e =>
    have huri : e.1 = uri := by simpa using List.find?_some h
    simp [huri]

theorem erase_veil (v : Veil) (ds : Documents) (uri : FileUri) :
    (ds.veil v).erase uri = (ds.erase uri).veil v := by
  unfold erase veil
  rw [List.filter_map]
  rfl

theorem veil_veil (v : Veil) (ds : Documents) : (ds.veil v).veil v = ds.veil v := by
  unfold veil
  simp [v.hide_hide]

/-- Documents that look alike may be put in place of each other. -/
theorem insert_veil {v : Veil} {uri : FileUri} {d d' : Document}
    (h : v.hide uri d = v.hide uri d') (ds : Documents) :
    ((ds.veil v).insert uri d).veil v = (ds.insert uri d').veil v := by
  have hrest : ((ds.veil v).erase uri).veil v = (ds.erase uri).veil v := by
    rw [erase_veil, veil_veil]
  have hentries := congrArg Documents.entries hrest
  show Documents.mk ((uri, v.hide uri d) :: (((ds.veil v).erase uri).veil v).entries) = _
  rw [hentries, h]
  rfl

end Documents

/-! ### Handlers -/

namespace Server

variable (v : Veil)

/-- The server with its documents behind a veil. -/
def veil (s : Server) : Server := { s with documents := s.documents.veil v }

theorem settings_veil (s : Server) : (s.veil v).settings = s.settings := rfl

theorem document?_veil (s : Server) (uri : FileUri) :
    (s.veil v).document? uri = (s.document? uri).map (v.hide uri) :=
  s.documents.get?_veil v uri

theorem veil_veil (s : Server) : (s.veil v).veil v = s.veil v := by
  unfold veil
  rw [Documents.veil_veil]

theorem putDocument_veil {v : Veil} {uri : FileUri} {d d' : Document}
    (h : v.hide uri d = v.hide uri d') (s : Server) :
    ((s.veil v).putDocument uri d).veil v = (s.putDocument uri d').veil v := by
  show { s with documents := ((s.documents.veil v).insert uri d).veil v } = _
  rw [Documents.insert_veil h]
  rfl

theorem openDocument_veil (s : Server) (uri : FileUri) (text : Text) (version : Int) :
    ((s.veil v).openDocument uri text version).veil v =
      (s.openDocument uri text version).veil v :=
  putDocument_veil rfl s

theorem changeDocument_veil (s : Server) (uri : FileUri) (version : Int) (edits : List Edit) :
    ((s.veil v).changeDocument uri version edits).veil v =
      (s.changeDocument uri version edits).veil v := by
  unfold changeDocument
  rw [document?_veil]
  apply putDocument_veil
  cases s.document? uri with
  | none => rfl
  | some d =>
    show v.hide uri ((v.hide uri d).change version edits) = v.hide uri (d.change version edits)
    rw [v.change, v.hide_hide]

theorem closeDocument_veil (s : Server) (uri : FileUri) :
    ((s.veil v).closeDocument uri).veil v = (s.closeDocument uri).veil v := by
  show { s with documents := ((s.documents.veil v).erase uri).veil v } = _
  rw [Documents.erase_veil, Documents.veil_veil]
  rfl

theorem startOutline_veil (s : Server) (uri : FileUri) :
    (s.veil v).startOutline uri = s.startOutline uri := by
  unfold startOutline
  rw [document?_veil]
  cases s.document? uri with
  | none => rfl
  | some d =>
    simp only [Option.map_some, v.text, v.version, v.revision, v.outline]
    rfl

theorem keepOutline_veil (s : Server) (uri : FileUri) (version : Int) (revision : Nat)
    (symbols : List Symbol) :
    ((s.veil v).keepOutline uri version revision symbols).veil v =
      (s.keepOutline uri version revision symbols).veil v := by
  unfold keepOutline
  rw [document?_veil]
  cases s.document? uri with
  | none => exact s.veil_veil v
  | some d =>
    have houtlined := congrArg (v.hide uri) (v.outlined uri d symbols)
    rw [v.hide_hide] at houtlined
    dsimp only [Option.map_some]
    by_cases hsame : d.version = version ∧ d.revision = revision
    · have hsame' : (v.hide uri d).version = version ∧ (v.hide uri d).revision = revision := by
        rw [v.version, v.revision]
        exact hsame
      rw [if_pos hsame, if_pos hsame']
      exact putDocument_veil houtlined s
    · have hsame' : ¬ ((v.hide uri d).version = version ∧ (v.hide uri d).revision = revision) := by
        rw [v.version, v.revision]
        exact hsame
      rw [if_neg hsame, if_neg hsame']
      exact s.veil_veil v

theorem finishOutline_veil (s : Server) (uri : FileUri) (request : OutlineRequest) :
    ((s.veil v).finishOutline uri request).1.veil v = (s.finishOutline uri request).1.veil v ∧
      ((s.veil v).finishOutline uri request).2 = (s.finishOutline uri request).2 := by
  cases request with
  | settled answer => exact ⟨s.veil_veil v, rfl⟩
  | computing text version revision =>
    exact ⟨s.keepOutline_veil v uri version revision _, rfl⟩

theorem hover?_veil (s : Server) (uri : FileUri) (p : Position) :
    (s.veil v).hover? uri p = s.hover? uri p := by
  unfold hover?
  rw [document?_veil]
  cases s.document? uri with
  | none => rfl
  | some d =>
    simp only [Option.map_some, Option.bind_eq_bind, Option.bind_some, v.text]
    rfl

theorem reloadTable_veil (read : Text → Option Text) (s : Server) (next : Settings) :
    (s.veil v).reloadTable read next = (s.reloadTable read next).veil v := by
  unfold reloadTable
  rw [settings_veil]
  by_cases hpath : next.tablePath.map Path.components = s.settings.tablePath.map Path.components
  · rw [if_pos hpath, if_pos hpath]
  · rw [if_neg hpath, if_neg hpath]
    rfl

/-- Settings do not look at documents at all. -/
theorem applySettings_veil (read : Text → Option Text) (s : Server) (value : Json.Value) :
    (s.veil v).applySettings read value =
      ((s.applySettings read value).1.veil v, (s.applySettings read value).2) := by
  have hlimiter : ∀ next, (s.veil v).renewLimiter? next = s.renewLimiter? next := fun _ => rfl
  unfold applySettings
  rw [settings_veil]
  cases s.settings.update? value with
  | none => rfl
  | some next =>
    dsimp only
    rw [reloadTable_veil, hlimiter]
    cases s.renewLimiter? next <;> rfl

end Server

/-! ### The service -/

namespace Service

/-- The service with its documents behind a veil. -/
def veil (v : Veil) (s : Service) : Service := { s with server := s.server.veil v }

theorem veil_veil (v : Veil) (s : Service) : (s.veil v).veil v = s.veil v := by
  unfold veil
  rw [Server.veil_veil]

/-- Servers that are the same behind a veil may be put in place of each other. -/
theorem veil_server {v : Veil} {server server' : Server} (h : server.veil v = server'.veil v)
    (s : Service) :
    ({ s.veil v with server } : Service).veil v =
      ({ s with server := server' } : Service).veil v := by
  show ({ s with server := server.veil v } : Service) = { s with server := server'.veil v }
  rw [h]

/-- Documents that look alike may be put into services that do. -/
theorem veil_putDocument {v : Veil} {s s' : Service} {uri : FileUri} {d d' : Document}
    (h : s.veil v = s'.veil v) (hd : v.hide uri d = v.hide uri d') :
    ({ s with server := s.server.putDocument uri d } : Service).veil v =
      ({ s' with server := s'.server.putDocument uri d' } : Service).veil v := by
  have hput := veil_server (Server.putDocument_veil hd.symm s.server) s
  have hput' := veil_server (Server.putDocument_veil (rfl : v.hide uri d' = _) s'.server) s'
  rw [← hput, ← hput']
  show ({ s.veil v with server := (s.veil v).server.putDocument uri d' } : Service).veil v =
    ({ s'.veil v with server := (s'.veil v).server.putDocument uri d' } : Service).veil v
  rw [h]

/-- Two results of a step come to the same: what is brought back is equal, and so are the services
behind a veil. -/
structure SameBehind (v : Veil) (r r' : Service × Response) : Prop where
  state : r.1.veil v = r'.1.veil v
  response : r.2 = r'.2

/-- A result that is the other one behind the veil comes to the same. -/
theorem SameBehind.of_eq {v : Veil} {r r' : Service × Response} (h : r = (r'.1.veil v, r'.2)) :
    SameBehind v r r' := by
  subst h
  exact ⟨veil_veil v r'.1, rfl⟩

variable (v : Veil)

theorem applySettings_veil (s : Service) (value : Json.Value) :
    (s.veil v).applySettings value =
      ((s.applySettings value).1.veil v, (s.applySettings value).2) := by
  have happlied : (s.veil v).server.applySettings (s.veil v).files.read? value =
      ((s.server.applySettings s.files.read? value).1.veil v,
        (s.server.applySettings s.files.read? value).2) :=
    s.server.applySettings_veil v s.files.read? value
  unfold applySettings
  rw [happlied]
  rfl

theorem pullSettings_veil (s : Service) (reply : SettingsReply) :
    (s.veil v).pullSettings reply =
      ((s.pullSettings reply).1.veil v, (s.pullSettings reply).2) := by
  unfold pullSettings
  cases reply.first? with
  | none => rfl
  | some value => exact s.applySettings_veil v value

/-- A message is handled the same behind a veil, unless it is a request for completions. -/
theorem handle_veil (s : Service) {m : Message}
    (hm : ∀ uri p trigger, m ≠ .complete uri p trigger) :
    SameBehind v ((s.veil v).handle m) (s.handle m) := by
  cases m with
  | handshake => exact .of_eq rfl
  | ready reply =>
    simp only [handle, pullSettings_veil]
    exact .of_eq rfl
  | shutdown => exact .of_eq rfl
  | didOpen uri text version =>
    exact ⟨s.veil_server (s.server.openDocument_veil v uri text version), rfl⟩
  | didChange uri version edits =>
    exact ⟨s.veil_server (s.server.changeDocument_veil v uri version edits), rfl⟩
  | didClose uri => exact ⟨s.veil_server (s.server.closeDocument_veil v uri), rfl⟩
  | didConfigure settings reply =>
    simp only [handle, applySettings_veil, pullSettings_veil]
    cases settings.member? settingsName <;> exact .of_eq rfl
  | outline uri =>
    -- An outline is taken from the text, which no veil hides.
    have hstart : (s.veil v).server.startOutline uri = s.server.startOutline uri :=
      s.server.startOutline_veil v uri
    obtain ⟨hserver, hanswer⟩ := s.server.finishOutline_veil v uri (s.server.startOutline uri)
    simp only [handle, hstart]
    have hstate := veil_server hserver s
    exact ⟨hstate, congrArg (fun symbols => Response.mk (.outline symbols) []) hanswer⟩
  | hover uri p =>
    have hhover : (s.veil v).server.hover? uri p = s.server.hover? uri p :=
      s.server.hover?_veil v uri p
    simp only [handle, hhover]
    exact .of_eq rfl
  | complete uri p trigger => exact absurd rfl (hm uri p trigger)

/-- A message is received the same behind a veil, if it is handled so. -/
theorem receive_veil (s : Service) (n : Nat) {m : Message}
    (hm : s.phase = .running → (m.isRequest && s.inUse n) = false →
      SameBehind v ((s.veil v).handle m) (s.handle m)) :
    SameBehind v ((s.veil v).receive n m) (s.receive n m) := by
  have hphase : (s.veil v).phase = s.phase := rfl
  have huse : (s.veil v).inUse n = s.inUse n := rfl
  unfold receive
  rw [hphase, huse]
  -- Before the handshake and after the shutdown no document is looked at.
  cases hnow : s.phase with
  | fresh => cases m <;> exact .of_eq rfl
  | stopped => exact .of_eq rfl
  | running =>
    dsimp only
    cases hrefused : m.isRequest && s.inUse n with
    | true => cases m <;> exact .of_eq rfl
    | false => exact hm hnow hrefused

theorem start_veil (s : Service) (n : Nat) (uri : FileUri) :
    SameBehind v ((s.veil v).start n uri) (s.start n uri) := by
  have hphase : (s.veil v).phase = s.phase := rfl
  have huse : (s.veil v).inUse n = s.inUse n := rfl
  have hstart : (s.veil v).server.startOutline uri = s.server.startOutline uri :=
    s.server.startOutline_veil v uri
  unfold start
  rw [hphase, huse, hstart]
  cases s.phase with
  | fresh => exact .of_eq rfl
  | stopped => exact .of_eq rfl
  | running =>
    dsimp only
    cases s.inUse n with
    | true => exact .of_eq rfl
    | false => cases s.server.startOutline uri <;> exact .of_eq rfl

theorem finish_veil (s : Service) (n : Nat) :
    SameBehind v ((s.veil v).finish n) (s.finish n) := by
  have hpending : (s.veil v).pending? n = s.pending? n := rfl
  unfold finish
  rw [hpending]
  cases s.pending? n with
  | none => exact .of_eq rfl
  | some p =>
    obtain ⟨hserver, hanswer⟩ := s.server.finishOutline_veil v p.uri p.request
    have hstate := veil_server hserver
      { s with pending := s.pending.filter fun q => q.number != n }
    exact ⟨hstate, congrArg (fun symbols => Response.mk (.outline symbols) []) hanswer⟩

/-- An event is a request for completions that is handled. -/
def Completes (s : Service) (e : Event) : Prop :=
  ∃ n uri p trigger, e = .receive n (.complete uri p trigger) ∧ s.phase = .running ∧
    s.inUse n = false

/-- **What a veil hides is seen by completion alone.** A step does the same behind a veil, unless it
handles a request for completions. -/
theorem step_veil {s : Service} {e : Event} (he : ¬ s.Completes e) :
    SameBehind v ((s.veil v).step e) (s.step e) := by
  cases e with
  | receive n m =>
    apply receive_veil
    intro hphase haccepted
    apply handle_veil
    intro uri p trigger heq
    subst heq
    exact he ⟨n, uri, p, trigger, rfl, hphase, haccepted⟩
  | startOutline n uri => exact s.start_veil v n uri
  | finishOutline n => exact s.finish_veil v n
  | write path contents => exact .of_eq rfl

/-- Services that are the same behind a veil stay so, and bring the same back. -/
theorem step_behind {v : Veil} {s s' : Service} {e : Event} (h : s.veil v = s'.veil v)
    (he : ¬ s.Completes e) (he' : ¬ s'.Completes e) : SameBehind v (s.step e) (s'.step e) := by
  have hs := step_veil v he
  have hs' := step_veil v he'
  rw [h] at hs
  exact ⟨hs.state.symm.trans hs'.state, hs.response.symm.trans hs'.response⟩

end Service

end MelScript
