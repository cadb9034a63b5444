import Mathlib.Data.List.Induction
import MelScript.Proofs.Server.Documents

/-! # Notifications that are heeded

  A run of the service is told by the notifications that it heeds: those that
  come between handshake and shutdown. All others are dropped, whatever they
  say.

  - `Phase.next` and `Phase.heeds?` need the phase alone, so that the heeded
    notifications of a run, `heeded`, can be read off its events.
  - A heeded notification is handled at once (`step_of_heeds`).
  - What an event makes of a document is told by the notification about it that
    the event brings, if any (`Fate`, `step_fate`). Without one the document may
    be asked about, but it is not changed (`Spared`).
  - What holds of new documents and is kept while they stay open holds of all open
    documents (`document_rule`).
-/

namespace MelScript

namespace Phase

/-- The phase after an event. -/
def next (phase : Phase) : Event → Phase
  | .receive _ .handshake => if phase = .fresh then .running else phase
  | .receive _ .shutdown => if phase = .running then .stopped else phase
  | _ => phase

/-- The notification that an event brings, if it is heeded. -/
def heeds? : Phase → Event → Option Message
  | .running, .receive _ m => if m.isRequest then none else some m
  | _, _ => none

theorem heeds?_eq_some_iff {phase : Phase} {e : Event} {m : Message} :
    phase.heeds? e = some m ↔
      phase = .running ∧ m.isRequest = false ∧ ∃ n, e = .receive n m := by
  constructor
  · intro h
    unfold heeds? at h
    split at h
    · next n m' =>
      cases hrequest : m'.isRequest with
      | true => simp [hrequest] at h
      | false =>
        simp only [hrequest, Bool.false_eq_true, if_false, Option.some.injEq] at h
        subst h
        exact ⟨rfl, hrequest, n, rfl⟩
    · cases h
  · rintro ⟨rfl, hrequest, n, rfl⟩
    simp [heeds?, hrequest]

theorem heeds?_receive (phase : Phase) (n : Nat) (m : Message) :
    phase.heeds? (.receive n m) = none ∨ phase.heeds? (.receive n m) = some m := by
  cases h : phase.heeds? (.receive n m) with
  | none => exact .inl rfl
  | some m' =>
    obtain ⟨_, _, _, heq⟩ := heeds?_eq_some_iff.1 h
    cases heq
    exact .inr rfl

end Phase

/-- A notification that a document was opened, changed or closed. -/
def Message.Concerns (uri : FileUri) : Message → Prop
  | .didOpen other _ _ => other = uri
  | .didChange other _ _ => other = uri
  | .didClose other => other = uri
  | _ => False

/-- A notification that a document was opened or closed. -/
def Message.Reopens (uri : FileUri) : Message → Prop
  | .didOpen other _ _ => other = uri
  | .didClose other => other = uri
  | _ => False

theorem Message.Reopens.concerns {uri : FileUri} {m : Message} (h : m.Reopens uri) :
    m.Concerns uri := by
  cases m with
  | didOpen other text version => exact h
  | didClose other => exact h
  | _ => cases h

namespace Service

/-! ### Phases -/

theorem phase_receive (s : Service) (n : Nat) (m : Message) :
    (s.receive n m).1.phase = s.phase.next (.receive n m) := by
  cases hphase : s.phase with
  | fresh => cases m <;> simp [receive, Phase.next, refuse, hphase]
  | stopped => cases m <;> simp [receive, Phase.next, refuse, hphase]
  | running =>
    by_cases hm : m = .shutdown
    · -- A shutdown takes place whether or not its number is in use.
      subst hm
      simp only [receive, hphase, Phase.next]
      split <;> rfl
    · have hnext : Phase.running.next (.receive n m) = .running := by
        cases m with
        | shutdown => exact absurd rfl hm
        | _ => rfl
      rw [hnext]
      simp only [receive, hphase]
      split
      · cases m with
        | shutdown => exact absurd rfl hm
        | _ => exact hphase
      · rw [s.handle_frame hm]
        exact hphase

/-- The phase after an event does not depend on anything but the phase before it. -/
theorem phase_step (s : Service) (e : Event) : (s.step e).1.phase = s.phase.next e := by
  cases e with
  | receive n m => exact s.phase_receive n m
  | startOutline n uri =>
    show (s.start n uri).1.phase = s.phase
    rw [start_frame]
  | finishOutline n =>
    show (s.finish n).1.phase = s.phase
    rw [finish_frame]
  | write path contents => rfl

theorem phase_run (s : Service) (es : List Event) :
    (s.run es).1.phase = es.foldl Phase.next s.phase := by
  induction es generalizing s with
  | nil => rfl
  | cons e es ih =>
    have hrest := ih (s.step e).1
    rw [phase_step] at hrest
    exact hrest

/-! ### The heeded notifications of a run -/

/-- The notifications that a run heeds when it starts in a phase. -/
def heededFrom : Phase → List Event → List Message
  | _, [] => []
  | phase, e :: es => (phase.heeds? e).toList ++ heededFrom (phase.next e) es

/-- The notifications that a run from the start heeds. -/
def heeded (es : List Event) : List Message := heededFrom .fresh es

theorem heededFrom_append (phase : Phase) (es es' : List Event) :
    heededFrom phase (es ++ es') =
      heededFrom phase es ++ heededFrom (es.foldl Phase.next phase) es' := by
  induction es generalizing phase with
  | nil => rfl
  | cons e es ih =>
    simp only [List.cons_append, heededFrom, List.foldl_cons, List.append_assoc]
    rw [ih (phase.next e)]

/-- A run that is one event longer heeds what this event brings. -/
theorem heeded_concat (files : FileTree) (es : List Event) (e : Event) :
    heeded (es ++ [e]) = heeded es ++ ((after files es).phase.heeds? e).toList := by
  have hphase : (after files es).phase = es.foldl Phase.next .fresh := phase_run _ es
  unfold heeded
  rw [heededFrom_append, hphase]
  simp [heededFrom]

theorem exists_receive_of_mem_heededFrom {phase : Phase} {es : List Event} {m : Message}
    (h : m ∈ heededFrom phase es) : ∃ n, .receive n m ∈ es := by
  induction es generalizing phase with
  | nil => cases h
  | cons e es ih =>
    rcases List.mem_append.1 h with h | h
    · obtain ⟨_, _, n, rfl⟩ := Phase.heeds?_eq_some_iff.1 (Option.mem_toList.1 h)
      exact ⟨n, List.mem_cons_self⟩
    · obtain ⟨n, hn⟩ := ih h
      exact ⟨n, List.mem_cons_of_mem e hn⟩

theorem mem_heeded_append {es : List Event} {m : Message} (h : m ∈ heeded es)
    (es' : List Event) : m ∈ heeded (es ++ es') := by
  unfold heeded
  rw [heededFrom_append]
  exact List.mem_append_left _ h

/-! ### One event -/

/-- A heeded notification is handled. -/
theorem step_of_heeds {s : Service} {e : Event} {m : Message}
    (h : s.phase.heeds? e = some m) : s.step e = s.handle m := by
  obtain ⟨hphase, hrequest, n, rfl⟩ := Phase.heeds?_eq_some_iff.1 h
  simp [step, receive, hphase, hrequest]

/-- Between handshake and shutdown a message with a free number is handled. -/
theorem step_of_free {s : Service} {n : Nat} (hphase : s.phase = .running)
    (hfree : s.inUse n = false) (m : Message) : s.step (.receive n m) = s.handle m := by
  simp [step, receive, hphase, hfree]

/-- A notification that is not heeded is dropped. -/
theorem server_receive_of_not_heeded {s : Service} {n : Nat} {m : Message}
    (hrequest : m.isRequest = false) (h : s.phase.heeds? (.receive n m) = none) :
    (s.receive n m).1.server = s.server := by
  cases hphase : s.phase with
  | fresh => cases m <;> simp [receive, refuse, hphase]
  | stopped => simp [receive, refuse, hphase]
  | running => simp [hphase, Phase.heeds?, hrequest] at h

/-! ### One event and one document -/

/-- What is left of a document that may have been asked about: its text may have been taken into the
index, and an outline may have been put into it. -/
inductive Spared : Option Document → Option Document → Prop where
  /-- It is as it was, or it is still not open. -/
  | same (found : Option Document) : Spared found found
  /-- Its text was taken into the index. -/
  | indexed (d : Document) : Spared (some d) (some d.refreshIndex)
  /-- An outline was put into it. -/
  | outlined (d : Document) (symbols : List Symbol) :
      Spared (some d) (some { d with outline := some symbols })

/-- An event that brings no notification about a document spares it. -/
theorem step_spared {s : Service} {e : Event} {uri : FileUri}
    (h : ∀ m, s.phase.heeds? e = some m → ¬ m.Concerns uri) :
    Spared (s.server.document? uri) ((s.step e).1.server.document? uri) := by
  -- A notification about the document is dropped here, since it is not heeded.
  have hdropped : ∀ n m, e = .receive n m → m.isRequest = false → m.Concerns uri →
      (s.step e).1.server.document? uri = s.server.document? uri := by
    rintro n m rfl hrequest hconcerns
    rcases s.phase.heeds?_receive n m with hnone | hheeds
    · have hserver : (s.step (.receive n m)).1.server = s.server :=
        server_receive_of_not_heeded hrequest hnone
      rw [hserver]
    · exact absurd hconcerns (h m hheeds)
  have htouch := s.step_touch e uri
  generalize hnow : (s.step e).1.server.document? uri = now at htouch
  cases htouch with
  | untouched => exact .same _
  | @opened n text version =>
    rw [← hnow, hdropped n (.didOpen uri text version) rfl rfl rfl]
    exact .same _
  | @changed n version edits =>
    rw [← hnow, hdropped n (.didChange uri version edits) rfl rfl rfl]
    exact .same _
  | @closed n =>
    rw [← hnow, hdropped n (.didClose uri) rfl rfl rfl]
    exact .same _
  | indexed hopen =>
    rw [hopen]
    exact .indexed _
  | computed hopen =>
    rw [hopen]
    exact .outlined _ _
  | kept _ _ _ hopen =>
    rw [hopen]
    exact .outlined _ _

/-- What an event makes of a document, by the notification about it that is heeded. -/
inductive Fate (s : Service) (uri : FileUri) (e : Event) : Option Document → Prop where
  /-- It was opened, with the table in force. -/
  | opened {text : Text} {version : Int}
      (heeds : s.phase.heeds? e = some (.didOpen uri text version)) :
      Fate s uri e (some (.fresh text version s.server.table))
  /-- It was changed, and created before that if it was not open. -/
  | changed {version : Int} {edits : List Edit}
      (heeds : s.phase.heeds? e = some (.didChange uri version edits)) :
      Fate s uri e (some (((s.server.document? uri).getD
        (.fresh [] version s.server.table)).change version edits))
  /-- It was closed. -/
  | closed (heeds : s.phase.heeds? e = some (.didClose uri)) : Fate s uri e none
  /-- There was nothing about it. -/
  | spared {now : Option Document}
      (quiet : ∀ m, s.phase.heeds? e = some m → ¬ m.Concerns uri)
      (spared : Spared (s.server.document? uri) now) : Fate s uri e now

theorem document?_of_heeds_didOpen {s : Service} {e : Event} {uri : FileUri} {text : Text}
    {version : Int} (h : s.phase.heeds? e = some (.didOpen uri text version)) :
    (s.step e).1.server.document? uri = some (.fresh text version s.server.table) := by
  rw [step_of_heeds h]
  simp [handle, Server.openDocument, Server.document?_putDocument]

theorem document?_of_heeds_didChange {s : Service} {e : Event} {uri : FileUri} {version : Int}
    {edits : List Edit} (h : s.phase.heeds? e = some (.didChange uri version edits)) :
    (s.step e).1.server.document? uri =
      some (((s.server.document? uri).getD (.fresh [] version s.server.table)).change
        version edits) := by
  rw [step_of_heeds h]
  simp [handle, Server.changeDocument, Server.document?_putDocument]

theorem document?_of_heeds_didClose {s : Service} {e : Event} {uri : FileUri}
    (h : s.phase.heeds? e = some (.didClose uri)) :
    (s.step e).1.server.document? uri = none := by
  rw [step_of_heeds h]
  simp [handle, Server.document?_closeDocument]

/-- An event makes of a document one of the things that `Fate` lists. -/
theorem step_fate (s : Service) (e : Event) (uri : FileUri) :
    s.Fate uri e ((s.step e).1.server.document? uri) := by
  by_cases hconcerns : ∃ m, s.phase.heeds? e = some m ∧ m.Concerns uri
  · obtain ⟨m, hheeds, hm⟩ := hconcerns
    cases m with
    | didOpen other text version =>
      cases hm
      rw [document?_of_heeds_didOpen hheeds]
      exact .opened hheeds
    | didChange other version edits =>
      cases hm
      rw [document?_of_heeds_didChange hheeds]
      exact .changed hheeds
    | didClose other =>
      cases hm
      rw [document?_of_heeds_didClose hheeds]
      exact .closed hheeds
    | _ => cases hm
  · have hquiet : ∀ m, s.phase.heeds? e = some m → ¬ m.Concerns uri :=
      fun m hheeds hm => hconcerns ⟨m, hheeds, hm⟩
    exact .spared hquiet (step_spared hquiet)

/-! ### Open documents in a run -/

/-- What one event can make of a document that stays open. -/
inductive Follows (d : Document) : Document → Prop where
  /-- It is as it was. -/
  | same : Follows d d
  /-- It was changed. -/
  | changed (version : Int) (edits : List Edit) : Follows d (d.change version edits)
  /-- Its text was taken into the index. -/
  | indexed : Follows d d.refreshIndex
  /-- An outline was put into it. -/
  | outlined (symbols : List Symbol) : Follows d { d with outline := some symbols }

/-- The rule for what holds of open documents at all times of a run: it holds of documents that
were just opened, or created by a change, and it is kept as long as they are not opened again or
closed. -/
theorem document_rule {files : FileTree} {uri : FileUri} {P : List Event → Document → Prop}
    (opened : ∀ es e text version,
      (after files es).phase.heeds? e = some (.didOpen uri text version) →
      P (es ++ [e]) (.fresh text version (after files es).server.table))
    (created : ∀ es e version edits, (after files es).server.document? uri = none →
      (after files es).phase.heeds? e = some (.didChange uri version edits) →
      P (es ++ [e])
        ((Document.fresh [] version (after files es).server.table).change version edits))
    (follows : ∀ es e d d', (after files es).server.document? uri = some d → P es d →
      (∀ m, (after files es).phase.heeds? e = some m → ¬ m.Reopens uri) → Follows d d' →
      P (es ++ [e]) d')
    {es : List Event} {d : Document} (hd : (after files es).server.document? uri = some d) :
    P es d := by
  induction es using List.reverseRecOn generalizing d with
  | nil => cases hd
  | append_singleton es e ih =>
    rw [after_concat] at hd
    have hfate := (after files es).step_fate e uri
    rw [hd] at hfate
    generalize hnow : some d = now at hfate
    cases hfate with
    | opened heeds =>
      cases hnow
      exact opened es e _ _ heeds
    | closed => cases hnow
    | changed heeds =>
      cases hnow
      -- A change creates the document only if it was not open.
      cases hold : (after files es).server.document? uri with
      | none => exact created es e _ _ hold heeds
      | some d' =>
        refine follows es e d' _ hold (ih hold) ?_ (.changed _ _)
        intro m hm
        rw [heeds] at hm
        cases hm
        exact id
    | spared quiet spared =>
      have hquiet : ∀ m, (after files es).phase.heeds? e = some m → ¬ m.Reopens uri :=
        fun m hm hreopens => quiet m hm hreopens.concerns
      generalize hold : (after files es).server.document? uri = before at spared
      cases spared with
      | same =>
        rw [← hnow] at hold
        exact follows es e d d hold (ih hold) hquiet .same
      | indexed d' =>
        cases hnow
        exact follows es e d' _ hold (ih hold) hquiet .indexed
      | outlined d' symbols =>
        cases hnow
        exact follows es e d' _ hold (ih hold) hquiet (.outlined symbols)

end Service

end MelScript
