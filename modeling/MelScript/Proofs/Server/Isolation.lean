import MelScript.Editor.Protocol
import MelScript.Proofs.Server.Alike

/-! # Documents do not meet

  The service serves many documents by one server. What it answers about one of
  them, and what becomes of that one, does not depend on the others: the events
  about them can be left out of a run.

  - `Service.subject?` is the document that an event is about. Settings and files
    are about none, and stay in every run.
  - An event about another document is not noticed (`Alike.step_elsewhere`), and
    all other events keep two services alike (`Alike.step`).
  - There is one way in which documents do meet. Numbers of requests are shared, so
    a request may come while another document's request has its number
    (`Crosses`). It is turned away, and without the other document it is not.

  `isolated_iff_not_crossed` says that there is no other way.
-/

namespace MelScript

/-- The number that an event asks for, if it is a request. -/
def Event.number? : Event → Option Nat
  | .receive n m => if m.isRequest then some n else none
  | .startOutline n _ => some n
  | .finishOutline _ | .write _ _ => none

namespace Service

/-! ### What events are about -/

/-- The document that an event is about, if it is about one. The end of a request is about the
document for which the request was started. -/
def subject? (s : Service) : Event → Option FileUri
  | .receive _ m => m.subject?
  | .startOutline _ uri => some uri
  | .finishOutline n => (s.pending? n).map (·.uri)
  | .write _ _ => none

/-- An event that is about another document. -/
def Elsewhere (s : Service) (uri : FileUri) (e : Event) : Prop :=
  ∃ other, s.subject? e = some other ∧ other ≠ uri

instance (s : Service) (uri : FileUri) (e : Event) : Decidable (s.Elsewhere uri e) :=
  decidable_of_iff ((s.subject? e).any fun other => other ≠ uri)
    (by simp [Elsewhere, Option.any_eq_true])

/-- A request about a document, while a request about another one has its number. -/
def Crosses (s : Service) (uri : FileUri) (e : Event) : Prop :=
  s.phase = .running ∧ s.subject? e = some uri ∧
    ∃ n p, e.number? = some n ∧ s.pending? n = some p ∧ p.uri ≠ uri

/-! ### Events about other documents -/

theorem document?_step_of_elsewhere {s : Service} {uri : FileUri} {e : Event}
    (he : s.Elsewhere uri e) :
    (s.step e).1.server.document? uri = s.server.document? uri := by
  obtain ⟨other, hother, hne⟩ := he
  have htouch := s.step_touch e uri
  generalize (s.step e).1.server.document? uri = now at htouch ⊢
  -- Whatever touches the document is about it.
  cases htouch with
  | untouched => rfl
  | kept hpending hconcerned _ _ =>
    simp only [subject?, hpending, Option.map_some, Option.some.injEq] at hother
    exact absurd (hother.symm.trans hconcerned) hne
  | _ =>
    cases hother
    exact absurd rfl hne

theorem pending?_step_of_elsewhere {s : Service} {uri : FileUri} {e : Event}
    (he : s.Elsewhere uri e) (n : Nat) :
    ((s.step e).1.pending? n).filter (fun p => p.uri == uri) =
      (s.pending? n).filter fun p => p.uri == uri := by
  obtain ⟨other, hother, hne⟩ := he
  cases e with
  | receive k m =>
    show ((s.receive k m).1.pending? n).filter _ = _
    rw [pending?_receive]
  | write path contents => rfl
  | startOutline k uri' =>
    have hne : uri' ≠ uri := Option.some.inj hother ▸ hne
    show ((s.start k uri').1.pending? n).filter _ = _
    cases hk : s.pending? k with
    | some p => rw [start_of_inUse hk]
    | none =>
      by_cases hway : (s.start k uri').2.answer = .underWay
      · obtain ⟨d, _, hs⟩ := start_underWay hway
        rw [hs, pending?_cons]
        by_cases hn : n = k
        · subst hn
          simp [hk, Option.filter_some, hne]
        · rw [if_neg hn]
      · rw [start_eq_self hway]
  | finishOutline k =>
    show ((s.finish k).1.pending? n).filter _ = _
    rw [pending?_finish]
    split
    · next hn =>
      -- The request that has ended was about another document.
      subst hn
      obtain ⟨p, hp, huri⟩ := Option.map_eq_some_iff.1 hother
      subst huri
      rw [hp, Option.filter_some]
      simp [hne]
    · rfl

theorem phase_step_of_elsewhere {s : Service} {uri : FileUri} {e : Event}
    (he : s.Elsewhere uri e) : (s.step e).1.phase = s.phase := by
  obtain ⟨other, hother, _⟩ := he
  rw [phase_step]
  cases e with
  | receive n m =>
    cases m with
    | handshake => cases hother
    | shutdown => cases hother
    | _ => rfl
  | _ => rfl

theorem sameConfiguration_of_elsewhere {s : Service} {uri : FileUri} {e : Event}
    (he : s.Elsewhere uri e) : s.server.SameConfiguration (s.step e).1.server := by
  obtain ⟨other, hother, _⟩ := he
  apply step_sameConfiguration
  intro m hheeds
  obtain ⟨_, _, n, rfl⟩ := Phase.heeds?_eq_some_iff.1 hheeds
  cases m with
  | ready reply => cases hother
  | didConfigure settings reply => cases hother
  | _ => rfl

/-! ### Files -/

/-- Only a write changes files. -/
theorem files_step {s : Service} {e : Event} (he : ∀ path contents, e ≠ .write path contents) :
    (s.step e).1.files = s.files := by
  cases e with
  | receive n m =>
    show (s.receive n m).1.files = s.files
    rw [receive_frame]
  | startOutline n uri =>
    show (s.start n uri).1.files = s.files
    rw [start_frame]
  | finishOutline n =>
    show (s.finish n).1.files = s.files
    rw [finish_frame]
  | write path contents => exact absurd rfl (he path contents)

/-! ### Events that are kept -/

/-- A message that is about no document does the same to the service, whether or not it is turned
away because of its number. -/
theorem fst_ite_refuseNumber {s : Service} {n : Nat} {m : Message} (hm : m.subject? = none) :
    (if (m.isRequest && s.inUse n) = true then s.refuseNumber m else s.handle m).1 =
      (s.handle m).1 := by
  split
  · next hrefused =>
    cases m with
    | handshake => rfl
    | shutdown => rfl
    | ready reply => cases hrefused
    | didConfigure settings reply => cases hrefused
    | _ => cases hm
  · rfl

theorem finish_of_pending? {s : Service} {n : Nat} {p : Pending} (hp : s.pending? n = some p) :
    s.finish n =
      ({ s with
          server := (s.server.finishOutline p.uri p.request).1
          pending := s.pending.filter fun q => q.number != n },
        { answer := .outline (s.server.finishOutline p.uri p.request).2 }) := by
  simp only [finish, hp]

namespace Alike

variable {uri : FileUri} {s s' : Service} {e : Event}

/-- An event about another document is not noticed. -/
theorem step_elsewhere (h : s.Alike uri s') (he : s.Elsewhere uri e) :
    (s.step e).1.Alike uri s' where
  phase := by rw [phase_step_of_elsewhere he, h.phase]
  files := by
    rw [h.files, files_step]
    rintro path contents rfl
    obtain ⟨_, hother, _⟩ := he
    cases hother
  server := by
    have hsame := sameConfiguration_of_elsewhere he
    refine ⟨⟨?_, ?_, ?_⟩, ?_⟩
    · rw [h.server.configuration.table, hsame.table]
    · rw [h.server.configuration.settings, hsame.settings]
    · rw [h.server.configuration.limiter, hsame.limiter]
    · rw [h.server.document, document?_step_of_elsewhere he]
  pending n := by rw [h.pending, pending?_step_of_elsewhere he]

theorem subject? (h : s.Alike uri s') (he : ¬ s.Elsewhere uri e) :
    s'.subject? e = s.subject? e := by
  cases e with
  | finishOutline n =>
    show (s'.pending? n).map (·.uri) = (s.pending? n).map (·.uri)
    rw [h.pending]
    cases hp : s.pending? n with
    | none => rfl
    | some p =>
      have huri : p.uri = uri := by
        by_contra hne
        exact he ⟨p.uri, by simp [Service.subject?, hp], hne⟩
      simp [Option.filter_some, huri]
  | _ => rfl

theorem receive (h : s.Alike uri s') {n : Nat} {m : Message}
    (hm : ∀ other, m.subject? = some other → other = uri)
    (hcross : ¬ s.Crosses uri (.receive n m)) :
    (s.receive n m).1.Alike uri (s'.receive n m).1 ∧
      (m.subject? = some uri → (s'.receive n m).2 = (s.receive n m).2) := by
  unfold Service.receive
  rw [h.phase]
  cases hphase : s.phase with
  | fresh =>
    cases m with
    | handshake => exact ⟨⟨rfl, h.files, h.server, h.pending⟩, fun hnone => by cases hnone⟩
    | _ => exact ⟨h, fun _ => rfl⟩
  | stopped => exact ⟨h, fun _ => rfl⟩
  | running =>
    dsimp only
    cases hsubject : m.subject? with
    | none =>
      -- The number may be in use on one side only, but that makes no difference to the state.
      refine ⟨?_, fun hnone => by cases hnone⟩
      rw [fst_ite_refuseNumber hsubject, fst_ite_refuseNumber hsubject]
      exact (h.handle hm).1
    | some other =>
      obtain rfl := hm other hsubject
      have huse : (m.isRequest && s'.inUse n) = (m.isRequest && s.inUse n) := by
        cases hrequest : m.isRequest with
        | false => rfl
        | true =>
          apply h.inUse
          intro p hp
          by_contra hne
          exact hcross ⟨hphase, hsubject, n, p, by simp [Event.number?, hrequest], hp, hne⟩
      rw [huse]
      split
      · obtain ⟨hstate, hresponse⟩ := h.refuseNumber m
        exact ⟨hstate, fun _ => hresponse⟩
      · obtain ⟨hstate, hresponse⟩ := h.handle hm
        exact ⟨hstate, fun _ => hresponse hsubject⟩

theorem start (h : s.Alike uri s') {n : Nat} (hcross : ¬ s.Crosses uri (.startOutline n uri)) :
    (s.start n uri).1.Alike uri (s'.start n uri).1 ∧
      (s'.start n uri).2 = (s.start n uri).2 := by
  unfold Service.start
  rw [h.phase, h.server.startOutline]
  cases hphase : s.phase with
  | fresh => exact ⟨h, rfl⟩
  | stopped => exact ⟨h, rfl⟩
  | running =>
    have huse : s'.inUse n = s.inUse n := by
      apply h.inUse
      intro p hp
      by_contra hne
      exact hcross ⟨hphase, rfl, n, p, rfl, hp, hne⟩
    dsimp only
    rw [huse]
    split
    · exact ⟨h, rfl⟩
    · split
      · exact ⟨h, rfl⟩
      · exact ⟨⟨rfl, h.files, h.server, (h.push ⟨n, uri, _⟩ rfl).pending⟩, rfl⟩

theorem finish (h : s.Alike uri s') {n : Nat} (he : ¬ s.Elsewhere uri (.finishOutline n)) :
    (s.finish n).1.Alike uri (s'.finish n).1 ∧ (s'.finish n).2 = (s.finish n).2 := by
  have hpending : ∀ k, (s'.finish n).1.pending? k =
      ((s.finish n).1.pending? k).filter fun p => p.uri == uri := by
    intro k
    rw [pending?_finish, pending?_finish]
    split
    · rfl
    · exact h.pending k
  cases hp : s.pending? n with
  | none =>
    have hp' : s'.pending? n = none := by
      rw [h.pending, hp]
      rfl
    have hs : s.finish n = (s, {}) := by simp only [Service.finish, hp]
    have hs' : s'.finish n = (s', {}) := by simp only [Service.finish, hp']
    rw [hs, hs']
    exact ⟨h, rfl⟩
  | some p =>
    have huri : p.uri = uri := by
      by_contra hne
      exact he ⟨p.uri, by simp [Service.subject?, hp], hne⟩
    have hp' : s'.pending? n = some p := by
      rw [h.pending, hp]
      simp [Option.filter_some, huri]
    obtain ⟨hserver, hanswer⟩ := h.server.finishOutline p.request
    rw [finish_of_pending? hp, finish_of_pending? hp'] at hpending ⊢
    rw [huri] at hpending ⊢
    exact ⟨⟨h.phase, h.files, hserver, hpending⟩, by rw [hanswer]⟩

/-- **Two services stay alike.** Where an event is about the document, the same comes back. -/
theorem step (h : s.Alike uri s') (he : ¬ s.Elsewhere uri e) (hcross : ¬ s.Crosses uri e) :
    (s.step e).1.Alike uri (s'.step e).1 ∧
      (s.subject? e = some uri → (s'.step e).2 = (s.step e).2) := by
  have hown : ∀ other, s.subject? e = some other → other = uri := by
    intro other hother
    by_contra hne
    exact he ⟨other, hother, hne⟩
  cases e with
  | receive n m => exact h.receive hown hcross
  | startOutline n other =>
    obtain rfl := hown other rfl
    obtain ⟨hstate, hresponse⟩ := h.start hcross
    exact ⟨hstate, fun _ => hresponse⟩
  | finishOutline n =>
    obtain ⟨hstate, hresponse⟩ := h.finish he
    exact ⟨hstate, fun _ => hresponse⟩
  | write path contents =>
    refine ⟨⟨h.phase, ?_, h.server, h.pending⟩, fun hnone => by cases hnone⟩
    show s'.files.write path contents = s.files.write path contents
    rw [h.files]

end Alike

/-! ### Requests that cross others -/

theorem Crosses.step_refused {s : Service} {uri : FileUri} {e : Event} (h : s.Crosses uri e) :
    (s.step e).2.answer = .refused .invalid := by
  obtain ⟨hphase, hsubject, n, p, hn, hp, _⟩ := h
  have huse : s.inUse n = true := by simp [inUse, hp]
  cases e with
  | receive k m =>
    cases hrequest : m.isRequest with
    | false => simp [Event.number?, hrequest] at hn
    | true =>
      simp only [Event.number?, hrequest, if_true, Option.some.injEq] at hn
      subst hn
      simp only [step, receive, hphase, hrequest, huse, Bool.and_self, if_true]
      cases m <;> rfl
  | startOutline k other =>
    cases hn
    simp [step, start, hphase, huse]
  | _ => cases hn

/-- Without the other document the number is free. -/
theorem Crosses.step_not_refused {s s' : Service} {uri : FileUri} {e : Event}
    (h : s.Crosses uri e) (halike : s.Alike uri s') :
    (s'.step e).2.answer ≠ .refused .invalid := by
  obtain ⟨hphase, hsubject, n, p, hn, hp, hne⟩ := h
  have hphase' : s'.phase = .running := halike.phase.trans hphase
  have hfree : s'.inUse n = false := by simp [inUse, halike.pending, hp, Option.filter_some, hne]
  cases e with
  | receive k m =>
    cases hrequest : m.isRequest with
    | false => simp [Event.number?, hrequest] at hn
    | true =>
      simp only [Event.number?, hrequest, if_true, Option.some.injEq] at hn
      subst hn
      rw [step_of_free hphase' hfree]
      cases m with
      | handshake => cases hsubject
      | shutdown => cases hsubject
      | outline other => simp [handle]
      | hover other position => simp [handle]
      | complete other position trigger => simp [handle]
      | _ => cases hrequest
  | startOutline k other =>
    cases hn
    simp only [step, start, hphase', hfree, Bool.false_eq_true, if_false]
    split <;> simp
  | _ => cases hn

/-! ### Runs -/

/-- The events of a run that are not about other documents. -/
def withoutOthers (uri : FileUri) (s : Service) : List Event → List Event
  | [] => []
  | e :: es =>
    let rest := (s.step e).1.withoutOthers uri es
    if s.Elsewhere uri e then rest else e :: rest

/-- What a run brings back for the events about a document, in order. -/
def responsesAbout (uri : FileUri) (s : Service) : List Event → List Response
  | [] => []
  | e :: es =>
    let rest := (s.step e).1.responsesAbout uri es
    if s.subject? e = some uri then (s.step e).2 :: rest else rest

/-- At some time of a run a request about a document crosses one about another document. -/
def Crossed (uri : FileUri) (s : Service) : List Event → Prop
  | [] => False
  | e :: es => s.Crosses uri e ∨ (s.step e).1.Crossed uri es

section

variable {uri : FileUri} {s s' : Service} {e : Event} {es : List Event}

theorem withoutOthers_of_elsewhere (he : s.Elsewhere uri e) :
    s.withoutOthers uri (e :: es) = (s.step e).1.withoutOthers uri es := if_pos he

theorem withoutOthers_of_not_elsewhere (he : ¬ s.Elsewhere uri e) :
    s.withoutOthers uri (e :: es) = e :: (s.step e).1.withoutOthers uri es := if_neg he

theorem responsesAbout_of_subject (he : s.subject? e = some uri) :
    s.responsesAbout uri (e :: es) = (s.step e).2 :: (s.step e).1.responsesAbout uri es :=
  if_pos he

theorem responsesAbout_of_not_subject (he : s.subject? e ≠ some uri) :
    s.responsesAbout uri (e :: es) = (s.step e).1.responsesAbout uri es :=
  if_neg he

theorem Elsewhere.subject_ne (he : s.Elsewhere uri e) : s.subject? e ≠ some uri := by
  obtain ⟨other, hother, hne⟩ := he
  rw [hother]
  exact fun heq => hne (Option.some.inj heq)

/-- Without crossing, a run with and one without the other documents go the same way. The induction
is on the events that are left. -/
theorem Alike.run (h : s.Alike uri s') (hes : ¬ s.Crossed uri es) :
    s'.responsesAbout uri (s.withoutOthers uri es) = s.responsesAbout uri es ∧
      (s.run es).1.Alike uri (s'.run (s.withoutOthers uri es)).1 := by
  induction es generalizing s s' with
  | nil => exact ⟨rfl, h⟩
  | cons e es ih =>
    have hcross : ¬ s.Crosses uri e := fun hcross => hes (.inl hcross)
    have hrest : ¬ (s.step e).1.Crossed uri es := fun hrest => hes (.inr hrest)
    by_cases he : s.Elsewhere uri e
    · rw [withoutOthers_of_elsewhere he, responsesAbout_of_not_subject he.subject_ne]
      exact ih (h.step_elsewhere he) hrest
    · obtain ⟨hstep, hresponse⟩ := h.step he hcross
      obtain ⟨hresponses, hend⟩ := ih hstep hrest
      rw [withoutOthers_of_not_elsewhere he]
      refine ⟨?_, hend⟩
      by_cases hsubject : s.subject? e = some uri
      · have hsubject' : s'.subject? e = some uri := (h.subject? he).trans hsubject
        rw [responsesAbout_of_subject hsubject, responsesAbout_of_subject hsubject',
          hresponse hsubject, hresponses]
      · have hsubject' : s'.subject? e ≠ some uri := h.subject? he ▸ hsubject
        rw [responsesAbout_of_not_subject hsubject, responsesAbout_of_not_subject hsubject',
          hresponses]

/-- The first request that crosses another one is answered differently. -/
theorem Alike.not_crossed (h : s.Alike uri s')
    (hes : s'.responsesAbout uri (s.withoutOthers uri es) = s.responsesAbout uri es) :
    ¬ s.Crossed uri es := by
  induction es generalizing s s' with
  | nil => exact id
  | cons e es ih =>
    by_cases he : s.Elsewhere uri e
    · rw [withoutOthers_of_elsewhere he, responsesAbout_of_not_subject he.subject_ne] at hes
      rintro (hcross | hrest)
      · exact he.subject_ne hcross.2.1
      · exact ih (h.step_elsewhere he) hes hrest
    · rw [withoutOthers_of_not_elsewhere he] at hes
      by_cases hsubject : s.subject? e = some uri
      · have hsubject' : s'.subject? e = some uri := (h.subject? he).trans hsubject
        rw [responsesAbout_of_subject hsubject, responsesAbout_of_subject hsubject'] at hes
        obtain ⟨hfirst, hothers⟩ := List.cons.inj hes
        have hcross : ¬ s.Crosses uri e := by
          intro hcross
          apply hcross.step_not_refused h
          rw [hfirst]
          exact hcross.step_refused
        rintro (hnow | hrest)
        · exact hcross hnow
        · exact ih (h.step he hcross).1 hothers hrest
      · have hsubject' : s'.subject? e ≠ some uri := h.subject? he ▸ hsubject
        rw [responsesAbout_of_not_subject hsubject, responsesAbout_of_not_subject hsubject'] at hes
        have hcross : ¬ s.Crosses uri e := fun hcross => hsubject hcross.2.1
        rintro (hnow | hrest)
        · exact hcross hnow
        · exact ih (h.step he hcross).1 hes hrest

end

theorem alike_initial (files : FileTree) (uri : FileUri) :
    ({ files } : Service).Alike uri { files } :=
  ⟨rfl, rfl, .refl uri _, fun _ => rfl⟩

/-- **Documents do not interfere, except through the numbers of requests.** The events about other
documents can be left out of a run: the same comes back for all events about the document, and it
ends up the same. This fails exactly in those runs in which a request about the document comes while
a request about another one is under way with its number. -/
theorem isolated_iff_not_crossed (files : FileTree) (uri : FileUri) (es : List Event) :
    let s : Service := { files }
    let alone := s.withoutOthers uri es
    (s.responsesAbout uri alone = s.responsesAbout uri es ∧
        (after files alone).server.document? uri = (after files es).server.document? uri) ↔
      ¬ s.Crossed uri es := by
  intro s alone
  have halike := alike_initial files uri
  constructor
  · rintro ⟨hresponses, _⟩
    exact halike.not_crossed hresponses
  · intro hes
    obtain ⟨hresponses, hend⟩ := halike.run hes
    exact ⟨hresponses, hend.server.document⟩

/-- A request for completions comes while the outline of another document is computed under the same
number. It is turned away, so that its document's text is not taken into the index. -/
theorem crossed_request_is_missed :
    let uri : FileUri := ⟨"/w/a.mel".toList, none, none⟩
    let other : FileUri := ⟨"/w/b.mel".toList, none, none⟩
    let es : List Event := [.receive 0 .handshake, .receive 0 (.didOpen uri "$x = 1".toList 1),
      .receive 0 (.didOpen other "$y = 1".toList 1), .startOutline 0 other,
      .receive 0 (.complete uri ⟨0, 0⟩ none), .finishOutline 0, .receive 0 (.outline uri)]
    let s : Service := {}
    let alone := s.withoutOthers uri es
    s.responsesAbout uri alone ≠ s.responsesAbout uri es ∧
      (after {} alone).server.document? uri ≠ (after {} es).server.document? uri := by
  intro uri other es s alone
  constructor
  · intro hresponses
    have hresults := congrArg (List.map fun r => r.answer.result?.isSome) hresponses
    exact absurd hresults (by decide +kernel)
  · intro hdocument
    have hindexed := congrArg (Option.map Document.indexed) hdocument
    exact absurd hindexed (by decide +kernel)

end Service

end MelScript
