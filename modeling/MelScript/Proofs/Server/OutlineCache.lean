import Mathlib.Data.List.Induction
import MelScript.Proofs.Server.Documents

/-! # The outline cache

  A document keeps its outline until it is changed. A request for an outline
  may end long after it has taken the text, and it puts its outline into the
  document that is open then, if version and revision are those that it took.

  - As long as the document is not opened again or closed, an equal revision
    means an equal text (`run_tracks`), and what is kept is right.
  - A document that was opened again starts at revision zero, with any version.
    Both may be those of the old document while the text is another one: the
    request then leaves an outline of a text that is gone. `MixedUp` says that
    this happens in a run.

  The main result is that nothing else makes an outline stale: the kept outlines
  are right throughout a run exactly when the run has no such request.

  Revisions are natural numbers here and do not return to zero.
-/

namespace MelScript

/-! ### Freshness -/

/-- The outline that a document keeps, if any, is that of its present text. -/
def Document.OutlineFresh (d : Document) : Prop :=
  ∀ symbols, d.outline = some symbols → symbols = computeOutline d.text

theorem Document.outlineFresh_of_eq_none {d : Document} (h : d.outline = none) :
    d.OutlineFresh := by
  intro symbols hs
  rw [h] at hs
  cases hs

theorem Document.outline_refreshIndex (d : Document) : d.refreshIndex.outline = d.outline := by
  unfold refreshIndex
  split <;> rfl

theorem Document.text_refreshIndex (d : Document) : d.refreshIndex.text = d.text := by
  unfold refreshIndex
  split <;> rfl

theorem Document.revision_refreshIndex (d : Document) :
    d.refreshIndex.revision = d.revision := by
  unfold refreshIndex
  split <;> rfl

/-- An event that opens or closes the document with a URI. -/
def Event.Reopens (uri : FileUri) : Event → Prop
  | .receive _ (.didOpen other _ _) => other = uri
  | .receive _ (.didClose other) => other = uri
  | _ => False

namespace Service

/-- The outlines that the open documents keep are right. -/
def OutlinesFresh (s : Service) : Prop :=
  ∀ uri d, s.server.document? uri = some d → d.OutlineFresh

theorem outlinesFresh_initial (files : FileTree) : ({ files } : Service).OutlinesFresh := by
  intro uri d hd
  cases hd

/-- One event keeps the outlines right, unless it ends a request whose outline is kept although it
is not that of the document. -/
theorem outlinesFresh_step {s : Service} {e : Event} (hs : s.OutlinesFresh)
    (hkept : ∀ n p d text, e = .finishOutline n → s.pending? n = some p →
      p.request = .computing text d.version d.revision → s.server.document? p.uri = some d →
      Document.computeOutline text = Document.computeOutline d.text) :
    (s.step e).1.OutlinesFresh := by
  intro uri d' hd'
  have htouch := s.step_touch e uri
  rw [hd'] at htouch
  generalize ho : some d' = o at htouch
  cases htouch with
  | untouched => exact hs uri d' ho.symm
  | opened =>
    cases ho
    exact Document.outlineFresh_of_eq_none rfl
  | changed =>
    -- A change forgets the outline.
    cases ho
    exact Document.outlineFresh_of_eq_none rfl
  | closed => cases ho
  | @indexed _ _ _ d hd =>
    cases ho
    intro symbols hsymbols
    rw [Document.outline_refreshIndex] at hsymbols
    rw [Document.text_refreshIndex]
    exact hs uri d hd symbols hsymbols
  | computed hd =>
    cases ho
    intro symbols hsymbols
    exact (Option.some.inj hsymbols).symm
  | @kept n p d text hp hu hreq hd =>
    -- The outline of a text taken earlier: this is where the hypothesis is needed.
    cases ho
    subst hu
    intro symbols hsymbols
    rw [← Option.some.inj hsymbols]
    exact hkept n p d text rfl hp hreq hd

/-! ### Requests under way -/

theorem pending?_receive (s : Service) (k : Nat) (m : Message) (n : Nat) :
    (s.receive k m).1.pending? n = s.pending? n := by
  unfold pending?
  rw [receive_frame]

/-- A request that is under way took a free number and the state of an open document. -/
theorem start_underWay {s : Service} {n : Nat} {uri : FileUri}
    (h : (s.start n uri).2.answer = .underWay) :
    ∃ d, s.server.document? uri = some d ∧
      (s.start n uri).1 =
        { s with pending := ⟨n, uri, .computing d.text d.version d.revision⟩ :: s.pending } := by
  unfold start at h ⊢
  cases hphase : s.phase with
  | fresh => simp [hphase] at h
  | stopped => simp [hphase] at h
  | running =>
    simp only [hphase] at h ⊢
    by_cases huse : s.inUse n
    · simp [huse] at h
    · simp only [huse, Bool.false_eq_true, if_false] at h ⊢
      unfold Server.startOutline at h ⊢
      cases hd : s.server.document? uri with
      | none => simp [hd] at h
      | some d =>
        cases ho : d.outline with
        | some symbols => simp [hd, ho] at h
        | none =>
          cases hl : s.server.limiter with
          | broken => simp [hd, ho, hl] at h
          | permits k => exact ⟨d, rfl, by simp [ho]⟩

/-- A request that is not under way leaves the service as it was. -/
theorem start_eq_self {s : Service} {n : Nat} {uri : FileUri}
    (h : (s.start n uri).2.answer ≠ .underWay) : (s.start n uri).1 = s := by
  unfold start at h ⊢
  split
  · rfl
  · rfl
  · split
    · rfl
    · split
      · rfl
      · simp_all

theorem start_of_inUse {s : Service} {n : Nat} {uri : FileUri} {p : Pending}
    (h : s.pending? n = some p) : (s.start n uri).1 = s := by
  apply start_eq_self
  have huse : s.inUse n = true := by simp [inUse, h]
  unfold start
  split <;> simp [huse]

theorem pending_finish (s : Service) (n : Nat) :
    (s.finish n).1.pending = s.pending.filter fun q => q.number != n := by
  unfold finish
  split
  · next hnone =>
    symm
    rw [List.filter_eq_self]
    intro q hq
    have hnot := List.find?_eq_none.1 hnone q hq
    simpa using hnot
  · rfl

/-- Finishing a request frees its number and no other. -/
theorem pending?_finish (s : Service) (k n : Nat) :
    (s.finish k).1.pending? n = if n = k then none else s.pending? n := by
  unfold pending?
  rw [pending_finish, List.find?_filter]
  split
  · next h =>
    rw [List.find?_eq_none]
    intro q _
    simp [h]
  · next h =>
    congr 1
    funext q
    by_cases hq : q.number = n
    · simp [hq, h]
    · simp [hq]

/-- A request stays under way until it is finished. -/
theorem pending?_step {s : Service} {n : Nat} {p : Pending} {e : Event}
    (hp : s.pending? n = some p) (he : e ≠ .finishOutline n) :
    (s.step e).1.pending? n = some p := by
  cases e with
  | receive k m =>
    show (s.receive k m).1.pending? n = some p
    rw [pending?_receive]
    exact hp
  | startOutline k uri =>
    show (s.start k uri).1.pending? n = some p
    by_cases hk : k = n
    · rw [start_of_inUse (hk ▸ hp)]
      exact hp
    · by_cases hway : (s.start k uri).2.answer = .underWay
      · obtain ⟨d, _, hs'⟩ := start_underWay hway
        rw [hs']
        simpa [pending?, hk] using hp
      · rw [start_eq_self hway]
        exact hp
  | finishOutline k =>
    have hk : n ≠ k := fun h => he (h ▸ rfl)
    show (s.finish k).1.pending? n = some p
    rw [pending?_finish, if_neg hk]
    exact hp
  | write path contents => exact hp

theorem pending?_run {s : Service} {n : Nat} {p : Pending} {es : List Event}
    (hp : s.pending? n = some p) (hes : .finishOutline n ∉ es) :
    (s.run es).1.pending? n = some p := by
  induction es generalizing s with
  | nil => exact hp
  | cons e es ih =>
    have he : e ≠ .finishOutline n := fun h => hes (h ▸ List.mem_cons_self)
    exact ih (pending?_step hp he) fun h => hes (List.mem_cons_of_mem e h)

/-- A request for the outline of a document was started after the events `before`, when the
document was `d`, and it has not ended in the events `between` since then. -/
structure UnderWay (files : FileTree) (before between : List Event) (n : Nat) (uri : FileUri)
    (d : Document) : Prop where
  started : ((after files before).start n uri).2.answer = .underWay
  taken : (after files before).server.document? uri = some d
  unfinished : .finishOutline n ∉ between

/-- What a request has taken from the document is what the document was at its start. -/
theorem UnderWay.pending? {files : FileTree} {before between : List Event} {n : Nat}
    {uri : FileUri} {d : Document} (h : UnderWay files before between n uri d) :
    (after files (before ++ .startOutline n uri :: between)).pending? n =
      some ⟨n, uri, .computing d.text d.version d.revision⟩ := by
  obtain ⟨d', hd', hstart⟩ := start_underWay h.started
  rw [h.taken] at hd'
  cases hd'
  rw [after_append]
  apply pending?_run (s := ((after files before).start n uri).1) _ h.unfinished
  rw [hstart]
  simp [Service.pending?]

/-- Every request that is under way was started in the run. -/
theorem exists_underWay {files : FileTree} {es : List Event} {n : Nat} {p : Pending}
    (hp : (after files es).pending? n = some p) :
    ∃ before between d, es = before ++ .startOutline n p.uri :: between ∧
      UnderWay files before between n p.uri d := by
  induction es using List.reverseRecOn generalizing p with
  | nil => cases hp
  | append_singleton es e ih =>
    rw [after_concat] at hp
    cases hold : (after files es).pending? n with
    | some q =>
      -- The number was in use before the last event, so it is still the same request.
      have hne : e ≠ .finishOutline n := by
        rintro rfl
        have hgone : ((after files es).finish n).1.pending? n = some p := hp
        rw [pending?_finish, if_pos rfl] at hgone
        cases hgone
      have hsame := (pending?_step hold hne).symm.trans hp
      cases hsame
      obtain ⟨before, between, d, hes, hway⟩ := ih hold
      refine ⟨before, between ++ [e], d, by simp [hes], hway.started, hway.taken, ?_⟩
      intro hmem
      rcases List.mem_append.1 hmem with hmem | hmem
      · exact hway.unfinished hmem
      · exact hne (List.mem_singleton.1 hmem).symm
    | none =>
      -- The number was free, so the last event has started the request.
      cases e with
      | receive k m =>
        have hnone : ((after files es).receive k m).1.pending? n = some p := hp
        rw [pending?_receive, hold] at hnone
        cases hnone
      | write path contents =>
        have hnone := hold.symm.trans hp
        cases hnone
      | finishOutline k =>
        have hnone : ((after files es).finish k).1.pending? n = some p := hp
        rw [pending?_finish, hold, ite_self] at hnone
        cases hnone
      | startOutline k uri =>
        by_cases hway : ((after files es).start k uri).2.answer = .underWay
        · obtain ⟨d, hd, hstart⟩ := start_underWay hway
          have hp' : ((after files es).start k uri).1.pending? n = some p := hp
          rw [hstart] at hp'
          by_cases hk : k = n
          · subst hk
            simp only [Service.pending?, List.find?_cons, beq_self_eq_true] at hp'
            cases hp'
            exact ⟨es, [], d, rfl, hway, hd, List.not_mem_nil⟩
          · have hnone : (after files es).pending? n = some p := by
              simpa [Service.pending?, hk] using hp'
            rw [hold] at hnone
            cases hnone
        · have hsame : ((after files es).start k uri).1.pending? n = some p := hp
          rw [start_eq_self hway, hold] at hsame
          cases hsame

/-! ### Documents that stay open -/

/-- A document is open that was `d` and has perhaps been changed since: its revision is not lower,
and an equal revision means an equal text. -/
def Tracks (d : Document) (now : Option Document) : Prop :=
  ∃ d', now = some d' ∧ d.revision ≤ d'.revision ∧ (d'.revision = d.revision → d'.text = d.text)

theorem tracks_self (d : Document) : Tracks d (some d) := ⟨d, rfl, Nat.le_refl _, fun _ => rfl⟩

theorem step_tracks {s : Service} {uri : FileUri} {d : Document} {e : Event}
    (h : Tracks d (s.server.document? uri)) (he : ¬ e.Reopens uri) :
    Tracks d ((s.step e).1.server.document? uri) := by
  obtain ⟨d', hd', hle, htext⟩ := h
  have htouch := s.step_touch e uri
  generalize (s.step e).1.server.document? uri = now at htouch ⊢
  cases htouch with
  | untouched => exact ⟨d', hd', hle, htext⟩
  | opened => exact absurd rfl he
  | closed => exact absurd rfl he
  | @changed n version edits =>
    -- A change raises the revision, so it can no longer be that of `d`.
    refine ⟨d'.change version edits, by simp [hd'], ?_, ?_⟩
    · show d.revision ≤ d'.revision + 1
      omega
    · intro hrev
      have hrev' : d'.revision + 1 = d.revision := hrev
      omega
  | indexed hopen =>
    rw [hd'] at hopen
    cases hopen
    refine ⟨d'.refreshIndex, rfl, ?_, ?_⟩
    · rw [Document.revision_refreshIndex]
      exact hle
    · rw [Document.revision_refreshIndex, Document.text_refreshIndex]
      exact htext
  | computed hopen =>
    rw [hd'] at hopen
    cases hopen
    exact ⟨_, rfl, hle, htext⟩
  | kept _ _ _ hopen =>
    rw [hd'] at hopen
    cases hopen
    exact ⟨_, rfl, hle, htext⟩

theorem run_tracks {s : Service} {uri : FileUri} {d : Document} {es : List Event}
    (h : Tracks d (s.server.document? uri)) (hes : ∀ e ∈ es, ¬ e.Reopens uri) :
    Tracks d ((s.run es).1.server.document? uri) := by
  induction es generalizing s with
  | nil => exact h
  | cons e es ih =>
    have hstep := step_tracks h (hes e List.mem_cons_self)
    exact ih hstep fun e' he' => hes e' (List.mem_cons_of_mem e he')

/-- While a request is under way and its document is not opened again, an equal revision means that
the text is still the one that was taken. -/
theorem UnderWay.text_eq {files : FileTree} {before between : List Event} {n : Nat}
    {uri : FileUri} {d d' : Document} (h : UnderWay files before between n uri d)
    (hno : ∀ e ∈ between, ¬ e.Reopens uri)
    (hd' : (after files (before ++ .startOutline n uri :: between)).server.document? uri = some d')
    (hrev : d'.revision = d.revision) : d'.text = d.text := by
  have htracks : Tracks d ((after files before).server.document? uri) := by
    rw [h.taken]
    exact tracks_self d
  have hend : Tracks d (((after files before).run (.startOutline n uri :: between)).1.server.document?
      uri) := by
    apply run_tracks htracks
    intro e he
    rcases List.mem_cons.1 he with rfl | he
    · exact id
    · exact hno e he
  rw [← after_append, hd'] at hend
  obtain ⟨d'', hd'', _, htext⟩ := hend
  cases hd''
  exact htext hrev

/-! ### Mix-ups -/

/-- In a run a request for an outline ends on another document than the one it was started on:
the document was opened or closed in between, the one that is open at the end has the version and
the revision of the first one, but its text has another outline. -/
inductive MixedUp (files : FileTree) : List Event → Prop where
  | intro {before between rest : List Event} {n : Nat} {uri : FileUri} {d d' : Document}
      (way : UnderWay files before between n uri d)
      (reopened : ∃ e ∈ between, e.Reopens uri)
      (found : (after files (before ++ .startOutline n uri :: between)).server.document? uri =
        some d')
      (version : d'.version = d.version)
      (revision : d'.revision = d.revision)
      (differ : Document.computeOutline d.text ≠ Document.computeOutline d'.text) :
      MixedUp files (before ++ .startOutline n uri :: between ++ .finishOutline n :: rest)

/-- Without a mix-up the kept outlines are right, at every time of the run. -/
theorem outlinesFresh_of_not_mixedUp {files : FileTree} {es es' : List Event}
    (hno : ¬ MixedUp files es) (hes' : es' <+: es) : (after files es').OutlinesFresh := by
  induction es' using List.reverseRecOn with
  | nil => exact outlinesFresh_initial files
  | append_singleton es' e ih =>
    rw [after_concat]
    apply outlinesFresh_step (ih ((List.prefix_append es' [e]).trans hes'))
    rintro n p d' text rfl hp hreq hd'
    -- The request that ends was started in the run, on a document `d`.
    obtain ⟨before, between, d, rfl, hway⟩ := exists_underWay hp
    have hsome := hp.symm.trans hway.pending?
    have hrequest := congrArg Pending.request (Option.some.inj hsome)
    rw [hreq] at hrequest
    injection hrequest with htext hversion hrevision
    subst htext
    by_cases hreopened : ∃ e ∈ between, e.Reopens p.uri
    · -- Had the two texts different outlines, this would be a mix-up.
      by_contra hdiffer
      obtain ⟨rest, rfl⟩ := hes'
      apply hno
      rw [List.append_assoc]
      exact .intro hway hreopened hd' hversion hrevision hdiffer
    · have hnone : ∀ e ∈ between, ¬ e.Reopens p.uri := fun e he h => hreopened ⟨e, he, h⟩
      rw [hway.text_eq hnone hd' hrevision]

theorem document?_finish {s : Service} {n : Nat} {uri : FileUri} {text : Text} {d : Document}
    (hp : s.pending? n = some ⟨n, uri, .computing text d.version d.revision⟩)
    (hd : s.server.document? uri = some d) :
    (s.finish n).1.server.document? uri =
      some { d with outline := some (Document.computeOutline text) } := by
  simp [finish, hp, Server.finishOutline, Server.keepOutline, hd, Server.document?_putDocument]

/-- After a mix-up a document keeps an outline that is not its own. -/
theorem not_outlinesFresh_of_mixedUp {files : FileTree} {es : List Event}
    (h : MixedUp files es) : ∃ es', es' <+: es ∧ ¬ (after files es').OutlinesFresh := by
  cases h with
  | @intro before between rest n uri d d' way _ found version revision differ =>
    refine ⟨before ++ .startOutline n uri :: between ++ [.finishOutline n], ?_, ?_⟩
    · exact ⟨rest, by simp⟩
    · intro hfresh
      rw [after_concat] at hfresh
      have hp := way.pending?
      rw [← version, ← revision] at hp
      exact differ (hfresh uri _ (document?_finish hp found) _ rfl)

/-- **The kept outlines are right throughout a run exactly when the run has no mix-up.** -/
theorem outlines_fresh_throughout_iff (files : FileTree) (es : List Event) :
    (∀ es', es' <+: es → (after files es').OutlinesFresh) ↔ ¬ MixedUp files es := by
  constructor
  · intro hfresh hmixed
    obtain ⟨es', hes', hstale⟩ := not_outlinesFresh_of_mixedUp hmixed
    exact hstale (hfresh es' hes')
  · intro hno es' hes'
    exact outlinesFresh_of_not_mixedUp hno hes'

/-- A document that is opened a second time, with the same version, while its outline is being
computed. -/
theorem reopened_document_keeps_stale_outline :
    ¬ (after {} [.receive 0 .handshake,
        .receive 0 (.didOpen ⟨"/w/a.mel".toList, none, none⟩ "proc a() \x7b\x7d".toList 1),
        .startOutline 1 ⟨"/w/a.mel".toList, none, none⟩,
        .receive 0 (.didOpen ⟨"/w/a.mel".toList, none, none⟩ "$b = 1;".toList 1),
        .finishOutline 1]).OutlinesFresh := by
  intro hfresh
  have hstale := hfresh ⟨"/w/a.mel".toList, none, none⟩ _ rfl _ rfl
  have hnames := congrArg (List.map Symbol.name) hstale
  revert hnames
  decide +kernel

end Service

end MelScript
