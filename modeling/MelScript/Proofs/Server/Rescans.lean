import Mathlib.Data.List.Infix
import MelScript.Proofs.Server.Replay
import MelScript.Proofs.Server.Veils
import MelScript.Proofs.Vocabulary.ClosedForm

/-! # Texts that are not taken again

  A completion request takes the text of its document into the index, unless it
  is the text that was taken last. Whether it is, is told by a digest of the
  texts: the server compares that of the present text to the one that it has
  kept.

  - Taking a text twice comes to the same as taking it once (`Index.after_after`).
    So what a document has taken last would change nothing, however often the
    document was edited since then (`Document.CaughtUp`).
  - `Service.stepBy` is a service in which the way to bring an index up to date is
    a parameter: to take the text on every request, or to compare digests.
  - If a way is as good as the service's own, as far as a veil lets see
    (`Faithful`), then the runs are the same behind the veil (`run_same`).

  The main result compares the answers about one document. It needs a digest that
  tells the texts of this document apart, and none of the others.
-/

namespace MelScript

/-! ### Taking a text twice -/

namespace Index

theorem foldl_take_of_seen {s : Index × Growth} {fs : List Text} (h : ∀ f ∈ fs, f ∈ s.1.seen) :
    fs.foldl take s = s := by
  induction fs with
  | nil => rfl
  | cons f fs ih =>
    rw [List.foldl_cons, take_of_seen (h f List.mem_cons_self)]
    exact ih fun f' hf' => h f' (List.mem_cons_of_mem f hf')

/-- A fragment that is taken has been met then, and so have all that were met before. -/
theorem mem_seen_take (s : Index × Growth) (f f' : Text) :
    f' ∈ (take s f).1.seen ↔ f' = f ∨ f' ∈ s.1.seen := by
  by_cases hseen : f ∈ s.1.seen
  · rw [take_of_seen hseen]
    constructor
    · exact .inr
    · rintro (rfl | hf')
      · exact hseen
      · exact hf'
  · by_cases hknown : isNumeric f.fragmentName = true ∨ f.fragmentName ∈ s.1.vocabulary
    · rw [take_of_known hseen hknown]
      exact List.mem_cons
    · rw [not_or, Bool.not_eq_true] at hknown
      rw [take_of_new hseen hknown.1 hknown.2]
      split <;> exact List.mem_cons

theorem mem_seen_foldl_take (fs : List Text) (s : Index × Growth) (f : Text) :
    f ∈ (fs.foldl take s).1.seen ↔ f ∈ fs ∨ f ∈ s.1.seen := by
  induction fs generalizing s with
  | nil => simp
  | cons f' fs ih =>
    rw [List.foldl_cons, ih, mem_seen_take, List.mem_cons, ← or_assoc, or_comm (a := f ∈ fs)]

/-- A text that is taken again changes nothing. -/
theorem after_after (index : Index) (t : Text) : (index.after t).after t = index.after t := by
  by_cases ht : t.isEmpty
  · simp [after, add, ht]
  · have hafter : ∀ i : Index, i.after t = (t.fragments.foldl take (i, {})).1 := by
      intro i
      simp [after, add, ht]
    have hseen : ∀ f ∈ t.fragments, f ∈ (index.after t).seen := by
      intro f hf
      rw [hafter, mem_seen_foldl_take]
      exact .inl hf
    rw [hafter (index.after t), foldl_take_of_seen (s := (index.after t, {})) hseen]

end Index

theorem Session.refresh_refresh (s : Session) (t : Text) :
    ((s.refresh t).1.refresh t).1 = (s.refresh t).1 := by
  show Session.mk ((s.index.after t).after t) s.commands = _
  rw [Index.after_after]
  rfl

/-! ### Bringing an index up to date -/

namespace Document

/-- The document with its present text in the index, taken anew in any case. -/
def rescan (d : Document) : Document :=
  { d with session := (d.session.refresh d.text).1, indexed := some d.text }

/-- The document with its present text in the index. Nothing is taken if the digest of the text is
that of the text that was taken last, of which a server need not know more. -/
def refreshIndexBy {κ : Type} [DecidableEq κ] (digest : Text → κ) (d : Document) : Document :=
  if d.indexed.map digest = some (digest d.text) then d else d.rescan

/-- The text that was taken last would change nothing if it was taken again. -/
def CaughtUp (d : Document) : Prop :=
  ∀ t, d.indexed = some t → (d.session.refresh t).1 = d.session

theorem caughtUp_rescan (d : Document) : d.rescan.CaughtUp := by
  intro t ht
  cases ht
  exact d.session.refresh_refresh d.text

theorem CaughtUp.refreshIndex {d : Document} (h : d.CaughtUp) : d.refreshIndex.CaughtUp := by
  unfold Document.refreshIndex
  split
  · exact h
  · exact d.caughtUp_rescan

/-- A document that is caught up comes out the same with and without a scan. -/
theorem CaughtUp.hide_refreshIndex {d : Document} (h : d.CaughtUp) (uri : FileUri) :
    Veil.memory.hide uri d.refreshIndex = Veil.memory.hide uri d.rescan := by
  unfold Document.refreshIndex
  split
  · next hsame =>
    show _ = { d with session := (d.session.refresh d.text).1, indexed := none }
    rw [h d.text hsame]
    rfl
  · rfl

theorem indexed_refreshIndex (d : Document) : d.refreshIndex.indexed = some d.text := by
  unfold refreshIndex
  split
  · next hsame => exact hsame
  · rfl

/-- A scan does not depend on what was remembered. -/
theorem rescan_hide (d : Document) (uri : FileUri) :
    (Veil.memory.hide uri d).rescan = d.rescan := rfl

/-- A digest that tells the last text from the present one does as well as the text itself. -/
theorem refreshIndexBy_eq {κ : Type} [DecidableEq κ] {digest : Text → κ} {d : Document}
    (h : ∀ t, d.indexed = some t → digest t = digest d.text → t = d.text) :
    d.refreshIndexBy digest = d.refreshIndex := by
  have hiff : d.indexed.map digest = some (digest d.text) ↔ d.indexed = some d.text := by
    constructor
    · intro hdigest
      obtain ⟨t, ht, heq⟩ := Option.map_eq_some_iff.1 hdigest
      rw [ht, h t ht heq]
    · intro hsame
      rw [hsame]
      rfl
  unfold refreshIndexBy refreshIndex
  by_cases hsame : d.indexed = some d.text
  · rw [if_pos (hiff.2 hsame), if_pos hsame]
  · rw [if_neg (mt hiff.1 hsame), if_neg hsame]
    rfl

/-- What completion offers when the index is brought up to date in some way. -/
def completeBy (refresh : Document → Document) (d : Document) (p : Position)
    (trigger : Option Text) : Document × List Completion :=
  let variablesOnly := trigger == some ['$'] || d.text.typingVariable p
  let d := refresh d
  (d, if variablesOnly then d.session.variableCompletions else d.session.generalCompletions)

end Document

/-! ### Servers that do it in their own way -/

/-- Completion in a server that brings an index up to date in some way. -/
def Server.completeBy (refresh : Document → Document) (s : Server) (uri : FileUri)
    (p : Position) (trigger : Option Text) : Server × Option (List Completion) :=
  match s.document? uri with
  | none => (s, none)
  | some d =>
    let (d, offered) := d.completeBy refresh p trigger
    (s.putDocument uri d, some offered)

namespace Service

variable {refresh : Document → Document}

/-- The answer to a completion request. -/
def completeBy (refresh : Document → Document) (s : Service) (uri : FileUri) (p : Position)
    (trigger : Option Text) : Service × Response :=
  let (server, offered) := s.server.completeBy refresh uri p trigger
  ({ s with server }, { answer := .completions (offered.map Completion.shown) })

/-- What an event does in a service that brings an index up to date in some way. -/
def stepBy (refresh : Document → Document) (s : Service) : Event → Service × Response
  | .receive n (.complete uri p trigger) =>
    if s.phase = .running ∧ s.inUse n = false then s.completeBy refresh uri p trigger
    else s.step (.receive n (.complete uri p trigger))
  | e => s.step e

/-- What a sequence of events does in such a service. -/
def runBy (refresh : Document → Document) (s : Service) : List Event → Service × List Response
  | [] => (s, [])
  | e :: es =>
    let (s, r) := s.stepBy refresh e
    let (s, rs) := s.runBy refresh es
    (s, r :: rs)

theorem runBy_cons (s : Service) (e : Event) (es : List Event) :
    s.runBy refresh (e :: es) =
      (((s.stepBy refresh e).1.runBy refresh es).1,
        (s.stepBy refresh e).2 :: ((s.stepBy refresh e).1.runBy refresh es).2) := rfl

theorem completeBy_of_none {s : Service} {uri : FileUri}
    (hd : s.server.document? uri = none) (p : Position) (trigger : Option Text) :
    s.completeBy refresh uri p trigger = (s, { answer := .completions none }) := by
  unfold completeBy Server.completeBy
  rw [hd]
  rfl

theorem completeBy_of_some {s : Service} {uri : FileUri} {d : Document}
    (hd : s.server.document? uri = some d) (p : Position) (trigger : Option Text) :
    s.completeBy refresh uri p trigger =
      ({ s with server := s.server.putDocument uri (refresh d) },
        { answer := .completions (some (Completion.shown
            (if trigger == some ['$'] || d.text.typingVariable p then
              (refresh d).session.variableCompletions
            else (refresh d).session.generalCompletions))) }) := by
  unfold completeBy Server.completeBy
  rw [hd]
  rfl

theorem stepBy_of_not_completes {s : Service} {e : Event} (h : ¬ s.Completes e) :
    s.stepBy refresh e = s.step e := by
  unfold stepBy
  split
  · next n uri p trigger =>
    apply if_neg
    intro hhandled
    exact h ⟨n, uri, p, trigger, rfl, hhandled⟩
  · rfl

/-- The service itself brings an index up to date unless the text is the last one that was taken. -/
theorem stepBy_refreshIndex (s : Service) (e : Event) :
    s.stepBy Document.refreshIndex e = s.step e := by
  by_cases hcompletes : s.Completes e
  · obtain ⟨n, uri, p, trigger, rfl, hphase, hfree⟩ := hcompletes
    rw [step_of_free hphase hfree]
    exact if_pos ⟨hphase, hfree⟩
  · exact stepBy_of_not_completes hcompletes

/-! ### Runs behind a veil -/

/-- A way to bring an index up to date does the same as the service's own to all documents of a run,
as far as a veil lets see. -/
def Faithful (v : Veil) (refresh : Document → Document) (files : FileTree) (es : List Event) :
    Prop :=
  ∀ before uri d d', before <+: es → (after files before).server.document? uri = some d →
    v.hide uri d = v.hide uri d' → v.hide uri d.refreshIndex = v.hide uri (refresh d')

/-- A veil does not hide the sessions of documents with a URI. -/
def Shows (v : Veil) (uri : FileUri) : Prop := ∀ d, (v.hide uri d).session = d.session

section

variable {v : Veil} {s s' : Service}

/-- Services that are the same behind a veil find the same documents there. -/
theorem document?_behind (h : s.veil v = s'.veil v) (uri : FileUri) :
    (s.server.document? uri).map (v.hide uri) = (s'.server.document? uri).map (v.hide uri) := by
  rw [← Server.document?_veil, ← Server.document?_veil]
  exact congrArg (fun s => s.server.document? uri) h

theorem session_behind (h : s.veil v = s'.veil v) {uri : FileUri} (hshows : Shows v uri) :
    (s.server.document? uri).map (·.session) = (s'.server.document? uri).map (·.session) := by
  have hfound := congrArg (Option.map Document.session) (document?_behind h uri)
  have hsession : Document.session ∘ v.hide uri = Document.session := funext hshows
  rw [Option.map_map, Option.map_map, hsession] at hfound
  exact hfound

theorem completeBy_behind {refresh' : Document → Document} {uri : FileUri}
    (h : s.veil v = s'.veil v)
    (hrefresh : ∀ d d', s.server.document? uri = some d → v.hide uri d = v.hide uri d' →
      v.hide uri (refresh d) = v.hide uri (refresh' d')) (p : Position)
    (trigger : Option Text) :
    (s.completeBy refresh uri p trigger).1.veil v =
        (s'.completeBy refresh' uri p trigger).1.veil v ∧
      (Shows v uri → (s.completeBy refresh uri p trigger).2 =
        (s'.completeBy refresh' uri p trigger).2) := by
  have hfound := document?_behind h uri
  cases hd : s.server.document? uri with
  | none =>
    rw [hd] at hfound
    have hd' : s'.server.document? uri = none := Option.map_eq_none_iff.1 hfound.symm
    rw [completeBy_of_none hd, completeBy_of_none hd']
    exact ⟨h, fun _ => rfl⟩
  | some d =>
    rw [hd] at hfound
    obtain ⟨d', hd', hbefore⟩ := Option.map_eq_some_iff.1 hfound.symm
    have hafter := hrefresh d d' hd hbefore.symm
    rw [completeBy_of_some hd, completeBy_of_some hd']
    constructor
    · exact veil_putDocument h hafter
    · intro hshows
      have htext : d.text = d'.text := by
        rw [← v.text uri d, ← v.text uri d', hbefore]
      have hsession : (refresh d).session = (refresh' d').session := by
        rw [← hshows (refresh d), ← hshows (refresh' d'), hafter]
      rw [htext, hsession]

/-- One event: services that are the same behind a veil stay so. What comes back is the same, except
that an answer to a completion request may show what is hidden. -/
theorem stepBy_behind {refresh' : Document → Document} (h : s.veil v = s'.veil v)
    (hrefresh : ∀ uri d d', s.server.document? uri = some d → v.hide uri d = v.hide uri d' →
      v.hide uri (refresh d) = v.hide uri (refresh' d')) (e : Event) :
    (s.stepBy refresh e).1.veil v = (s'.stepBy refresh' e).1.veil v ∧
      ((∀ n uri p trigger, e = .receive n (.complete uri p trigger) → Shows v uri) →
        (s.stepBy refresh e).2 = (s'.stepBy refresh' e).2) := by
  have hphase : s.phase = s'.phase := congrArg (fun s => s.phase) h
  have huse : ∀ n, s.inUse n = s'.inUse n := fun n => congrArg (fun s => s.inUse n) h
  by_cases hcompletes : s.Completes e
  · obtain ⟨n, uri, p, trigger, rfl, hrunning, hfree⟩ := hcompletes
    have hstep : s.stepBy refresh (.receive n (.complete uri p trigger)) =
        s.completeBy refresh uri p trigger := if_pos ⟨hrunning, hfree⟩
    have hstep' : s'.stepBy refresh' (.receive n (.complete uri p trigger)) =
        s'.completeBy refresh' uri p trigger := if_pos ⟨hphase ▸ hrunning, huse n ▸ hfree⟩
    rw [hstep, hstep']
    obtain ⟨hstate, hresponse⟩ := completeBy_behind h (hrefresh uri) p trigger
    exact ⟨hstate, fun hshows => hresponse (hshows n uri p trigger rfl)⟩
  · -- All other events do the same behind any veil.
    have hcompletes' : ¬ s'.Completes e := by
      rintro ⟨n, uri, p, trigger, heq, hrunning, hfree⟩
      exact hcompletes ⟨n, uri, p, trigger, heq, hphase ▸ hrunning, huse n ▸ hfree⟩
    rw [stepBy_of_not_completes hcompletes, stepBy_of_not_completes hcompletes']
    have hsame := step_behind h hcompletes hcompletes'
    exact ⟨hsame.state, fun _ => hsame.response⟩

end

/-- A run from the state after some events. The induction is on the events that are left; behind the
veil both services are at the same place. -/
theorem run_same {v : Veil} {files : FileTree} (s' : Service) (before es : List Event)
    (hfaithful : Faithful v refresh files (before ++ es))
    (h : (after files before).veil v = s'.veil v) :
    ((after files before).run es).1.veil v = (s'.runBy refresh es).1.veil v ∧
      ∀ i : Nat, (∀ n uri p trigger, es[i]? = some (Event.receive n (.complete uri p trigger)) →
          Shows v uri) →
        ((after files before).run es).2[i]? = (s'.runBy refresh es).2[i]? := by
  induction es generalizing before s' with
  | nil => exact ⟨h, fun _ _ => rfl⟩
  | cons e es ih =>
    have hrefresh : ∀ uri d d', (after files before).server.document? uri = some d →
        v.hide uri d = v.hide uri d' → v.hide uri d.refreshIndex = v.hide uri (refresh d') :=
      fun uri d d' => hfaithful before uri d d' (List.prefix_append _ _)
    obtain ⟨hstate, hresponse⟩ := stepBy_behind h hrefresh e
    rw [stepBy_refreshIndex, ← after_concat] at hstate
    rw [stepBy_refreshIndex] at hresponse
    have hfaithful' : Faithful v refresh files (before ++ [e] ++ es) := by
      rw [List.append_assoc]
      exact hfaithful
    obtain ⟨hend, hrest⟩ := ih _ (before ++ [e]) hfaithful' hstate
    rw [after_concat] at hend hrest
    rw [runBy_cons]
    refine ⟨hend, ?_⟩
    intro i hshows
    cases i with
    | zero =>
      have hfirst := hresponse fun n uri p trigger he => hshows n uri p trigger (congrArg some he)
      exact congrArg some hfirst
    | succ i => exact hrest i hshows

/-! ### Taking every text -/

/-- What the documents have taken last would change nothing. -/
theorem caughtUp_after {files : FileTree} {es : List Event} {uri : FileUri} {d : Document}
    (hd : (after files es).server.document? uri = some d) : d.CaughtUp := by
  refine document_rule (P := fun _ d => d.CaughtUp) ?_ ?_ ?_ hd
  · -- A new document has taken nothing yet.
    intro _ _ text version _ t ht
    cases ht
  · intro _ _ version edits _ _ t ht
    cases ht
  · intro _ _ d d' _ hcaughtUp _ hfollows
    cases hfollows with
    | same => exact hcaughtUp
    | changed version edits => exact hcaughtUp
    | indexed => exact hcaughtUp.refreshIndex
    | outlined symbols => exact hcaughtUp

theorem faithful_rescan (files : FileTree) (es : List Event) :
    Faithful Veil.memory Document.rescan files es := by
  intro before uri d d' _ hd hbefore
  rw [(caughtUp_after hd).hide_refreshIndex, ← d.rescan_hide uri, hbefore, d'.rescan_hide]

/-! ### Digests -/

/-- A text that a document had at some time since it was opened. -/
inductive HadText (files : FileTree) (uri : FileUri) : List Event → Text → Prop where
  /-- It has the text now. -/
  | now {es : List Event} {t : Text}
      (found : ((after files es).server.document? uri).map (·.text) = some t) :
      HadText files uri es t
  /-- It had the text before an event that does not open or close it. -/
  | earlier {es : List Event} {t : Text} {e : Event} (had : HadText files uri es t)
      (quiet : ∀ m, (after files es).phase.heeds? e = some m → ¬ m.Reopens uri) :
      HadText files uri (es ++ [e]) t

/-- A digest gives different values to the different texts that a document has while it is open. -/
def Separates {κ : Type} (digest : Text → κ) (files : FileTree) (uri : FileUri)
    (es : List Event) : Prop :=
  ∀ before t t', before <+: es → HadText files uri before t → HadText files uri before t' →
    digest t = digest t' → t = t'

theorem HadText.exists_replay {files : FileTree} {uri : FileUri} {es : List Event} {t : Text}
    (h : HadText files uri es t) :
    ∃ before, before <+: es ∧ replay uri (heeded before) = some t := by
  induction h with
  | @now es t found => exact ⟨es, List.prefix_rfl, text_after files es uri ▸ found⟩
  | earlier _ _ ih =>
    obtain ⟨before, hprefix, ht⟩ := ih
    exact ⟨before, hprefix.trans (List.prefix_append _ _), ht⟩

/-- What a document has taken last is a text that it had since it was opened. -/
theorem hadText_of_indexed {files : FileTree} {uri : FileUri} {es : List Event} {d : Document}
    {t : Text} (hd : (after files es).server.document? uri = some d)
    (ht : d.indexed = some t) : HadText files uri es t := by
  have hall : ∀ t, d.indexed = some t → HadText files uri es t := by
    refine document_rule (P := fun es d => ∀ t, d.indexed = some t → HadText files uri es t)
      ?_ ?_ ?_ hd
    · intro _ _ text version _ t ht
      cases ht
    · intro _ _ version edits _ _ t ht
      cases ht
    · intro es e d d' hd hhad hquiet hfollows t ht
      cases hfollows with
      | same => exact (hhad t ht).earlier hquiet
      | changed version edits => exact (hhad t ht).earlier hquiet
      | outlined symbols => exact (hhad t ht).earlier hquiet
      | indexed =>
        -- Whether or not it was scanned, the text that was taken last is the one it has.
        rw [Document.indexed_refreshIndex] at ht
        have hpresent : HadText files uri es t := by
          apply HadText.now
          rw [hd]
          exact ht
        exact hpresent.earlier hquiet
  exact hall t ht

/-- A digest need not tell apart the texts of documents that are hidden. -/
theorem faithful_digest {κ : Type} [DecidableEq κ] {digest : Text → κ} {files : FileTree}
    {uri : FileUri} {es : List Event} (h : Separates digest files uri es) :
    Faithful (.others uri) (Document.refreshIndexBy digest) files es := by
  intro before other d d' hprefix hd hsame
  by_cases hother : other = uri
  · subst hother
    rw [Veil.hide_others_self, Veil.hide_others_self] at hsame
    subst hsame
    -- The text that was taken last and the present one are both texts of this document.
    have hdigest : d.refreshIndexBy digest = d.refreshIndex := by
      apply Document.refreshIndexBy_eq
      intro t ht
      have hpresent : HadText files other before d.text := .now (by rw [hd]; rfl)
      exact h before t d.text hprefix (hadText_of_indexed hd ht) hpresent
    rw [hdigest]
  · -- Of a document that is hidden, all that a scan changes is hidden.
    have hscan : ∀ d : Document, (Veil.others uri).hide other d.rescan =
        (Veil.others uri).hide other d := by
      intro d
      rw [Veil.hide_others_of_ne hother, Veil.hide_others_of_ne hother]
      rfl
    have hown : (Veil.others uri).hide other d.refreshIndex = (Veil.others uri).hide other d := by
      unfold Document.refreshIndex
      split
      · rfl
      · exact hscan d
    have hdigest : (Veil.others uri).hide other (d'.refreshIndexBy digest) =
        (Veil.others uri).hide other d' := by
      unfold Document.refreshIndexBy
      split
      · rfl
      · exact hscan d'
    rw [hown, hdigest, hsame]

/-- **Texts that are not taken again are not missed.** The digest is to tell apart the texts that a
document has while it is open. Whether a server keeps the text that it has taken last or only its
digest, it answers completion requests for the document like a server that takes the text on every
such request, and it ends up with the same session. -/
theorem skipped_rescans_are_invisible {κ : Type} [DecidableEq κ] {digest : Text → κ}
    {files : FileTree} {uri : FileUri} {es : List Event}
    (h : Separates digest files uri es) :
    let s : Service := { files }
    let rescanned := s.runBy Document.rescan es
    ∀ skipped ∈ [s.run es, s.runBy (Document.refreshIndexBy digest) es],
      (∀ (i : Nat) n p trigger, es[i]? = some (Event.receive n (.complete uri p trigger)) →
          skipped.2[i]? = rescanned.2[i]?) ∧
        (skipped.1.server.document? uri).map (·.session) =
          (rescanned.1.server.document? uri).map (·.session) := by
  intro s rescanned
  have hmemory : Shows Veil.memory uri := fun _ => rfl
  have hothers : Shows (.others uri) uri := fun d => by rw [Veil.hide_others_self]
  -- Both other services are compared to the service itself, each behind a veil of its own.
  obtain ⟨hrescanned, hanswers⟩ := run_same s [] es (faithful_rescan files es) rfl
  obtain ⟨hhashed, hanswers'⟩ := run_same s [] es (faithful_digest h) rfl
  have hfirst : ∀ (i : Nat) n p trigger,
      es[i]? = some (Event.receive n (.complete uri p trigger)) →
      (s.run es).2[i]? = rescanned.2[i]? :=
    fun i n p trigger _ => hanswers i fun _ _ _ _ _ _ => rfl
  have hsession := session_behind hrescanned hmemory
  intro skipped hskipped
  rcases List.mem_pair.1 hskipped with rfl | rfl
  · exact ⟨hfirst, hsession⟩
  · refine ⟨?_, (session_behind hhashed hothers).symm.trans hsession⟩
    intro i n p trigger hi
    rw [← hfirst i n p trigger hi]
    refine (hanswers' i ?_).symm
    intro n' other p' trigger' hi'
    rw [hi] at hi'
    cases hi'
    exact hothers

/-- A document is edited, asked about twice, and edited back to its first text and to none. The
digest is given by its values for the three texts. -/
theorem skipped_rescans_of_returning_text :
    let uri : FileUri := ⟨"/w/a.mel".toList, none, none⟩
    let digest : Text → UInt64 := fun t =>
      if t = "$a".toList then 0xd7002ace73c5bfb9
      else if t = "$a b".toList then 0x809e96d3d00c3903
      else 0x95634172a60b7544
    let edited : Int → Text → Event := fun version t =>
      .receive 0 (.didChange uri version [⟨none, t⟩])
    let asked : Event := .receive 0 (.complete uri ⟨0, 0⟩ none)
    let es : List Event := [.receive 0 .handshake, .receive 0 (.didOpen uri "$a".toList 1), asked,
      edited 2 "$a b".toList, asked, asked, edited 3 "$a".toList, asked, edited 4 [], asked]
    let skipped := ({} : Service).runBy (Document.refreshIndexBy digest) es
    let rescanned := ({} : Service).runBy Document.rescan es
    Separates digest {} uri es ∧ skipped.2[9]? = rescanned.2[9]? ∧
      (skipped.1.server.document? uri).map (·.session) =
        (rescanned.1.server.document? uri).map (·.session) := by
  intro uri digest edited asked es skipped rescanned
  have hown : ∀ before ∈ es.inits, ∀ t ∈ replay uri (heeded before),
      t ∈ ["$a".toList, "$a b".toList, []] := by decide +kernel
  have htexts : ∀ before t, before <+: es → HadText {} uri before t →
      t ∈ ["$a".toList, "$a b".toList, []] := by
    intro before t hprefix hhad
    obtain ⟨before', hprefix', ht⟩ := hhad.exists_replay
    exact hown before' ((List.mem_inits _ _).2 (hprefix'.trans hprefix)) t ht
  have hinjective : ∀ t ∈ ["$a".toList, "$a b".toList, []],
      ∀ t' ∈ ["$a".toList, "$a b".toList, []], digest t = digest t' → t = t' := by
    decide +kernel
  have hseparates : Separates digest {} uri es := by
    intro before t t' hprefix ht ht'
    exact hinjective t (htexts before t hprefix ht) t' (htexts before t' hprefix ht')
  obtain ⟨hanswers, hsession⟩ :=
    skipped_rescans_are_invisible hseparates skipped (List.mem_cons_of_mem _ List.mem_cons_self)
  exact ⟨hseparates, hanswers 9 0 ⟨0, 0⟩ none rfl, hsession⟩

end Service

end MelScript
