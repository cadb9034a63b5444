import MelScript.Editor.Protocol
import MelScript.Proofs.Server.Configuration
import MelScript.Proofs.Server.OutlineCache

/-! # Outlines by replay

  A server that keeps no outlines would answer a request for one from the text
  alone, and the text is what the notifications make of it: the text with which
  the document was opened, and all edits since then (`replay`).

  The server with its kept outlines gives the same answers, as long as

  - no document is opened or closed while a request for its outline is under way
    (`Undisturbed`), since only then a kept outline may be stale;
  - no settings ask for more permits than the limiter can have, since a broken
    limiter leaves requests without an answer.

  Changes of a document may come at any time. A request that was started before
  them is answered by the text that it took.
-/

namespace MelScript

/-- The text of a document, if it is open, after a notification. -/
def Message.retext (uri : FileUri) (text : Option Text) : Message → Option Text
  | .didOpen other opened _ => if other = uri then some opened else text
  | .didChange other _ edits =>
    if other = uri then some (edits.foldl Text.edit (text.getD [])) else text
  | .didClose other => if other = uri then none else text
  | _ => text

/-- The text of a document, if it is open, after notifications from the start. -/
def replay (uri : FileUri) (ms : List Message) : Option Text :=
  ms.foldl (Message.retext uri) none

theorem Message.retext_of_not_concerns {uri : FileUri} {m : Message} (h : ¬ m.Concerns uri)
    (text : Option Text) : m.retext uri text = text := by
  cases m with
  | didOpen other opened version => exact if_neg h
  | didChange other version edits => exact if_neg h
  | didClose other => exact if_neg h
  | _ => rfl

namespace Service

/-! ### Texts -/

theorem Spared.text_eq {found left : Option Document} (h : Spared found left) :
    left.map (·.text) = found.map (·.text) := by
  cases h with
  | same => rfl
  | indexed d => simp [Document.text_refreshIndex]
  | outlined d symbols => rfl

/-- An event makes of a document's text what the notification that it brings makes of it. -/
theorem text_step (s : Service) (e : Event) (uri : FileUri) :
    ((s.step e).1.server.document? uri).map (·.text) =
      (s.phase.heeds? e).toList.foldl (Message.retext uri)
        ((s.server.document? uri).map (·.text)) := by
  have hfate := s.step_fate e uri
  generalize (s.step e).1.server.document? uri = now at hfate ⊢
  cases hfate with
  | opened heeds =>
    rw [heeds]
    simp [Message.retext, Document.fresh]
  | changed heeds =>
    rw [heeds]
    cases s.server.document? uri <;> simp [Message.retext, Document.change, Document.fresh]
  | closed heeds =>
    rw [heeds]
    simp [Message.retext]
  | spared quiet spared =>
    rw [spared.text_eq]
    cases hheeds : s.phase.heeds? e with
    | none => rfl
    | some m => exact (Message.retext_of_not_concerns (quiet m hheeds) _).symm

/-- The server holds the text that the notifications have made. -/
theorem text_after (files : FileTree) (es : List Event) (uri : FileUri) :
    ((after files es).server.document? uri).map (·.text) = replay uri (heeded es) := by
  induction es using List.reverseRecOn with
  | nil => rfl
  | append_singleton es e ih =>
    rw [after_concat, text_step, ih, heeded_concat files es e]
    unfold replay
    rw [List.foldl_append]

/-! ### Requests that are not disturbed -/

/-- While a request for the outline of a document is under way, the document is neither opened nor
closed. It may be changed. -/
def Undisturbed (files : FileTree) (es : List Event) : Prop :=
  ∀ before between rest n uri d,
    es = before ++ .startOutline n uri :: between ++ .finishOutline n :: rest →
    UnderWay files before between n uri d →
    ∀ m ∈ heededFrom .running between, ¬ m.Reopens uri

theorem step_tracks_of_heeds {s : Service} {uri : FileUri} {d : Document} {e : Event}
    (h : Tracks d (s.server.document? uri))
    (he : ∀ m, s.phase.heeds? e = some m → ¬ m.Reopens uri) :
    Tracks d ((s.step e).1.server.document? uri) := by
  by_cases hreopens : e.Reopens uri
  · -- The document was to be opened or closed, but this is not heeded.
    obtain ⟨n, m, rfl, hrequest, hm⟩ :
        ∃ n m, e = .receive n m ∧ m.isRequest = false ∧ m.Reopens uri := by
      unfold Event.Reopens at hreopens
      split at hreopens
      · exact ⟨_, _, rfl, rfl, hreopens⟩
      · exact ⟨_, _, rfl, rfl, hreopens⟩
      · cases hreopens
    rcases s.phase.heeds?_receive n m with hnone | hheeds
    · show Tracks d ((s.receive n m).1.server.document? uri)
      rw [server_receive_of_not_heeded hrequest hnone]
      exact h
    · exact absurd hm (he m hheeds)
  · exact step_tracks h hreopens

theorem run_tracks_of_heeded {s : Service} {uri : FileUri} {d : Document} {es : List Event}
    (h : Tracks d (s.server.document? uri))
    (hes : ∀ m ∈ heededFrom s.phase es, ¬ m.Reopens uri) :
    Tracks d ((s.run es).1.server.document? uri) := by
  induction es generalizing s with
  | nil => exact h
  | cons e es ih =>
    have hfirst : ∀ m, s.phase.heeds? e = some m → ¬ m.Reopens uri := by
      intro m hheeds
      exact hes m (List.mem_append_left _ (Option.mem_toList.2 hheeds))
    apply ih (step_tracks_of_heeds h hfirst)
    intro m hm
    rw [phase_step] at hm
    exact hes m (List.mem_append_right _ hm)

theorem phase_of_underWay {s : Service} {n : Nat} {uri : FileUri}
    (h : (s.start n uri).2.answer = .underWay) : s.phase = .running := by
  unfold start at h
  cases hphase : s.phase with
  | running => rfl
  | fresh => simp [hphase] at h
  | stopped => simp [hphase] at h

/-- Requests that are not disturbed do not end on another document than they were started on. -/
theorem not_mixedUp_of_undisturbed {files : FileTree} {es : List Event}
    (h : Undisturbed files es) : ¬ MixedUp files es := by
  intro hmixed
  cases hmixed with
  | @intro before between rest n uri d d' way reopened found version revision differ =>
    -- The document is followed from the start of the request to its end. Equal revisions then mean
    -- equal texts, which have equal outlines.
    have hquiet := h before between rest n uri d rfl way
    have hstart : Tracks d ((after files before).server.document? uri) := by
      rw [way.taken]
      exact tracks_self d
    have hend : Tracks d
        ((after files (before ++ .startOutline n uri :: between)).server.document? uri) := by
      rw [after_append]
      apply run_tracks_of_heeded hstart
      rw [phase_of_underWay way.started]
      exact hquiet
    obtain ⟨d'', hd'', _, htext⟩ := hend
    rw [found] at hd''
    cases hd''
    exact differ (by rw [htext revision])

/-! ### Answers -/

/-- The answer of a run to its event with a number, counted from zero. -/
def answerAt (files : FileTree) (es : List Event) (i : Nat) : Option Answer :=
  ((({ files } : Service).run es).2[i]?).map (·.answer)

theorem length_run_snd (s : Service) (es : List Event) : (s.run es).2.length = es.length := by
  induction es generalizing s with
  | nil => rfl
  | cons e es ih =>
    show ((s.step e).1.run es).2.length + 1 = es.length + 1
    rw [ih]

theorem run_append_snd (s : Service) (es es' : List Event) :
    (s.run (es ++ es')).2 = (s.run es).2 ++ ((s.run es).1.run es').2 := by
  induction es generalizing s with
  | nil => rfl
  | cons e es ih =>
    show (s.step e).2 :: ((s.step e).1.run (es ++ es')).2 = _
    rw [ih]
    rfl

/-- An event is answered from the state that the events before it have left. -/
theorem answerAt_length (files : FileTree) (before rest : List Event) (e : Event) :
    answerAt files (before ++ e :: rest) before.length =
      some ((after files before).step e).2.answer := by
  unfold answerAt
  rw [run_append_snd, List.getElem?_append_right (Nat.le_of_eq (length_run_snd _ _)), length_run_snd,
    Nat.sub_self]
  rfl

/-- A request for the outline of a document that a run answers, with the events before the text was
taken. -/
inductive Answered (files : FileTree) (es : List Event) :
    List Event → FileUri → Answer → Prop where
  /-- It is started and finished by one event. -/
  | whole {before rest : List Event} {n : Nat} {uri : FileUri} {answer : Answer}
      (events : es = before ++ .receive n (.outline uri) :: rest)
      (running : (after files before).phase = .running)
      (free : (after files before).inUse n = false)
      (answered : answerAt files es before.length = some answer) :
      Answered files es before uri answer
  /-- It is answered as soon as it is started. -/
  | atStart {before rest : List Event} {n : Nat} {uri : FileUri} {answer : Answer}
      (events : es = before ++ .startOutline n uri :: rest)
      (running : (after files before).phase = .running)
      (free : (after files before).inUse n = false)
      (answered : answerAt files es before.length = some answer) (settled : answer ≠ .underWay) :
      Answered files es before uri answer
  /-- It is answered when it is finished, with anything in between. -/
  | atEnd {before between rest : List Event} {n : Nat} {uri : FileUri} {d : Document}
      {answer : Answer}
      (events : es = before ++ .startOutline n uri :: between ++ .finishOutline n :: rest)
      (way : UnderWay files before between n uri d)
      (answered : answerAt files es (before ++ .startOutline n uri :: between).length =
        some answer) :
      Answered files es before uri answer

/-- An answer from the text alone. -/
def plainAnswer (found : Option Document) : Answer :=
  .outline (found.map fun d => Document.computeOutline d.text)

/-- With a limiter that is not broken and a kept outline that is right, a request is settled as if no
outline was kept, or it takes the text. -/
theorem startOutline_cases {s : Server} {uri : FileUri} (hlimiter : s.limiter ≠ .broken)
    (hfresh : ∀ d, s.document? uri = some d → d.OutlineFresh) :
    s.startOutline uri =
        .settled ((s.document? uri).map fun d => Document.computeOutline d.text) ∨
      ∃ d, s.document? uri = some d ∧
        s.startOutline uri = .computing d.text d.version d.revision := by
  unfold Server.startOutline
  cases hd : s.document? uri with
  | none => exact .inl rfl
  | some d =>
    cases ho : d.outline with
    | some symbols =>
      have hsymbols := hfresh d hd symbols ho
      subst hsymbols
      exact .inl (by simp [ho])
    | none =>
      cases hl : s.limiter with
      | broken => exact absurd hl hlimiter
      | permits k => exact .inr ⟨d, rfl, by simp [ho]⟩

theorem handle_outline_answer {s : Service} {uri : FileUri}
    (hlimiter : s.server.limiter ≠ .broken) (hfresh : s.OutlinesFresh) :
    (s.handle (.outline uri)).2.answer = plainAnswer (s.server.document? uri) := by
  show Answer.outline (s.server.finishOutline uri (s.server.startOutline uri)).2 = _
  rcases startOutline_cases hlimiter (hfresh uri) with hsettled | ⟨d, hd, hcomputing⟩
  · rw [hsettled]
    rfl
  · rw [hcomputing, hd]
    rfl

theorem start_answer {s : Service} {n : Nat} {uri : FileUri} (hphase : s.phase = .running)
    (hfree : s.inUse n = false) (hlimiter : s.server.limiter ≠ .broken)
    (hfresh : s.OutlinesFresh) (hsettled : (s.start n uri).2.answer ≠ .underWay) :
    (s.start n uri).2.answer = plainAnswer (s.server.document? uri) := by
  unfold start at hsettled ⊢
  simp only [hphase, hfree, Bool.false_eq_true, if_false] at hsettled ⊢
  rcases startOutline_cases hlimiter (hfresh uri) with hstart | ⟨d, hd, hcomputing⟩
  · rw [hstart]
    rfl
  · rw [hcomputing] at hsettled
    exact absurd rfl hsettled

theorem finish_answer {files : FileTree} {before between : List Event} {n : Nat}
    {uri : FileUri} {d : Document} (way : UnderWay files before between n uri d) :
    ((after files (before ++ .startOutline n uri :: between)).finish n).2.answer =
      plainAnswer ((after files before).server.document? uri) := by
  rw [way.taken]
  unfold finish
  rw [way.pending?]
  rfl

/-- A request that a run answers is answered from the text that was taken. -/
theorem Answered.eq_plainAnswer {files : FileTree} {es before : List Event} {uri : FileUri}
    {answer : Answer} (h : Answered files es before uri answer)
    (hundisturbed : Undisturbed files es) (hlimits : ∀ m ∈ heeded es, ¬ m.Overloads) :
    answer = plainAnswer ((after files before).server.document? uri) := by
  have hfresh : before <+: es → (after files before).OutlinesFresh :=
    outlinesFresh_of_not_mixedUp (not_mixedUp_of_undisturbed hundisturbed)
  have hlimiter : before <+: es → (after files before).server.limiter ≠ .broken := by
    rintro ⟨rest, rfl⟩
    rcases limiter_after files before with ⟨_, hintact⟩ | ⟨⟨m, hm, hover⟩, _⟩
    · rw [hintact.limiter]
      simp
    · exact absurd hover (hlimits m (mem_heeded_append hm rest))
  cases h with
  | whole events running free answered =>
    have hprefix : before <+: es := ⟨_, events.symm⟩
    rw [events, answerAt_length, step_of_free running free] at answered
    cases answered
    exact handle_outline_answer (hlimiter hprefix) (hfresh hprefix)
  | atStart events running free answered settled =>
    have hprefix : before <+: es := ⟨_, events.symm⟩
    rw [events, answerAt_length] at answered
    cases answered
    exact start_answer running free (hlimiter hprefix) (hfresh hprefix) settled
  | atEnd events way answered =>
    rw [events, answerAt_length] at answered
    cases answered
    exact finish_answer way

/-- **An outline is answered as if none was kept.** The answer is `null` exactly when the document is
not open at the time the text is taken, and otherwise it is the outline of the text that replaying
the notifications up to that time gives. -/
theorem outline_answers_follow_replay {files : FileTree} {es before : List Event}
    {uri : FileUri} {answer : Answer} (hundisturbed : Undisturbed files es)
    (hlimits : ∀ m ∈ heeded es, ¬ m.Overloads) (h : Answered files es before uri answer) :
    (answer.result? = some .null ↔ (after files before).server.document? uri = none) ∧
      ∀ d, (after files before).server.document? uri = some d →
        ∃ text, replay uri (heeded before) = some text ∧
          answer.result? = some (Outline.toEditor (Outline.ofLines text.pieces)) := by
  have htext := text_after files before uri
  rw [h.eq_plainAnswer hundisturbed hlimits]
  cases hd : (after files before).server.document? uri with
  | none =>
    refine ⟨⟨fun _ => rfl, fun _ => rfl⟩, ?_⟩
    intro d hsome
    cases hsome
  | some d =>
    rw [hd] at htext
    refine ⟨⟨fun hnull => ?_, fun hnone => by cases hnone⟩, ?_⟩
    · -- An outline is an array, even if it is empty.
      cases hnull
    · intro d' hd'
      cases hd'
      exact ⟨d.text, htext.symm, rfl⟩

/-- A change that overtakes a request: the request is answered by the text from before it. -/
theorem overtaken_request_answers_taken_text :
    let uri : FileUri := ⟨"/w/a.mel".toList, none, none⟩
    let es : List Event := [.receive 0 .handshake,
      .receive 0 (.didOpen uri "proc a() \x7b\x7d".toList 1), .startOutline 1 uri,
      .receive 0 (.didChange uri 2 [⟨none, "$b = 1;".toList⟩]), .finishOutline 1]
    (answerAt {} es 4).bind Answer.result? =
      some (Outline.toEditor (Outline.ofLines (Text.pieces "proc a() \x7b\x7d".toList))) := by
  intro uri es
  have hundisturbed : Undisturbed {} es := by
    intro before between rest n other d hes _ m hm hreopens
    obtain ⟨k, hk⟩ := exists_receive_of_mem_heededFrom hm
    -- The document is opened by the second event, and the request is started after it.
    match before, hes with
    | [], hes => simp [es] at hes
    | [_], hes => simp [es] at hes
    | _ :: _ :: before, hes =>
      have htail := congrArg (List.drop 2) hes
      have hmem : .receive k m ∈ List.drop 2 es := by
        rw [htail]
        simp [hk]
      simp only [es, List.drop_succ_cons, List.drop_zero, List.mem_cons, reduceCtorEq,
        Event.receive.injEq, List.not_mem_nil, or_false, false_or] at hmem
      rw [hmem.2] at hreopens
      exact hreopens
  have hlimits : ∀ m ∈ heeded es, ¬ m.Overloads := by
    rintro m hm ⟨v, hv, _⟩
    have hheeded : heeded es = [.didOpen uri "proc a() \x7b\x7d".toList 1,
      .didChange uri 2 [⟨none, "$b = 1;".toList⟩]] := rfl
    rw [hheeded] at hm
    simp only [List.mem_cons, List.not_mem_nil, or_false] at hm
    rcases hm with rfl | rfl <;> cases hv
  have hevents : es = es.take 2 ++ .startOutline 1 uri ::
      [.receive 0 (.didChange uri 2 [⟨none, "$b = 1;".toList⟩])] ++ [.finishOutline 1] := rfl
  have hanswered : Answered {} es (es.take 2) uri
      (.outline (some (Outline.ofLines (Text.pieces "proc a() \x7b\x7d".toList)))) :=
    .atEnd hevents ⟨rfl, rfl, by simp⟩ rfl
  obtain ⟨_, hopen⟩ := outline_answers_follow_replay hundisturbed hlimits hanswered
  obtain ⟨text, htext, hresult⟩ := hopen _ rfl
  cases htext
  exact hresult

end Service

end MelScript
