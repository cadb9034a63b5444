import MelScript.Proofs.Command.Catalogue
import MelScript.Proofs.Server.Notifications
import MelScript.Proofs.Vocabulary.ClosedForm

/-! # What completion offers

  A document gets its completion session when it is opened, with the table that
  is in force at that time. The table of the server may be replaced later, the
  document may be changed and asked about; its session keeps the commands of the
  first table and their triggers, and only its index grows.

  - `Document.Serves` is what holds of a document with respect to the table with
    which it was opened. Nothing but opening it again ends this.
  - `OpenSince` says when a document was opened that is open now.

  The main result is the form of the answers: words, commands and variables in
  this order, where the commands are those of the table at the opening, and words
  and variables are kept apart from each other and from all its triggers.
-/

namespace MelScript

/-! ### One document -/

/-- The document's session has the commands of a table and reserves its triggers. -/
structure Document.Serves (table : CommandTable) (d : Document) : Prop where
  commands : d.session.commands = table.completions
  index : ∃ F, Index.ClosedForm table.triggers F d.session.index

namespace Document

variable {table : CommandTable} {d : Document}

theorem serves_fresh (text : Text) (version : Int) (table : CommandTable) :
    (fresh text version table).Serves table where
  commands := rfl
  index := ⟨[], Index.closedForm_reserving table.triggers⟩

theorem Serves.of_session_eq {d' : Document} (h : d.Serves table)
    (hsession : d'.session = d.session) : d'.Serves table where
  commands := by rw [hsession, h.commands]
  index := by rw [hsession]; exact h.index

/-- Taking a text into the index lets it grow and leaves the commands alone. -/
theorem Serves.refreshIndex (h : d.Serves table) : d.refreshIndex.Serves table := by
  obtain ⟨F, hindex⟩ := h.index
  unfold Document.refreshIndex
  split
  · exact h
  · exact ⟨h.commands, _, hindex.after d.text⟩

end Document

/-! ### The answers of one document -/

/-- Words and variables that are offered beside the commands of a table: none is offered twice, none
is empty, a number or the trigger of a command. -/
structure CommandTable.Apart (table : CommandTable) (words vars : List Text) : Prop where
  nodup : (words ++ vars).Nodup
  nonempty : ∀ w ∈ words ++ vars, w ≠ []
  not_numeric : ∀ w ∈ words ++ vars, isNumeric w = false
  not_trigger : ∀ w ∈ words ++ vars, ∀ r ∈ table.records, r.trigger ≠ w

/-- Words, then the commands of a table that have a trigger, then variables. -/
def CommandTable.offered (table : CommandTable) (words vars : List Text) : List Completion :=
  words.map .word ++ (table.records.filter fun r => !r.trigger.isEmpty).map .command ++
    vars.map .var

theorem Completion.shown_append (offered others : List Completion) :
    shown (offered ++ others) = shown offered ++ shown others :=
  List.filter_append _ _

/-- What is shown of completions that are made alike. -/
theorem Completion.shown_map {α : Type} (make : α → Completion) (xs : List α) :
    shown (xs.map make) = (xs.filter fun x => !(make x).label.isEmpty).map make := by
  unfold shown
  rw [List.filter_map]
  rfl

namespace Session

/-- The words of a session that can be shown. -/
def shownWords (s : Session) : List Text := s.index.words.filter fun w => !w.isEmpty

/-- The variables of a session that can be shown. -/
def shownVars (s : Session) : List Text := s.index.vars.filter fun w => !w.isEmpty

theorem shown_variableCompletions (s : Session) :
    Completion.shown s.variableCompletions = s.shownVars.map .var :=
  Completion.shown_map .var s.index.vars

theorem shown_generalCompletions {s : Session} {table : CommandTable}
    (h : s.commands = table.completions) :
    Completion.shown s.generalCompletions = table.offered s.shownWords s.shownVars := by
  unfold generalCompletions CommandTable.offered
  rw [Completion.shown_append, Completion.shown_append, shown_variableCompletions, h]
  unfold CommandTable.completions
  rw [Completion.shown_map, Completion.shown_map]
  rfl

end Session

theorem Document.Serves.apart {table : CommandTable} {d : Document} (h : d.Serves table) :
    table.Apart d.session.shownWords d.session.shownVars := by
  obtain ⟨F, hindex⟩ := h.index
  have hlabel : ∀ w ∈ d.session.shownWords ++ d.session.shownVars,
      w ≠ [] ∧ w ∈ d.session.index.vars ++ d.session.index.words := by
    intro w hw
    rcases List.mem_append.1 hw with hw | hw
    · obtain ⟨hword, hne⟩ := List.mem_filter.1 hw
      exact ⟨by simpa using hne, List.mem_append_right _ hword⟩
    · obtain ⟨hvar, hne⟩ := List.mem_filter.1 hw
      exact ⟨by simpa using hne, List.mem_append_left _ hvar⟩
  constructor
  · have hnodup := (List.perm_append_comm.nodup_iff.1 hindex.nodup_labels).filter
      fun w => !w.isEmpty
    rw [List.filter_append] at hnodup
    exact hnodup
  · exact fun w hw => (hlabel w hw).1
  · intro w hw
    exact ((hindex.mem_labels w).1 (hlabel w hw).2).1
  · -- Triggers are reserved in the index, so none of them is a label.
    intro w hw r hr htrigger
    have hreserved := ((hindex.mem_labels w).1 (hlabel w hw).2).2.1
    exact hreserved (CommandTable.mem_triggers.2 ⟨r, hr, htrigger⟩)

/-! ### Documents in a run -/

namespace Service

/-- An event opens a document: it brings a notification that the document was opened, or that it was
changed although it is not open. -/
inductive Opens (s : Service) (uri : FileUri) (e : Event) : Prop where
  /-- The document was opened. -/
  | opened {text : Text} {version : Int}
      (heeded : s.phase.heeds? e = some (.didOpen uri text version))
  /-- The document was changed and created by this. -/
  | created {version : Int} {edits : List Edit} (absent : s.server.document? uri = none)
      (heeded : s.phase.heeds? e = some (.didChange uri version edits))

/-- The document that is open after events was opened by the event that follows the events
`before`. -/
inductive OpenSince (files : FileTree) (uri : FileUri) (before : List Event) :
    List Event → Prop where
  /-- It was opened right now. -/
  | opened {e : Event} (opens : (after files before).Opens uri e) :
      OpenSince files uri before (before ++ [e])
  /-- It was opened earlier, and since then neither opened again nor closed. -/
  | kept {es : List Event} {e : Event} (since : OpenSince files uri before es)
      (quiet : ∀ m, (after files es).phase.heeds? e = some m → ¬ m.Reopens uri) :
      OpenSince files uri before (es ++ [e])

theorem Opens.serves {s : Service} {uri : FileUri} {e : Event} (h : s.Opens uri e) :
    ∃ d, (s.step e).1.server.document? uri = some d ∧ d.Serves s.server.table := by
  cases h with
  | opened heeded =>
    exact ⟨_, document?_of_heeds_didOpen heeded, Document.serves_fresh _ _ _⟩
  | @created version edits absent heeded =>
    refine ⟨_, document?_of_heeds_didChange heeded, ?_⟩
    rw [absent]
    exact (Document.serves_fresh [] version _).of_session_eq rfl

/-- A document goes on to serve its table unless it is opened again or closed. -/
theorem serves_step {s : Service} {uri : FileUri} {e : Event} {d : Document}
    {table : CommandTable} (hd : s.server.document? uri = some d) (h : d.Serves table)
    (he : ∀ m, s.phase.heeds? e = some m → ¬ m.Reopens uri) :
    ∃ d', (s.step e).1.server.document? uri = some d' ∧ d'.Serves table := by
  have hfate := s.step_fate e uri
  generalize (s.step e).1.server.document? uri = now at hfate ⊢
  cases hfate with
  | opened heeds => exact absurd rfl (he _ heeds)
  | closed heeds => exact absurd rfl (he _ heeds)
  | changed _ =>
    rw [hd]
    exact ⟨_, rfl, h.of_session_eq rfl⟩
  | spared _ spared =>
    rw [hd] at spared
    cases spared with
    | same => exact ⟨d, rfl, h⟩
    | indexed => exact ⟨d.refreshIndex, rfl, h.refreshIndex⟩
    | outlined => exact ⟨_, rfl, h.of_session_eq rfl⟩

theorem OpenSince.serves {files : FileTree} {uri : FileUri} {before es : List Event}
    (h : OpenSince files uri before es) :
    ∃ d, (after files es).server.document? uri = some d ∧
      d.Serves (after files before).server.table := by
  induction h with
  | opened opens =>
    rw [after_concat]
    exact opens.serves
  | kept _ quiet ih =>
    obtain ⟨d, hd, hserves⟩ := ih
    rw [after_concat]
    exact serves_step hd hserves quiet

/-- Every document that is open was opened in the run. -/
theorem exists_openSince {files : FileTree} {uri : FileUri} {es : List Event} {d : Document}
    (hd : (after files es).server.document? uri = some d) :
    ∃ before, OpenSince files uri before es := by
  refine document_rule (P := fun es _ => ∃ before, OpenSince files uri before es) ?_ ?_ ?_ hd
  · intro es e text version heeds
    exact ⟨es, .opened (.opened heeds)⟩
  · intro es e version edits habsent heeds
    exact ⟨es, .opened (.created habsent heeds)⟩
  · intro es e d d' _ hsince hquiet _
    obtain ⟨before, hsince⟩ := hsince
    exact ⟨before, hsince.kept hquiet⟩

/-! ### Answers in a run -/

/-- What a completion request for an open document is answered. -/
theorem complete_answer {s : Service} {n : Nat} {uri : FileUri} {d : Document}
    (hphase : s.phase = .running) (hfree : s.inUse n = false)
    (hd : s.server.document? uri = some d) (p : Position) (trigger : Option Text) :
    (s.step (.receive n (.complete uri p trigger))).2.answer =
      .completions (some (Completion.shown
        (if trigger == some ['$'] || d.text.typingVariable p then
          d.refreshIndex.session.variableCompletions
        else d.refreshIndex.session.generalCompletions))) := by
  rw [step_of_free hphase hfree]
  simp [handle, Server.complete, hd, Document.complete]

/-- **Completion answers are well formed over whole sessions.** An open document was opened at some
time of the run. A general answer is made of words, the commands of the table that was in force at
that time, and variables; an answer after `$` is made of the same variables. Words and variables are
apart from each other and from the table. -/
theorem completions_well_formed {files : FileTree} {es : List Event} {uri : FileUri}
    {d : Document} (hphase : (after files es).phase = .running)
    (hd : (after files es).server.document? uri = some d) :
    (∃ before, OpenSince files uri before es) ∧
      ∀ before, OpenSince files uri before es →
        ∃ words vars, (after files before).server.table.Apart words vars ∧
          ∀ n p, (after files es).inUse n = false →
            (∀ trigger, trigger ≠ some ['$'] → d.text.typingVariable p = false →
              ((after files es).step (.receive n (.complete uri p trigger))).2.answer =
                .completions (some ((after files before).server.table.offered words vars))) ∧
            ((after files es).step (.receive n (.complete uri p (some ['$'])))).2.answer =
              .completions (some (vars.map .var)) := by
  refine ⟨exists_openSince hd, ?_⟩
  intro before hsince
  obtain ⟨d', hd', hserves⟩ := hsince.serves
  rw [hd] at hd'
  cases hd'
  have hrefreshed := hserves.refreshIndex
  refine ⟨_, _, hrefreshed.apart, ?_⟩
  intro n p hfree
  constructor
  · intro trigger htrigger htyping
    have hgeneral : (trigger == some ['$'] || d.text.typingVariable p) = false := by
      simp [htrigger, htyping]
    rw [complete_answer hphase hfree hd, hgeneral]
    simp only [Bool.false_eq_true, if_false]
    rw [Session.shown_generalCompletions hrefreshed.commands]
  · rw [complete_answer hphase hfree hd]
    simp only [beq_self_eq_true, Bool.true_or, if_true]
    rw [Session.shown_variableCompletions]

/-- A document that was opened while a table from a file was in force offers the command of that
table, although another one is in force now. -/
theorem completions_after_table_swap :
    let uri : FileUri := ⟨"/w/a.mel".toList, none, none⟩
    let mel : Json.Value → Message := fun v => .didConfigure (.object [("mel".toList, v)]) .failed
    let es : List Event := [.receive 0 .handshake,
      .write "t.json".toList (.text "[[\"foo\"]]".toList),
      .receive 0 (mel (.object
        [("reference".toList, .object [("path".toList, .string "t.json".toList)])])),
      .receive 0 (.didOpen uri "$a = foo + ls".toList 1), .receive 0 (mel .null)]
    let table : CommandTable := ⟨[⟨"foo".toList, []⟩]⟩
    (after {} es).server.table ≠ table ∧
      ∃ words vars, table.Apart words vars ∧
        ((after {} es).step (.receive 1 (.complete uri ⟨0, 0⟩ none))).2.answer =
          .completions (some (table.offered words vars)) := by
  intro uri mel es table
  have hphase : (after {} (es.take 3)).phase = .running := by decide +kernel
  have hphase' : (after {} (es.take 4)).phase = .running := by decide +kernel
  have hsince : OpenSince {} uri (es.take 3) es := by
    have hopened : OpenSince {} uri (es.take 3) (es.take 4) :=
      .opened (.opened (by rw [hphase]; rfl))
    refine hopened.kept (e := .receive 0 (mel .null)) ?_
    intro m hheeds hm
    rw [hphase'] at hheeds
    cases hheeds
    exact hm
  have htable : (after {} (es.take 3)).server.table = table := by decide +kernel
  have htext : ((after {} es).server.document? uri).map (·.text) =
      some "$a = foo + ls".toList := by decide +kernel
  obtain ⟨d, hd, hdtext⟩ := Option.map_eq_some_iff.1 htext
  have hrunning : (after {} es).phase = .running := by decide +kernel
  obtain ⟨_, hanswers⟩ := completions_well_formed hrunning hd
  obtain ⟨words, vars, hapart, hanswer⟩ := hanswers (es.take 3) hsince
  rw [htable] at hapart hanswer
  refine ⟨by decide +kernel, words, vars, hapart, ?_⟩
  have hgeneral := (hanswer 1 ⟨0, 0⟩ (by decide +kernel)).1 none (by simp)
  rw [hdtext] at hgeneral
  exact hgeneral (by decide +kernel)

end Service

end MelScript
