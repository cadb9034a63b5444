import MelScript.CommandLine.Run
import MelScript.Editor.Protocol
import MelScript.Proofs.Document.Offsets
import MelScript.Proofs.Outline.LineCuts
import MelScript.Proofs.Server.Notifications

/-! # Hovers on the command line and in an editor

  The program takes a line of a file, the server a row of a document, and both
  look for a word there. Lines end at line feeds only, rows also at carriage
  returns; a line feed at the end of a text has a row behind it, but no line.

  In a text whose carriage returns all belong to line feeds the rows are the
  lines, and perhaps an empty row behind the last one (`Text.bodies_eq`). No word
  stands on an empty row, so that both find the same hover.
-/

namespace MelScript

/-! ### Lines and rows -/

namespace Text

/-- What stands on the rows of a text. -/
def bodies (t : Text) : List Text := t.rows.map (·.body)

theorem dropReturn_cons {c : Char} (h : c ≠ '\r') (t : Text) :
    dropReturn (c :: t) = c :: dropReturn t := by
  cases t with
  | nil => simp [dropReturn, h]
  | cons d t =>
    unfold dropReturn
    rw [List.getLast?_cons_cons]
    split <;> rfl

theorem bodies_cons_of_not_break {c : Char} (h : isBreak c = false) (rest : Text) :
    bodies (c :: rest) = rest.bodies.modifyHead (c :: ·) := by
  unfold bodies
  rw [rows_cons_of_not_break h]
  cases rows rest <;> rfl

theorem pieces_cons {c : Char} (h : c ≠ '\n') (rest : Text) :
    pieces (c :: rest) = rest.pieces.modifyHead (c :: ·) := by
  unfold pieces
  rw [split, if_neg h]
  cases hsplit : split '\n' rest with
  | nil => exact absurd hsplit (split_ne_nil '\n' rest)
  | cons first others => rfl

theorem pieces_feed (rest : Text) : pieces ('\n' :: rest) = [] :: rest.pieces := by
  unfold pieces
  rw [split, if_pos rfl]

theorem loneReturns_cons_eq_zero {c : Char} {rest : Text} :
    loneReturns (c :: rest) = 0 ↔
      loneReturns rest = 0 ∧ (c = '\r' → rest.head? = some '\n') := by
  rw [loneReturns]
  by_cases hc : c = '\r' ∧ rest.head? ≠ some '\n'
  · simp [hc]
  · rw [if_neg hc]
    simpa using fun _ => hc

/-- Rows are cut where pieces are if every carriage return stands before a line feed; the carriage
return then stays with the piece, but not with the row. The induction follows the rows. -/
theorem exists_bodies_eq {t : Text} (h : t.loneReturns = 0) :
    ∃ closed last, t.pieces = closed ++ [last] ∧ t.bodies = closed.map dropReturn ++ [last] := by
  fun_induction rows t with
  | case1 => exact ⟨[], [], rfl, rfl⟩
  | case2 rest ih =>
    have hrest := (loneReturns_cons_eq_zero.1 (loneReturns_cons_eq_zero.1 h).1).1
    obtain ⟨closed, last, hpieces, hbodies⟩ := ih hrest
    refine ⟨['\r'] :: closed, last, ?_, ?_⟩
    · rw [pieces_cons (by decide), pieces_feed, hpieces]
      rfl
    · unfold bodies at hbodies ⊢
      rw [rows_return_feed, List.map_cons, hbodies]
      rfl
  | case3 c rest hpair hbreak ih =>
    obtain ⟨hrest, hreturn⟩ := loneReturns_cons_eq_zero.1 h
    -- The break is no carriage return, since that would belong to a line feed.
    have hfeed : c = '\n' := by
      rcases (isBreak_iff c).1 hbreak with hc | hc
      · exact hc
      · obtain ⟨rest', hhead⟩ := List.head?_eq_some_iff.1 (hreturn hc)
        exact absurd hhead (hpair rest' hc)
    subst hfeed
    obtain ⟨closed, last, hpieces, hbodies⟩ := ih hrest
    refine ⟨[] :: closed, last, ?_, ?_⟩
    · rw [pieces_feed, hpieces]
      rfl
    · unfold bodies at hbodies ⊢
      rw [rows_cons_of_break rfl (by simp), List.map_cons, hbodies]
      rfl
  | case4 c rest _ _ hrows _ => exact absurd hrows (rows_ne_nil rest)
  | case5 c rest _ hbreak _ _ _ ih =>
    have hc : isBreak c = false := by simpa using hbreak
    have hreturn : c ≠ '\r' := by
      rintro rfl
      cases hc
    have hfeed : c ≠ '\n' := by
      rintro rfl
      cases hc
    -- The character goes to the first piece and the first row, which may be the last ones.
    obtain ⟨closed, last, hpieces, hbodies⟩ := ih (loneReturns_cons_eq_zero.1 h).1
    rw [pieces_cons hfeed, hpieces, bodies_cons_of_not_break hc, hbodies]
    cases closed with
    | nil => exact ⟨[], c :: last, rfl, rfl⟩
    | cons p closed =>
      refine ⟨(c :: p) :: closed, last, rfl, ?_⟩
      rw [List.map_cons, List.map_cons, dropReturn_cons hreturn]
      rfl

/-- The rows of a text without lone carriage returns are its lines, and perhaps an empty row. -/
theorem bodies_eq {t : Text} (h : t.loneReturns = 0) :
    t.bodies = t.lines ∨ t.bodies = t.lines ++ [[]] := by
  obtain ⟨closed, last, hpieces, hbodies⟩ := exists_bodies_eq h
  obtain ⟨closed', last', hpieces', hlines⟩ := t.exists_pieces_eq
  rw [hpieces] at hpieces'
  obtain ⟨rfl, hlast⟩ := List.append_inj' hpieces' rfl
  cases hlast
  rcases hlines with ⟨rfl, hlines⟩ | ⟨_, hlines⟩
  · exact .inr (by rw [hbodies, hlines])
  · exact .inl (by rw [hbodies, hlines])

end Text

/-! ### Hovers -/

namespace CommandTable

theorem hover?_nil (table : CommandTable) (helpBase : Text) (n column : Nat) :
    table.hover? helpBase n [] column = none := by
  unfold hover? Text.wordAt? Text.words Text.runs
  rw [Text.runsFrom_nil]
  rfl

/-- The hover at a position of a text that is cut into lines. -/
def hoverIn? (table : CommandTable) (helpBase t : Text) (p : Position) : Option Hover :=
  (t.lines[p.line]?).bind fun text => table.hover? helpBase p.line text p.column

/-- The same hover is found in the text that is cut into rows. -/
theorem bind_row?_eq_hoverIn? (table : CommandTable) (helpBase : Text) {t : Text}
    (h : t.loneReturns = 0) (p : Position) :
    ((t.row? p.line).bind fun row => table.hover? helpBase p.line row p.column) =
      table.hoverIn? helpBase t p := by
  have hrow : t.row? p.line = t.bodies[p.line]? := by
    unfold Text.row? Text.bodies
    rw [List.getElem?_map]
  unfold hoverIn?
  rw [hrow]
  rcases Text.bodies_eq h with hbodies | hbodies
  · rw [hbodies]
  · rw [hbodies, List.getElem?_append]
    split
    · rfl
    · next hlength =>
      -- Behind the lines there is at most an empty row.
      rw [List.getElem?_eq_none (Nat.le_of_not_lt hlength)]
      cases hlast : ([[]] : List Text)[p.line - t.lines.length]? with
      | none => rfl
      | some row =>
        rw [List.mem_singleton.1 (List.mem_of_getElem? hlast)]
        exact table.hover?_nil helpBase _ _

end CommandTable

/-- The program prints the Markdown of the hover in the lines of its file, if there is one. -/
theorem CommandLine.Task.run_hover_eq_ok_iff {read : Text → Option Text} {file t : Text}
    (hread : read file = some t) {path : Option Text} {table : CommandTable}
    (htable : loadTable read path = .ok table) {line column : Nat} {helpBase printed : Text} :
    (Task.hover file line column path helpBase).run read = .ok printed ↔
      ∃ h, table.hoverIn? helpBase t ⟨line - 1, column - 1⟩ = some h ∧
        printed = h.markdown ++ ['\n'] := by
  simp only [Task.run, readScript, hread, htable, bind, Except.bind, CommandTable.hoverIn?]
  cases t.lines[line - 1]? with
  | none => exact ⟨nofun, fun ⟨_, h, _⟩ => nomatch h⟩
  | some text =>
    simp only [Option.bind_some]
    cases table.hover? helpBase (line - 1) text (column - 1) with
    | none => exact ⟨nofun, fun ⟨_, h, _⟩ => nomatch h⟩
    | some found =>
      constructor
      · rintro ⟨⟩
        exact ⟨found, rfl, rfl⟩
      · rintro ⟨_, ⟨⟩, rfl⟩
        rfl

/-- The program ends well with a task exactly when the task is done, and prints what it gives. -/
theorem CommandLine.exit_eq_zero_iff {args : List Text} {task : Task}
    (hargs : readArguments false args = .ok task) (read : Text → Option Text) :
    ((run read args).exit = 0 ↔ ∃ printed, task.run read = .ok printed) ∧
      ∀ printed, task.run read = .ok printed → (run read args).output = printed := by
  simp only [run, hargs]
  cases task.run read with
  | error fault => simp
  | ok printed => simp

/-- The server answers with the hover in the rows of the text with which a document was opened. -/
theorem Service.hover_of_opened {s : Service} (hphase : s.phase = .running) {n : Nat}
    (hfree : s.inUse n = false) (k : Nat) (uri : FileUri) (t : Text) (version : Int)
    (p : Position) :
    let opened := (s.step (.receive k (.didOpen uri t version))).1
    (opened.step (.receive n (.hover uri p))).2.answer =
      .hover ((t.row? p.line).bind fun row =>
        s.server.table.hover? s.server.settings.helpBase p.line row p.column) := by
  intro opened
  have hheeds : s.phase.heeds? (.receive k (.didOpen uri t version)) =
      some (.didOpen uri t version) := Phase.heeds?_eq_some_iff.2 ⟨hphase, rfl, k, rfl⟩
  have hopened : opened = { s with server := s.server.openDocument uri t version } := by
    show (s.step (.receive k (.didOpen uri t version))).1 = _
    rw [step_of_heeds hheeds]
    rfl
  have hdocument := document?_of_heeds_didOpen hheeds
  -- Opening leaves the numbers of requests, the table and the settings as they are.
  have hanswer : (opened.step (.receive n (.hover uri p))).2.answer =
      .hover (opened.server.hover? uri p) := by
    rw [hopened, step_of_free (by exact hphase) (by exact hfree)]
    rfl
  rw [hanswer]
  unfold Server.hover?
  rw [hdocument, hopened]
  rfl

/-- **The program and the server show the same help.** In a text without lone carriage returns the
program finds a hover at a line and a column, both counted from one, exactly when the server does at
the same place, counted from zero, in a document that was opened with the text, provided that they
have the same command table and the same help pages. Then the program prints the Markdown that the
server sends. -/
theorem CommandLine.hover_agrees_with_server {t : Text} (hreturns : t.loneReturns = 0)
    {read : Text → Option Text} {file : Text} (hread : read file = some t)
    {path : Option Text} {table : CommandTable} (htable : loadTable read path = .ok table)
    {args : List Text} {line column : Nat} {helpBase : Text}
    (hargs : readArguments false args = .ok (.hover file line column path helpBase))
    {s : Service} (hphase : s.phase = .running) {n : Nat} (hfree : s.inUse n = false)
    (hsame : s.server.table = table) (hbase : s.server.settings.helpBase = helpBase)
    (k : Nat) (uri : FileUri) (version : Int) :
    let opened := (s.step (.receive k (.didOpen uri t version))).1
    let answer := (opened.step (.receive n (.hover uri ⟨line - 1, column - 1⟩))).2.answer
    ((run read args).exit = 0 ↔ answer.result? ≠ some .null) ∧
      (answer.result? ≠ some .null → ∃ markdown range,
        answer.result? = some (.object
          [("contents".toList, .object
            [("kind".toList, .string "markdown".toList), ("value".toList, .string markdown)]),
            ("range".toList, range)]) ∧
          (run read args).output = markdown ++ ['\n']) := by
  intro opened answer
  have hanswer : answer = .hover (table.hoverIn? helpBase t ⟨line - 1, column - 1⟩) := by
    show (opened.step (.receive n (.hover uri ⟨line - 1, column - 1⟩))).2.answer = _
    rw [Service.hover_of_opened hphase hfree, hsame, hbase,
      table.bind_row?_eq_hoverIn? helpBase hreturns]
  obtain ⟨hexit, houtput⟩ := exit_eq_zero_iff hargs read
  simp only [Task.run_hover_eq_ok_iff hread htable] at hexit houtput
  rw [hexit, hanswer]
  cases hhover : table.hoverIn? helpBase t ⟨line - 1, column - 1⟩ with
  | none => exact ⟨⟨nofun, fun hnull => absurd rfl hnull⟩, fun hnull => absurd rfl hnull⟩
  | some h =>
    -- A hover is sent as an object, which is not `null`.
    have hobject : (Answer.hover (some h)).result? ≠ some .null := by
      intro hnull
      injection hnull with hnull
      cases hnull
    refine ⟨⟨fun _ => hobject, fun _ => ⟨_, h, rfl, rfl⟩⟩, fun _ => ?_⟩
    exact ⟨h.markdown, h.span.toEditor, rfl, houtput _ ⟨h, hhover, rfl⟩⟩

/-- A command on the last line, and the row behind the last line feed, which is no line. -/
theorem CommandLine.hover_on_last_rows :
    let t : Text := "x\r\n foo;\n".toList
    let uri : FileUri := ⟨"/w/a.mel".toList, none, none⟩
    let read : Text → Option Text := fun path =>
      if path = "t".toList then some "[[\"foo\"]]".toList else some t
    let args (line : String) := ["hover", "a", "--line", line, "--column", "2", "--reference", "t",
      "--url-base", "h"].map String.toList
    let s : Service :=
      { phase := .running
        server := { table := ⟨[⟨"foo".toList, []⟩]⟩, settings := { helpBase := "h".toList } } }
    let opened := (s.step (.receive 0 (.didOpen uri t 1))).1
    let answer (line : Nat) := (opened.step (.receive 0 (.hover uri ⟨line, 1⟩))).2.answer
    ((run read (args "2")).exit = 0 ∧ (answer 1).result? ≠ some .null) ∧
      (run read (args "3")).exit ≠ 0 ∧ ¬ (answer 2).result? ≠ some .null := by
  intro t uri read args s opened answer
  have hreturns : t.loneReturns = 0 := rfl
  have hread : read "a".toList = some t := rfl
  have htable : loadTable read (some "t".toList) = .ok ⟨[⟨"foo".toList, []⟩]⟩ := by
    with_unfolding_all rfl
  have hsecond : readArguments false (args "2") =
      .ok (.hover "a".toList 2 2 (some "t".toList) "h".toList) := rfl
  have hthird : readArguments false (args "3") =
      .ok (.hover "a".toList 3 2 (some "t".toList) "h".toList) := rfl
  have hfound := (hover_agrees_with_server hreturns hread htable hsecond (s := s) rfl (n := 0) rfl
    rfl rfl 0 uri 1).1
  have hmissed := (hover_agrees_with_server hreturns hread htable hthird (s := s) rfl (n := 0) rfl
    rfl rfl 0 uri 1).1
  have hexit : (run read (args "2")).exit = 0 := by decide +kernel
  have hexit' : (run read (args "3")).exit ≠ 0 := by decide +kernel
  exact ⟨⟨hexit, hfound.1 hexit⟩, hexit', fun h => hexit' (hmissed.2 h)⟩

end MelScript
