import MelScript.Proofs.Outline.Relocation
import MelScript.Proofs.Text.Spacing

/-! # Outlines of lines with other white space

  Two scripts are read that differ in white space only: line by line they have
  the same tokens, at other columns. The scanner passes through states that
  differ in columns only, too:

  - the breaks at the end of a line, which are dropped, are white space
    themselves and hide no token (`Token.scan_dropBreaks`);
  - what a token declares depends on the texts of the tokens that follow, and
    only the columns of the declared symbol on their columns
    (`Occurrence.declared?_withoutColumns`);
  - the state is relocated by each token in the same way
    (`Scanner.visit_withoutColumns`).

  So the outlines are the same but for columns (`spacing_moves_columns_only`).
-/

namespace MelScript

/-! ### Lines with the same tokens -/

/-- Two lines with the same texts of tokens, in the same order. They may differ in the white space
before, between and behind the tokens. -/
def Text.SameTokens (line line' : Text) : Prop :=
  (Token.scan line).map (·.text) = (Token.scan line').map (·.text)

theorem isBlank_of_isBreak {c : Char} (h : Text.isBreak c = true) : isBlank c = true := by
  simp only [Text.isBreak, Bool.or_eq_true, beq_iff_eq] at h
  rcases h with rfl | rfl <;> decide

/-- The breaks at the end of a line are white space. -/
theorem Token.scan_dropBreaks (line : Text) : scan line.dropBreaks = scan line := by
  obtain ⟨tail, hline, hbreaks⟩ := Text.exists_append_dropTail Text.isBreak line
  have hblank : ∀ c ∈ tail, isBlank c = true := fun c hc => isBlank_of_isBreak (hbreaks c hc)
  obtain ⟨cells, rest, h⟩ := exists_spread 0 line.dropBreaks
  have hwhole : Spread 0 (line.dropBreaks ++ tail) cells (rest ++ tail) := h.append_blank hblank
  have hscan := hwhole.scan_eq
  rw [Text.dropBreaks, ← hline] at hscan
  rw [h.scan_eq, hscan]

/-! ### Forgetting columns -/

/-- The position at the start of the line. -/
def Position.withoutColumn (p : Position) : Position := ⟨p.line, 0⟩

/-- The token at the start of the line. -/
def Token.withoutColumn (t : Token) : Token := ⟨t.text, 0⟩

/-- The symbol and all below it, with all columns set to zero. Names, kinds, line numbers and
children stay. -/
def Symbol.withoutColumns : Symbol → Symbol := relocate Position.withoutColumn

namespace Occurrence

/-- The occurrence with all columns set to zero. -/
def withoutColumns (o : Occurrence) : Occurrence :=
  ⟨o.line, 0, o.token.withoutColumn, o.following.map Token.withoutColumn⟩

theorem ofTokens_withoutColumns (n width : Nat) (ts : List Token) :
    (ofTokens n width ts).map withoutColumns = ofTokens n 0 (ts.map Token.withoutColumn) := by
  induction ts with
  | nil => rfl
  | cons t rest ih =>
    rw [ofTokens, List.map_cons, ih, List.map_cons, ofTokens]
    rfl

theorem ofLine_withoutColumns (n : Nat) (line : Text) :
    (ofLine n line).map withoutColumns =
      ofTokens n 0 (((Token.scan line).map (·.text)).map fun text => ⟨text, 0⟩) := by
  unfold ofLine
  rw [ofTokens_withoutColumns, Token.scan_dropBreaks, List.map_map]
  rfl

/-- Scripts with the same tokens have the same occurrences but for columns. -/
theorem ofLinesFrom_withoutColumns {lines lines' : List Text}
    (h : List.Forall₂ Text.SameTokens lines lines') (n : Nat) :
    (ofLinesFrom n lines).map withoutColumns = (ofLinesFrom n lines').map withoutColumns := by
  induction h generalizing n with
  | nil => rfl
  | cons hline _ ih =>
    rw [ofLinesFrom_cons, ofLinesFrom_cons, List.map_append, List.map_append, ih (n + 1),
      ofLine_withoutColumns, ofLine_withoutColumns, hline]

end Occurrence

/-! ### Declarations -/

namespace Scanner

theorem nameToken?_withoutColumn (following : List Token) :
    nameToken? (following.map Token.withoutColumn) =
      (nameToken? following).map Token.withoutColumn := by
  cases following with
  | nil => rfl
  | cons t rest =>
    rw [List.map_cons, nameToken?, nameToken?]
    show (if resultTypes.contains t.text then _ else _) = _
    split
    · exact List.head?_map
    · rfl

theorem declaredProcedure?_withoutColumns (line width : Nat) (following : List Token) :
    (declaredProcedure? line 0 (following.map Token.withoutColumn)).map Symbol.withoutColumns =
      (declaredProcedure? line width following).map Symbol.withoutColumns := by
  unfold declaredProcedure?
  rw [nameToken?_withoutColumn]
  cases nameToken? following with
  | none => rfl
  | some t =>
    simp only [Option.map_some, Option.bind_eq_bind, Option.bind_some]
    -- The name is cut out of the text, and the columns around it are forgotten on both sides.
    show Option.map _ (if (t.text.before '(').isEmpty then none else _) = _
    split <;> rfl

theorem declaredVariable?_withoutColumns (line : Nat) (t : Token) (following : List Token) :
    (declaredVariable? line t.withoutColumn (following.map Token.withoutColumn)).map
        Symbol.withoutColumns =
      (declaredVariable? line t following).map Symbol.withoutColumns := by
  have hassigns : assigns t.withoutColumn (following.map Token.withoutColumn) =
      assigns t following := by
    unfold assigns
    rw [List.head?_map, Option.map_map]
    rfl
  unfold declaredVariable?
  rw [hassigns]
  show Option.map _ (if t.text.head? == some '$' && assigns t following then
    if (Text.dropOne '$' (t.text.before '=')).isEmpty then none else _ else none) = _
  split
  · dsimp only
    split <;> rfl
  · rfl

end Scanner

/-- What an occurrence declares depends on columns in its columns only. -/
theorem Occurrence.declared?_withoutColumns (o : Occurrence) :
    o.withoutColumns.declared?.map Symbol.withoutColumns =
      o.declared?.map Symbol.withoutColumns := by
  unfold declared?
  show Option.map _ (if o.token.text = Scanner.procKeyword then _ else _) = _
  split
  · exact Scanner.declaredProcedure?_withoutColumns o.line o.width o.following
  · exact Scanner.declaredVariable?_withoutColumns o.line o.token o.following

/-! ### The scan -/

namespace Scanner

/-- The scanner with all columns set to zero. -/
def withoutColumns (s : Scanner) : Scanner := s.relocate [] Position.withoutColumn

variable {s s' : Scanner}

/-- Scanners that differ in columns only still do so after tokens that differ in columns only. -/
theorem visit_withoutColumns {o o' : Occurrence} (hs : s.withoutColumns = s'.withoutColumns)
    (ho : o.withoutColumns = o'.withoutColumns) :
    (s.visit o).withoutColumns = (s'.visit o').withoutColumns := by
  -- The result can be told from what both sides have in common.
  have hstep : ∀ (s : Scanner) (o : Occurrence), (s.visit o).withoutColumns =
      (o.withoutColumns.declared?.map Symbol.withoutColumns).elim
        (s.withoutColumns.settle o.withoutColumns)
        (s.withoutColumns.settle o.withoutColumns).place := by
    intro s o
    have hend : Position.withoutColumn ⟨o.line, o.width⟩ =
        ⟨o.withoutColumns.line, o.withoutColumns.width⟩ := rfl
    have htext : o.withoutColumns.token.text = o.token.text := rfl
    rw [o.declared?_withoutColumns]
    exact visit_relocate [] s hend htext
  rw [hstep s o, hstep s' o', hs, ho]

/-- The same for any number of tokens. -/
theorem foldl_visit_withoutColumns {os os' : List Occurrence}
    (h : os.map Occurrence.withoutColumns = os'.map Occurrence.withoutColumns)
    (hs : s.withoutColumns = s'.withoutColumns) :
    (os.foldl visit s).withoutColumns = (os'.foldl visit s').withoutColumns := by
  induction os generalizing os' s s' with
  | nil =>
    have hnil : os' = [] := List.map_eq_nil_iff.1 h.symm
    rw [hnil]
    exact hs
  | cons o os ih =>
    cases os' with
    | nil => cases h
    | cons o' os' =>
      obtain ⟨ho, hrest⟩ := List.cons.inj h
      rw [List.foldl_cons, List.foldl_cons]
      exact ih hrest (visit_withoutColumns hs ho)

end Scanner

namespace Outline

/-- **White space moves columns, and nothing else.** Scripts whose lines have the same tokens have the
same outline: the same names and kinds, nested and ordered in the same way, on the same lines. -/
theorem spacing_moves_columns_only {lines lines' : List Text}
    (h : List.Forall₂ Text.SameTokens lines lines') :
    (ofLines lines).map Symbol.withoutColumns = (ofLines lines').map Symbol.withoutColumns := by
  have hsymbols : ∀ lines : List Text, (ofLines lines).map Symbol.withoutColumns =
      ((Occurrence.ofLines lines).foldl Scanner.visit .start).withoutColumns.symbols := by
    intro lines
    rw [ofLines_eq_foldl_visit]
    exact (Scanner.symbols_relocate [] _ _).symm
  have hoccurrences := Occurrence.ofLinesFrom_withoutColumns h 0
  rw [hsymbols, hsymbols]
  exact congrArg Scanner.symbols (Scanner.foldl_visit_withoutColumns hoccurrences rfl)

/-- A procedure with a variable, and the same one indented and spaced out by tabs and wide spaces. -/
theorem outline_of_respaced_procedure :
    let a : List Text := ["proc string f() \x7b".toList, "$x = 1; \x7d".toList]
    let b : List Text := ["\tproc\u3000string  f() \x7b \r".toList, "  $x\t=\u00a01; \x7d".toList]
    List.Forall₂ Text.SameTokens a b ∧
      (ofLines a).map Symbol.withoutColumns = (ofLines b).map Symbol.withoutColumns ∧
      ((Symbol.walkAll 0 (ofLines b)).map fun e => (e.1, e.2.heading, e.2.body)) =
        [(0, ⟨"f".toList, .procedure, .onLine 0 14 15⟩, ⟨⟨0, 0⟩, ⟨1, 11⟩⟩),
          (1, ⟨"x".toList, .var, .onLine 1 2 4⟩, .onLine 1 2 4)] := by
  intro a b
  have hfirst : Text.SameTokens "proc string f() \x7b".toList
      "\tproc\u3000string  f() \x7b \r".toList := by
    unfold Text.SameTokens
    decide +kernel
  have hsecond : Text.SameTokens "$x = 1; \x7d".toList "  $x\t=\u00a01; \x7d".toList := by
    unfold Text.SameTokens
    decide +kernel
  have h : List.Forall₂ Text.SameTokens a b := .cons hfirst (.cons hsecond .nil)
  exact ⟨h, spacing_moves_columns_only h, by decide +kernel⟩

end Outline

end MelScript
