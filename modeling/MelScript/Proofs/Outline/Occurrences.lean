import MelScript.Outline.Scanner

/-! # The tokens of a script in reading order

  The scanner goes through a script line by line, but what it does with a token
  depends on little: the number and the width of the token's line, and the
  tokens that follow on that line. A token together with these is an
  *occurrence*, and a script is a list of occurrences.

  - `Occurrence.Declares` says which symbol an occurrence declares, and
    `declared?_eq_some_iff` that this is what the scanner finds there.
  - `ofLines_eq_foldl_visit` turns the scan of lines into a fold over the
    occurrences, so that lines can be forgotten in what follows.
-/

namespace MelScript

/-- A token with what the scanner knows of its line. -/
structure Occurrence where
  /-- The number of the line. -/
  line : Nat
  /-- The width of the line without its break. -/
  width : Nat
  /-- The token. -/
  token : Token
  /-- The later tokens of the line. -/
  following : List Token

namespace Occurrence

/-- The occurrences of the tokens of a line. -/
def ofTokens (line width : Nat) : List Token → List Occurrence
  | [] => []
  | t :: rest => ⟨line, width, t, rest⟩ :: ofTokens line width rest

/-- The occurrences of a line. -/
def ofLine (n : Nat) (line : Text) : List Occurrence :=
  ofTokens n line.dropBreaks.width (Token.scan line.dropBreaks)

/-- The occurrences of lines in reading order, when the first line has the number `n`. -/
def ofLinesFrom (n : Nat) (lines : List Text) : List Occurrence :=
  (lines.zipIdx n).flatMap fun (line, k) => ofLine k line

/-- The occurrences of a script in reading order. -/
def ofLines (lines : List Text) : List Occurrence := ofLinesFrom 0 lines

theorem ofLinesFrom_cons (n : Nat) (line : Text) (lines : List Text) :
    ofLinesFrom n (line :: lines) = ofLine n line ++ ofLinesFrom (n + 1) lines := by
  simp [ofLinesFrom]

/-! ### Declarations -/

/-- Among the tokens after the keyword, the one in which the name of a procedure stands: the first
one, or the second one when the first is a result type. -/
inductive Names : List Token → Token → Prop where
  | first {t : Token} {rest : List Token} (plain : t.text ∉ Scanner.resultTypes) :
      Names (t :: rest) t
  | second {r t : Token} {rest : List Token} (result : r.text ∈ Scanner.resultTypes) :
      Names (r :: t :: rest) t

/-- The symbol that an occurrence declares. -/
inductive Declares (o : Occurrence) : Symbol → Prop where
  /-- The keyword declares the procedure whose name is the part of the next token, or the next but
  one, before its first parenthesis. -/
  | procedure {t : Token} {name rest : Text} (keyword : o.token.text = Scanner.procKeyword)
      (named : Names o.following t) (cut : t.text = name ++ rest) (bare : '(' ∉ name)
      (stop : rest = [] ∨ rest.head? = some '(') (nonempty : name ≠ []) :
      Declares o (.procedure name (.onLine o.line t.column (t.column + name.width))
        (.onLine o.line 0 o.width))
  /-- An assignment declares the variable whose name stands between `$` and the first equals
  sign. -/
  | var {name rest : Text} (cut : o.token.text = '$' :: name ++ rest) (bare : '=' ∉ name)
      (stop : rest = [] ∨ rest.head? = some '=')
      (assigned : '=' ∈ o.token.text ∨ o.following.head?.map (·.text) = some ['='])
      (nonempty : name ≠ []) :
      Declares o (.var name
        (.onLine o.line o.token.column (o.token.column + Text.width ('$' :: name))))

/-- The symbol that the scanner finds at an occurrence. -/
def declared? (o : Occurrence) : Option Symbol :=
  if o.token.text = Scanner.procKeyword then
    Scanner.declaredProcedure? o.line o.width o.following
  else Scanner.declaredVariable? o.line o.token o.following

end Occurrence

/-- A text is its part before the first `c` and a rest that is empty or starts with `c`. -/
theorem Text.exists_before (c : Char) (t : Text) :
    ∃ rest, t = t.before c ++ rest ∧ c ∉ t.before c ∧ (rest = [] ∨ rest.head? = some c) := by
  refine ⟨t.dropWhile (· != c), (List.takeWhile_append_dropWhile).symm, ?_, ?_⟩
  · intro hc
    have hne := List.all_eq_true.1 List.all_takeWhile c hc
    simp at hne
  · have hhead := List.head?_dropWhile_not (· != c) t
    cases hrest : t.dropWhile (· != c) with
    | nil => exact .inl rfl
    | cons d rest =>
      rw [hrest] at hhead
      have hd : d = c := by simpa using hhead
      exact .inr (by rw [hd]; rfl)

theorem Text.before_append {c : Char} {name rest : Text} (hname : c ∉ name)
    (hrest : rest = [] ∨ rest.head? = some c) : (name ++ rest).before c = name := by
  unfold before
  rw [List.takeWhile_append_of_pos]
  · rcases hrest with rfl | hrest
    · simp
    · cases rest with
      | nil => simp
      | cons d rest => simp_all
  · intro d hd
    simp only [bne_iff_ne]
    exact fun h => hname (h ▸ hd)

namespace Scanner

open Occurrence

theorem nameToken?_eq_some_iff (following : List Token) (t : Token) :
    nameToken? following = some t ↔ Names following t := by
  cases following with
  | nil =>
    constructor
    · intro h
      cases h
    · intro h
      cases h
  | cons r rest =>
    simp only [nameToken?, List.contains_iff_mem]
    split
    · next hr =>
      constructor
      · intro h
        cases rest with
        | nil => cases h
        | cons t' rest =>
          cases h
          exact .second hr
      · intro h
        cases h with
        | first plain => exact absurd hr plain
        | second => rfl
    · next hr =>
      constructor
      · intro h
        cases h
        exact .first hr
      · intro h
        cases h with
        | first => rfl
        | second result => exact absurd result hr

end Scanner

namespace Occurrence

open Scanner

theorem declaredProcedure?_eq_some_iff (o : Occurrence) (h : o.token.text = procKeyword)
    (s : Symbol) : declaredProcedure? o.line o.width o.following = some s ↔ o.Declares s := by
  constructor
  · intro hs
    cases hname : nameToken? o.following with
    | none => simp [declaredProcedure?, hname] at hs
    | some t =>
      obtain ⟨rest, hcut, hbare, hstop⟩ := t.text.exists_before '('
      by_cases hempty : t.text.before '(' = []
      · simp [declaredProcedure?, hname, hempty] at hs
      · have heq : Symbol.procedure (t.text.before '(')
            (.onLine o.line t.column (t.column + (t.text.before '(').width))
            (.onLine o.line 0 o.width) = s := by
          simpa [declaredProcedure?, hname, hempty] using hs
        rw [← heq]
        exact .procedure h ((nameToken?_eq_some_iff _ t).1 hname) hcut hbare hstop hempty
  · intro hs
    cases hs with
    | @procedure t name rest _ named cut bare stop nonempty =>
      have hbefore : t.text.before '(' = name := by
        rw [cut]
        exact Text.before_append bare stop
      simp [declaredProcedure?, (nameToken?_eq_some_iff _ t).2 named, hbefore, nonempty]
    | var cut =>
      rw [h] at cut
      cases cut

theorem declaredVariable?_eq_some_iff (o : Occurrence) (h : o.token.text ≠ procKeyword)
    (s : Symbol) : declaredVariable? o.line o.token o.following = some s ↔ o.Declares s := by
  have hassigns : assigns o.token o.following = true ↔
      '=' ∈ o.token.text ∨ o.following.head?.map (·.text) = some ['='] := by
    simp [assigns]
  constructor
  · intro hs
    unfold declaredVariable? at hs
    split at hs
    · next hcond =>
      rw [Bool.and_eq_true, hassigns] at hcond
      obtain ⟨hhead, hassigned⟩ := hcond
      obtain ⟨rest, hcut, hbare, hstop⟩ := o.token.text.exists_before '='
      cases htext : o.token.text with
      | nil => simp [htext] at hhead
      | cons c tail =>
        have hc : c = '$' := by simpa [htext] using hhead
        subst hc
        -- The sigil is no equals sign, so it stands before the first one.
        have hbefore : o.token.text.before '=' = '$' :: Text.before '=' tail := by
          simp [htext, Text.before]
        rw [hbefore] at hs hcut hbare
        by_cases hempty : Text.before '=' tail = []
        · simp [Text.dropOne, hempty] at hs
        · have heq : Symbol.var (Text.before '=' tail) (.onLine o.line o.token.column
              (o.token.column + Text.width ('$' :: Text.before '=' tail))) = s := by
            simpa [Text.dropOne, hempty] using hs
          rw [← heq]
          exact .var hcut (fun hmem => hbare (List.mem_cons_of_mem _ hmem)) hstop hassigned hempty
    · cases hs
  · intro hs
    cases hs with
    | procedure keyword => exact absurd keyword h
    | @var name rest cut bare stop assigned nonempty =>
      have hbefore : o.token.text.before '=' = '$' :: name := by
        rw [cut]
        exact Text.before_append (by simpa using bare) stop
      have hcond : (o.token.text.head? == some '$' && assigns o.token o.following) = true := by
        rw [Bool.and_eq_true, hassigns]
        exact ⟨by simp [cut], assigned⟩
      simp [declaredVariable?, hcond, hbefore, Text.dropOne, nonempty]

/-- The scanner finds at an occurrence exactly what that declares. -/
theorem declared?_eq_some_iff (o : Occurrence) (s : Symbol) :
    o.declared? = some s ↔ o.Declares s := by
  unfold declared?
  split
  · next h => exact o.declaredProcedure?_eq_some_iff h s
  · next h => exact o.declaredVariable?_eq_some_iff h s

end Occurrence

/-! ### The scan as a fold -/

/-- A procedure whose body ends with a line of some width. -/
def Symbol.endAt (p : Symbol) (line width : Nat) : Symbol :=
  { p with body := ⟨p.body.start, ⟨line, width⟩⟩ }

namespace Scanner

/-- Takes one occurrence. -/
def visit (s : Scanner) (o : Occurrence) : Scanner := s.token o.line o.width o.token o.following

theorem tokens_eq_foldl_visit (s : Scanner) (line width : Nat) (ts : List Token) :
    s.tokens line width ts = (Occurrence.ofTokens line width ts).foldl visit s := by
  induction ts generalizing s with
  | nil => rfl
  | cons t rest ih => exact ih (s.token line width t rest)

/-- A closing brace that leaves no block open ends the procedure, if there is one. -/
theorem closeBlock_eq (s : Scanner) (line width : Nat) (t : Token) :
    s.closeBlock line width t =
      if t.closesBlock then
        if s.level - 1 = 0 then
          { s with
            finished := s.finished ++ (s.current.map (·.endAt line width)).toList
            current := none
            level := s.level - 1 }
        else { s with level := s.level - 1 }
      else s := by
  unfold closeBlock
  split
  · by_cases hlevel : s.level - 1 = 0
    · cases s.current with
      | none => simp [hlevel]
      | some p => simp [hlevel, Symbol.endAt]
    · simp [hlevel]
  · rfl

/-- The scanner with another line number. -/
def atLine (s : Scanner) (n : Nat) : Scanner := { s with nextLine := n }

theorem add_atLine (s : Scanner) (n : Nat) (x : Symbol) :
    (s.atLine n).add x = (s.add x).atLine n := by
  unfold add atLine
  cases s.current <;> rfl

theorem openBlock_atLine (s : Scanner) (n : Nat) (t : Token) :
    (s.atLine n).openBlock t = (s.openBlock t).atLine n := by
  unfold openBlock atLine
  split <;> rfl

theorem declareProcedure_atLine (s : Scanner) (n line width : Nat) (t : Token)
    (following : List Token) :
    (s.atLine n).declareProcedure line width t following =
      (s.declareProcedure line width t following).atLine n := by
  unfold declareProcedure
  split
  · split
    · rfl
    · next p _ =>
      show (if s.insideProcedure then _ else _) = _
      rw [add_atLine]
      split <;> rfl
  · rfl

theorem closeBlock_atLine (s : Scanner) (n line width : Nat) (t : Token) :
    (s.atLine n).closeBlock line width t = (s.closeBlock line width t).atLine n := by
  rw [closeBlock_eq, closeBlock_eq]
  show (if t.closesBlock then if s.level - 1 = 0 then _ else _ else _) = _
  split
  · split <;> rfl
  · rfl

theorem declareVariable_atLine (s : Scanner) (n line : Nat) (t : Token)
    (following : List Token) :
    (s.atLine n).declareVariable line t following =
      (s.declareVariable line t following).atLine n := by
  unfold declareVariable
  split
  · exact s.add_atLine n _
  · rfl

/-- No token looks at the number of the next line or changes it. -/
theorem visit_atLine (s : Scanner) (n : Nat) (o : Occurrence) :
    (s.atLine n).visit o = (s.visit o).atLine n := by
  unfold visit token
  simp only [openBlock_atLine, declareProcedure_atLine, closeBlock_atLine, declareVariable_atLine]

theorem foldl_visit_atLine (s : Scanner) (n : Nat) (os : List Occurrence) :
    os.foldl visit (s.atLine n) = (os.foldl visit s).atLine n := by
  induction os generalizing s with
  | nil => rfl
  | cons o os ih =>
    simp only [List.foldl_cons]
    rw [visit_atLine, ih]

theorem foldl_feed_eq (s : Scanner) (lines : List Text) :
    lines.foldl feed s =
      ((Occurrence.ofLinesFrom s.nextLine lines).foldl visit s).atLine
        (s.nextLine + lines.length) := by
  induction lines generalizing s with
  | nil => rfl
  | cons line lines ih =>
    have hfeed : s.feed line =
        ((Occurrence.ofLine s.nextLine line).foldl visit s).atLine (s.nextLine + 1) := by
      rw [← foldl_visit_atLine]
      exact tokens_eq_foldl_visit _ _ _ _
    rw [List.foldl_cons, ih, hfeed, foldl_visit_atLine, Occurrence.ofLinesFrom_cons,
      List.foldl_append]
    show atLine _ (s.nextLine + 1 + lines.length) = atLine _ (s.nextLine + (lines.length + 1))
    rw [Nat.add_assoc, Nat.add_comm 1]
    rfl

end Scanner

/-- The outline of lines is found by going through the occurrences once. -/
theorem Outline.ofLines_eq_foldl_visit (lines : List Text) :
    Outline.ofLines lines =
      ((Occurrence.ofLines lines).foldl Scanner.visit .start).symbols := by
  unfold Outline.ofLines
  rw [Scanner.foldl_feed_eq]
  rfl

end MelScript
