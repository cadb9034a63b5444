import MelScript.Proofs.Outline.Segments

/-! # The walk of an outline

  A token does at most two things to the symbols that the scanner has found. By
  its braces it may *settle* the procedure in which the scanner is: this is
  complete then, and its body ends with the line. After that the scanner
  *places* what the token declares, if anything. `visit_eq` takes each token
  apart in this way, and what is said of a scan follows from one lemma on
  `settle` and one on `place`.

  Both leave alone what was declared before, up to bodies and children. So the
  walk of an outline, which takes each symbol before its children, lists the
  declarations of the script as they are read (`headings_ofLines`).
-/

namespace MelScript

/-! ### One token in two parts -/

namespace Scanner

/-- The scanner after the braces of an occurrence. -/
def settle (s : Scanner) (o : Occurrence) : Scanner :=
  (s.openBlock o.token).closeBlock o.line o.width o.token

/-- The scanner with one more declared symbol. Outside of a procedure, it is in a declared one from
then on. -/
def place (s : Scanner) (x : Symbol) : Scanner :=
  if x.isProcedure && !s.insideProcedure then { s with current := some x } else s.add x

/-- The keyword has no braces. -/
theorem settle_of_keyword (s : Scanner) {o : Occurrence} (h : o.token.text = procKeyword) :
    s.settle o = s := by
  obtain ⟨hopens, hcloses⟩ := braceless_of_keyword h
  simp only [settle, openBlock, hopens, closeBlock_eq, hcloses, Bool.false_eq_true, if_false]

/-- A token settles first, and then what it declares is placed. -/
theorem visit_eq (s : Scanner) (o : Occurrence) :
    s.visit o = o.declared?.elim (s.settle o) (s.settle o).place := by
  unfold Occurrence.declared?
  split
  · next hkey =>
    -- The keyword settles nothing, and what it declares is a procedure.
    rw [visit_of_keyword s hkey, settle_of_keyword s hkey]
    unfold declareProcedure
    rw [if_pos hkey]
    cases hp : declaredProcedure? o.line o.width o.following with
    | none => rfl
    | some p =>
      obtain ⟨hprocedure, _⟩ := declaredProcedure?_shape hp
      show _ = s.place p
      cases hinside : s.insideProcedure <;> simp [place, hprocedure, hinside]
  · next hkey =>
    -- Any other token declares a variable at the most.
    rw [visit_of_not_keyword s hkey]
    unfold declareVariable
    cases hv : declaredVariable? o.line o.token o.following with
    | none => rfl
    | some v =>
      obtain ⟨hprocedure, _⟩ := declaredVariable?_shape hv
      show _ = (s.settle o).place v
      simp [place, hprocedure, settle]

/-- Braces leave the symbols as they are, or they complete the procedure in which the scanner is. -/
theorem settle_cases (s : Scanner) (o : Occurrence) :
    (s.settle o).finished = s.finished ∧ (s.settle o).current = s.current ∨
      (s.settle o).finished = s.finished ++ (s.current.map (·.endAt o.line o.width)).toList ∧
        (s.settle o).current = none := by
  have hopen : (s.openBlock o.token).finished = s.finished ∧
      (s.openBlock o.token).current = s.current := by
    unfold openBlock
    split <;> exact ⟨rfl, rfl⟩
  unfold settle
  rw [closeBlock_eq, hopen.1, hopen.2]
  split
  · split
    · exact .inr ⟨rfl, rfl⟩
    · exact .inl ⟨rfl, rfl⟩
  · exact .inl hopen

/-- In a procedure, everything becomes a child of it. -/
theorem place_of_some {s : Scanner} {p : Symbol} (h : s.current = some p) (x : Symbol) :
    (s.place x).finished = s.finished ∧ (s.place x).current = some (p.addChild x) := by
  simp [place, insideProcedure, add, h]

/-- Outside of a procedure, a procedure is entered and a variable is complete. -/
theorem place_of_none {s : Scanner} (h : s.current = none) (x : Symbol) :
    x.isProcedure = true ∧ (s.place x).finished = s.finished ∧ (s.place x).current = some x ∨
      (s.place x).finished = s.finished ++ [x] ∧ (s.place x).current = none := by
  cases hx : x.isProcedure with
  | true =>
    left
    simp [place, insideProcedure, h, hx]
  | false =>
    right
    simp [place, add, h, hx]

end Scanner

/-! ### Headings -/

/-- What a symbol has from its declaration alone. -/
structure Heading where
  /-- The declared name. -/
  name : Text
  /-- What is declared. -/
  kind : SymbolKind
  /-- Where the name stands. -/
  declaration : Span
  deriving DecidableEq, Repr

namespace Symbol

/-- The symbol without its body and its children. -/
def heading (x : Symbol) : Heading := ⟨x.name, x.kind, x.declaration⟩

theorem walk_eq (depth : Nat) (s : Symbol) :
    walk depth s = (depth, s) :: walkAll (depth + 1) s.children := by
  cases s
  rw [walk]

@[simp] theorem walkAll_nil (depth : Nat) : walkAll depth [] = [] := by
  rw [walkAll]

@[simp] theorem walkAll_cons (depth : Nat) (s : Symbol) (ss : List Symbol) :
    walkAll depth (s :: ss) = (depth, s) :: (walkAll (depth + 1) s.children ++ walkAll depth ss) := by
  rw [walkAll, walk_eq, List.cons_append]

@[simp] theorem walkAll_append (depth : Nat) (ss ss' : List Symbol) :
    walkAll depth (ss ++ ss') = walkAll depth ss ++ walkAll depth ss' := by
  induction ss with
  | nil => simp
  | cons s ss ih => simp [ih]

/-- The headings of symbols and of all below them, in the order of the walk. -/
def headings (depth : Nat) (ss : List Symbol) : List Heading :=
  (walkAll depth ss).map fun e => e.2.heading

@[simp] theorem headings_nil (depth : Nat) : headings depth [] = [] := by
  simp [headings]

@[simp] theorem headings_cons (depth : Nat) (s : Symbol) (ss : List Symbol) :
    headings depth (s :: ss) =
      s.heading :: (headings (depth + 1) s.children ++ headings depth ss) := by
  simp [headings]

@[simp] theorem headings_append (depth : Nat) (ss ss' : List Symbol) :
    headings depth (ss ++ ss') = headings depth ss ++ headings depth ss' := by
  simp [headings]

@[simp] theorem heading_endAt (p : Symbol) (line width : Nat) :
    (p.endAt line width).heading = p.heading := rfl

@[simp] theorem children_endAt (p : Symbol) (line width : Nat) :
    (p.endAt line width).children = p.children := rfl

@[simp] theorem heading_addChild (p x : Symbol) : (p.addChild x).heading = p.heading := rfl

@[simp] theorem children_addChild (p x : Symbol) :
    (p.addChild x).children = p.children ++ [x] := rfl

end Symbol

namespace Scanner

/-- Settling moves a procedure and ends its body, which no heading shows. -/
theorem headings_settle (s : Scanner) (o : Occurrence) :
    Symbol.headings 0 (s.settle o).symbols = Symbol.headings 0 s.symbols := by
  unfold symbols
  rcases s.settle_cases o with ⟨hfinished, hcurrent⟩ | ⟨hfinished, hcurrent⟩
  · rw [hfinished, hcurrent]
  · rw [hfinished, hcurrent]
    cases s.current <;> simp

/-- What is placed comes last in the walk, also as a child: the procedure that gets it is the last
symbol on the top level. -/
theorem headings_place (s : Scanner) {x : Symbol} (hx : x.children = []) :
    Symbol.headings 0 (s.place x).symbols = Symbol.headings 0 s.symbols ++ [x.heading] := by
  unfold symbols
  cases hcurrent : s.current with
  | some p =>
    obtain ⟨hfinished, hplaced⟩ := place_of_some hcurrent x
    rw [hfinished, hplaced]
    simp [hx]
  | none =>
    rcases place_of_none hcurrent x with ⟨_, hfinished, hplaced⟩ | ⟨hfinished, hplaced⟩
    · rw [hfinished, hplaced]
      simp [hx]
    · rw [hfinished, hplaced]
      simp [hx]

end Scanner

/-- What is declared has no children yet. -/
theorem Occurrence.Declares.children {o : Occurrence} {x : Symbol} (h : o.Declares x) :
    x.children = [] := by
  cases h <;> rfl

namespace Scanner

theorem headings_visit (s : Scanner) (o : Occurrence) :
    Symbol.headings 0 (s.visit o).symbols =
      Symbol.headings 0 s.symbols ++ o.declared?.toList.map Symbol.heading := by
  rw [visit_eq]
  cases hdeclared : o.declared? with
  | none => simpa using s.headings_settle o
  | some x =>
    have hchildren : x.children = [] := ((o.declared?_eq_some_iff x).1 hdeclared).children
    simpa [s.headings_settle o] using (s.settle o).headings_place hchildren

/-- The walk grows at its end only, by what is declared. -/
theorem headings_foldl_visit (s : Scanner) (os : List Occurrence) :
    Symbol.headings 0 (os.foldl visit s).symbols =
      Symbol.headings 0 s.symbols ++ (os.filterMap Occurrence.declared?).map Symbol.heading := by
  induction os generalizing s with
  | nil => simp
  | cons o os ih =>
    rw [List.foldl_cons, ih, headings_visit]
    cases hdeclared : o.declared? <;> simp [hdeclared]

end Scanner

/-- **The walk of an outline lists the declarations of the script in reading order.** -/
theorem Outline.headings_ofLines (lines : List Text) :
    Symbol.headings 0 (ofLines lines) =
      ((Occurrence.ofLines lines).filterMap Occurrence.declared?).map Symbol.heading := by
  rw [ofLines_eq_foldl_visit, Scanner.headings_foldl_visit]
  simp [Scanner.symbols, Scanner.start]

/-- Every symbol of an outline, at any depth, has its heading from an occurrence. -/
theorem Outline.exists_declares_of_mem_walkAll {lines : List Text} {depth : Nat} {x : Symbol}
    (hx : (depth, x) ∈ Symbol.walkAll 0 (ofLines lines)) :
    ∃ o ∈ Occurrence.ofLines lines, ∃ y, o.Declares y ∧ y.heading = x.heading := by
  have hheading : x.heading ∈ Symbol.headings 0 (ofLines lines) :=
    List.mem_map.2 ⟨(depth, x), hx, rfl⟩
  rw [headings_ofLines] at hheading
  obtain ⟨y, hy, heq⟩ := List.mem_map.1 hheading
  obtain ⟨o, ho, hdeclared⟩ := List.mem_filterMap.1 hy
  exact ⟨o, ho, y, (o.declared?_eq_some_iff y).1 hdeclared, heq⟩

end MelScript
