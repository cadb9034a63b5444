import MelScript.Proofs.Outline.ReadingOrder

/-! # Outlines with other positions

  The scanner writes positions into the symbols that it finds, and it never
  looks at them again. So it makes no difference whether all positions are taken
  to others, by one function, before a token is read or after it, as long as the
  end of the token's line is taken along (`Scanner.visit_relocate`).

  What an occurrence declares has positions of its own; how they are related to
  those of another occurrence depends on the function and is left open here.
-/

namespace MelScript

/-! ### Symbols -/

/-- The span between the positions to which its ends are taken. -/
def Span.relocate (f : Position → Position) (s : Span) : Span := ⟨f s.start, f s.stop⟩

namespace Symbol

mutual

/-- The symbol and all below it with their positions taken to others. -/
def relocate (f : Position → Position) : Symbol → Symbol
  | ⟨name, kind, declaration, body, children⟩ =>
    ⟨name, kind, declaration.relocate f, body.relocate f, relocateAll f children⟩

/-- Symbols and all below them with their positions taken to others. -/
def relocateAll (f : Position → Position) : List Symbol → List Symbol
  | [] => []
  | s :: ss => s.relocate f :: relocateAll f ss

end

variable (f : Position → Position) (p x : Symbol)

theorem relocateAll_eq_map (ss : List Symbol) : relocateAll f ss = ss.map (relocate f) := by
  induction ss with
  | nil => rw [relocateAll, List.map_nil]
  | cons s ss ih => rw [relocateAll, ih, List.map_cons]

theorem relocate_eq :
    x.relocate f = ⟨x.name, x.kind, x.declaration.relocate f, x.body.relocate f,
      x.children.map (relocate f)⟩ := by
  cases x
  rw [relocate, relocateAll_eq_map]

theorem isProcedure_relocate : (x.relocate f).isProcedure = x.isProcedure := by
  rw [relocate_eq]
  rfl

theorem addChild_relocate :
    (p.relocate f).addChild (x.relocate f) = (p.addChild x).relocate f := by
  rw [relocate_eq f (p.addChild x), relocate_eq f p]
  simp [addChild]

theorem endAt_relocate {line width line' width' : Nat} (h : f ⟨line, width⟩ = ⟨line', width'⟩) :
    (p.relocate f).endAt line' width' = (p.endAt line width).relocate f := by
  rw [relocate_eq f (p.endAt line width), relocate_eq f p]
  simp [endAt, Span.relocate, h]

end Symbol

/-! ### The scanner -/

namespace Scanner

/-- The scanner with the positions of its symbols taken to others, behind further symbols that are
complete. -/
def relocate (earlier : List Symbol) (f : Position → Position) (s : Scanner) : Scanner :=
  { s with
    finished := earlier ++ s.finished.map (Symbol.relocate f)
    current := s.current.map (Symbol.relocate f) }

variable (earlier : List Symbol) {f : Position → Position} (s : Scanner) {o o' : Occurrence}

theorem symbols_relocate (f : Position → Position) :
    (s.relocate earlier f).symbols = earlier ++ s.symbols.map (Symbol.relocate f) := by
  unfold symbols relocate
  cases s.current <;> simp

/-- Braces do the same to relocated symbols, if the body of a procedure is ended where the end of the
line is taken to. -/
theorem settle_relocate (hend : f ⟨o.line, o.width⟩ = ⟨o'.line, o'.width⟩)
    (htext : o'.token.text = o.token.text) :
    (s.relocate earlier f).settle o' = (s.settle o).relocate earlier f := by
  have hopen : (s.relocate earlier f).openBlock o'.token =
      (s.openBlock o.token).relocate earlier f := by
    unfold openBlock Token.opensBlock
    rw [htext]
    split <;> rfl
  have hcloses : o'.token.closesBlock = o.token.closesBlock := by
    unfold Token.closesBlock
    rw [htext]
  unfold settle
  rw [hopen, closeBlock_eq, closeBlock_eq, hcloses]
  -- Only the closing brace is left, and the level that decides on it is the same.
  generalize s.openBlock o.token = s
  show (if o.token.closesBlock then if s.level - 1 = 0 then _ else _ else _) = _
  split
  · split
    · unfold relocate
      cases s.current <;> simp [Symbol.endAt_relocate f _ hend]
    · rfl
  · rfl

theorem place_relocate (x : Symbol) :
    (s.relocate earlier f).place (x.relocate f) = (s.place x).relocate earlier f := by
  -- Where the symbol goes is decided by its kind and by whether there is a procedure.
  have hinside : (s.relocate earlier f).insideProcedure = s.insideProcedure := by
    unfold insideProcedure relocate
    cases s.current <;> rfl
  unfold place
  rw [hinside, Symbol.isProcedure_relocate]
  split
  · rfl
  · unfold add relocate
    cases s.current with
    | none => simp
    | some p => simp [Symbol.addChild_relocate]

/-- A token does to the relocated symbols what it does to the symbols, and what it declares is
relocated as well. -/
theorem visit_relocate (hend : f ⟨o.line, o.width⟩ = ⟨o'.line, o'.width⟩)
    (htext : o'.token.text = o.token.text) :
    (s.visit o).relocate earlier f =
      (o.declared?.map (Symbol.relocate f)).elim ((s.relocate earlier f).settle o')
        ((s.relocate earlier f).settle o').place := by
  rw [visit_eq, settle_relocate earlier s hend htext]
  cases o.declared? with
  | none => rfl
  | some x => exact (place_relocate earlier (s.settle o) x).symm

end Scanner

end MelScript
