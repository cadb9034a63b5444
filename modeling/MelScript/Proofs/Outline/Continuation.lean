import MelScript.Proofs.Outline.Geometry
import MelScript.Proofs.Outline.Relocation

/-! # Scanning on

  What the outline of some lines becomes when more lines follow them.

  - `scanning_on_keeps_outline`: nothing that was found is lost, moved or
    renamed. What is complete stays as it is. The procedure in which the scanner
    is, the last symbol on the top level, gets more children and another end of
    its body, but what is said of it so far stays (`Symbol.Continues`).
  - `outlines_compose_at_rest`: after lines that leave no block open and the
    scanner outside of every procedure, the scan goes on as it would from the
    start, only further down. The two scans are compared by `Scanner.behind`,
    which every token respects, since moving down is a relocation.
-/

namespace MelScript

namespace Scanner

theorem nextLine_foldl_feed (lines : List Text) :
    (lines.foldl feed .start).nextLine = lines.length := by
  rw [foldl_feed_eq]
  exact Nat.zero_add _

end Scanner

/-- More lines are more occurrences, with the numbers that follow. -/
theorem Outline.ofLines_append (a b : List Text) :
    ofLines (a ++ b) = ((Occurrence.ofLinesFrom a.length b).foldl Scanner.visit
      (a.foldl Scanner.feed .start)).symbols := by
  unfold ofLines
  rw [List.foldl_append, Scanner.foldl_feed_eq, Scanner.nextLine_foldl_feed]
  rfl

/-! ### What was found stays -/

namespace Scanner

theorem finished_settle (s : Scanner) (o : Occurrence) :
    s.finished <+: (s.settle o).finished := by
  rcases s.settle_cases o with ⟨hfinished, _⟩ | ⟨hfinished, _⟩
  · simp [hfinished]
  · simp [hfinished]

theorem finished_place (s : Scanner) (x : Symbol) : s.finished <+: (s.place x).finished := by
  cases hcurrent : s.current with
  | some p => simp [(place_of_some hcurrent x).1]
  | none =>
    rcases place_of_none hcurrent x with ⟨_, hfinished, _⟩ | ⟨hfinished, _⟩
    · simp [hfinished]
    · simp [hfinished]

theorem finished_visit (s : Scanner) (o : Occurrence) :
    (s.settle o).finished <+: (s.visit o).finished := by
  rw [visit_eq]
  cases o.declared? with
  | none => exact List.prefix_rfl
  | some x => exact (s.settle o).finished_place x

/-- What is complete stays complete. -/
theorem finished_foldl_visit (s : Scanner) (os : List Occurrence) :
    s.finished <+: (os.foldl visit s).finished := by
  induction os generalizing s with
  | nil => exact List.prefix_rfl
  | cons o os ih => exact ((s.finished_settle o).trans (s.finished_visit o)).trans (ih (s.visit o))

end Scanner

/-- What a procedure becomes in the course of occurrences. It may get more children, and its body
may end with the line of one of them. -/
structure Symbol.Continues (os : List Occurrence) (p q : Symbol) : Prop where
  heading : q.heading = p.heading
  children : p.children <+: q.children
  body : q.body = p.body ∨ ∃ o ∈ os, q.body = ⟨p.body.start, o.lineEnd⟩

namespace Symbol.Continues

variable {os : List Occurrence} {o : Occurrence} {p q : Symbol}

theorem refl (os : List Occurrence) (p : Symbol) : Continues os p p :=
  ⟨rfl, List.prefix_rfl, .inl rfl⟩

theorem endAt (p : Symbol) (o : Occurrence) (os : List Occurrence) :
    Continues (o :: os) p (p.endAt o.line o.width) :=
  ⟨rfl, List.prefix_rfl, .inr ⟨o, List.mem_cons_self, rfl⟩⟩

/-- An occurrence before the others, at which the body stays as it is. -/
theorem cons (h : Continues os p q) : Continues (o :: os) p q := by
  refine ⟨h.heading, h.children, ?_⟩
  rcases h.body with hbody | ⟨o', ho', hbody⟩
  · exact .inl hbody
  · exact .inr ⟨o', List.mem_cons_of_mem o ho', hbody⟩

theorem of_addChild {x : Symbol} (h : Continues os (p.addChild x) q) : Continues os p q :=
  ⟨h.heading, (List.prefix_append _ _).trans h.children, h.body⟩

end Symbol.Continues

namespace Scanner

/-- Where the procedure in which the scanner was stands in the end. The induction is on the
occurrences; as long as the procedure is not complete it is the last symbol, and once it is, it is
among those that stay. -/
theorem symbols_foldl_visit_of_some {s : Scanner} {p : Symbol} (h : s.current = some p)
    (os : List Occurrence) :
    ∃ q rest, p.Continues os q ∧ (os.foldl visit s).symbols = s.finished ++ q :: rest := by
  induction os generalizing s p with
  | nil =>
    refine ⟨p, [], .refl [] p, ?_⟩
    simp [symbols, h]
  | cons o os ih =>
    rw [List.foldl_cons]
    rcases s.settle_cases o with ⟨hfinished, hcurrent⟩ | ⟨hfinished, _⟩
    · -- The procedure goes on, perhaps with one more child.
      rw [h] at hcurrent
      rw [visit_eq, ← hfinished]
      cases o.declared? with
      | none =>
        obtain ⟨q, rest, hq, hsymbols⟩ := ih hcurrent
        exact ⟨q, rest, hq.cons, hsymbols⟩
      | some x =>
        obtain ⟨hplaced, hcurrent'⟩ := place_of_some hcurrent x
        obtain ⟨q, rest, hq, hsymbols⟩ := ih hcurrent'
        rw [hplaced] at hsymbols
        exact ⟨q, rest, hq.of_addChild.cons, hsymbols⟩
    · -- The procedure is complete: nothing that follows changes it.
      rw [h] at hfinished
      obtain ⟨rest, hrest⟩ := (s.finished_visit o).trans ((s.visit o).finished_foldl_visit os)
      refine ⟨p.endAt o.line o.width, rest ++ (os.foldl visit (s.visit o)).current.toList,
        .endAt p o os, ?_⟩
      rw [symbols, ← hrest, hfinished]
      simp

end Scanner

/-- Two lists that have the same beginning and differ at one place of it. -/
theorem getElem?_of_one_changed {α : Type} {front back more : List α} {e e' y : α} {i : Nat}
    (h : (front ++ e :: back)[i]? = some y) :
    (front ++ e' :: (back ++ more))[i]? = some y ∨
      i = front.length ∧ y = e ∧ (front ++ e' :: (back ++ more))[i]? = some e' := by
  rcases Nat.lt_trichotomy i front.length with hlt | rfl | hgt
  · left
    rw [List.getElem?_append_left hlt] at h ⊢
    exact h
  · right
    have hy : y = e := by simpa using h.symm
    exact ⟨rfl, hy, by simp⟩
  · left
    obtain ⟨k, rfl⟩ := Nat.exists_eq_add_of_lt hgt
    have hk : front.length + k + 1 - front.length = k + 1 := by omega
    rw [List.getElem?_append_right (by omega), hk, List.getElem?_cons_succ] at h ⊢
    obtain ⟨hlt, _⟩ := List.getElem?_eq_some_iff.1 h
    rw [List.getElem?_append_left hlt]
    exact h

/-- The body of a procedure that is open after some lines ends on one of them. -/
theorem Scanner.body_stop_lt {lines : List Text} {p : Symbol}
    (h : (lines.foldl feed .start).current = some p) : p.body.stop.line < lines.length := by
  obtain ⟨stop, hgeometric⟩ := exists_geometric_foldl_feed lines
  obtain ⟨hkind, hends⟩ := hgeometric.current p h
  obtain ⟨_, line, hline, _⟩ := hends.placed.of_procedure hkind
  exact (List.getElem?_eq_some_iff.1 hline).1

namespace Outline

variable {a : List Text} {p : Symbol}

/-- Outside of a procedure, all that was found is complete. -/
theorem walkAll_prefix_of_none (h : (a.foldl Scanner.feed .start).current = none)
    (b : List Text) :
    Symbol.walkAll 0 (ofLines a) <+: Symbol.walkAll 0 (ofLines (a ++ b)) := by
  have ha : ofLines a = (a.foldl Scanner.feed .start).finished := by
    simp [ofLines, Scanner.symbols, h]
  obtain ⟨rest, hrest⟩ := (a.foldl Scanner.feed .start).finished_foldl_visit
    (Occurrence.ofLinesFrom a.length b)
  rw [ofLines_append, Scanner.symbols, ← hrest, ha]
  simp only [Symbol.walkAll_append, List.append_assoc]
  exact List.prefix_append _ _

/-- In a procedure, the walk changes in the place of this procedure and at its end. -/
theorem exists_walkAll_of_some (h : (a.foldl Scanner.feed .start).current = some p)
    (b : List Text) :
    ∃ q back more, p.Continues (Occurrence.ofLinesFrom a.length b) q ∧
      Symbol.walkAll 0 (ofLines a) = Symbol.walkAll 0 (ofLines a).dropLast ++ (0, p) :: back ∧
      Symbol.walkAll 0 (ofLines (a ++ b)) =
        Symbol.walkAll 0 (ofLines a).dropLast ++ (0, q) :: (back ++ more) := by
  obtain ⟨q, rest, hq, hsymbols⟩ := Scanner.symbols_foldl_visit_of_some h
    (Occurrence.ofLinesFrom a.length b)
  have ha : ofLines a = (a.foldl Scanner.feed .start).finished ++ [p] := by
    simp [ofLines, Scanner.symbols, h]
  obtain ⟨added, hadded⟩ := hq.children
  refine ⟨q, Symbol.walkAll 1 p.children, Symbol.walkAll 1 added ++ Symbol.walkAll 0 rest, hq, ?_, ?_⟩
  · simp [ha]
  · rw [ofLines_append, hsymbols, ha, List.dropLast_concat]
    simp [← hadded]

/-- A procedure that is open after the first line. -/
example :
    (ofLines ["proc a() \x7b".toList]).map (·.body.stop) = [⟨0, 10⟩] ∧
      (ofLines ["proc a() \x7b".toList, "\x7d".toList]).map (·.body.stop) = [⟨1, 1⟩] := by
  decide +kernel

end Outline

/-! ### Further down -/

/-- The position `n` lines further down. -/
def Position.down (n : Nat) (p : Position) : Position := { p with line := p.line + n }

/-- The span `n` lines further down. -/
def Span.down (n : Nat) (s : Span) : Span := ⟨s.start.down n, s.stop.down n⟩

namespace Symbol

mutual

/-- The symbol and all below it `n` lines further down. -/
def down (n : Nat) : Symbol → Symbol
  | ⟨name, kind, declaration, body, children⟩ =>
    ⟨name, kind, declaration.down n, body.down n, downAll n children⟩

/-- Symbols and all below them `n` lines further down. -/
def downAll (n : Nat) : List Symbol → List Symbol
  | [] => []
  | s :: ss => s.down n :: downAll n ss

end

mutual

theorem relocate_down (n : Nat) (s : Symbol) : s.relocate (Position.down n) = s.down n := by
  match s with
  | ⟨name, kind, declaration, body, children⟩ =>
    rw [relocate, down, relocateAll_down n children]
    rfl

theorem relocateAll_down (n : Nat) (ss : List Symbol) :
    relocateAll (Position.down n) ss = downAll n ss := by
  match ss with
  | [] => rw [relocateAll, downAll]
  | s :: ss => rw [relocateAll, downAll, relocate_down n s, relocateAll_down n ss]

end

/-- Moving down is one way to take positions to others. -/
theorem down_eq_relocate (n : Nat) : down n = relocate (Position.down n) := by
  funext s
  exact (relocate_down n s).symm

theorem down_eq (n : Nat) (s : Symbol) :
    s.down n = ⟨s.name, s.kind, s.declaration.down n, s.body.down n, s.children.map (down n)⟩ := by
  rw [down_eq_relocate, relocate_eq]
  rfl

end Symbol

namespace Occurrence

/-- The occurrence `n` lines further down. -/
def down (n : Nat) (o : Occurrence) : Occurrence := { o with line := o.line + n }

theorem ofTokens_down (n line width : Nat) (ts : List Token) :
    ofTokens (line + n) width ts = (ofTokens line width ts).map (down n) := by
  induction ts with
  | nil => rfl
  | cons t rest ih =>
    rw [ofTokens, ofTokens, List.map_cons, ih]
    rfl

/-- The occurrences of lines that come after `n` others. -/
theorem ofLinesFrom_eq_map_down (n : Nat) (lines : List Text) :
    ofLinesFrom n lines = (ofLines lines).map (down n) := by
  unfold ofLines ofLinesFrom
  rw [List.zipIdx_eq_map_add, List.flatMap_map, List.map_flatMap]
  congr 1
  funext ⟨line, k⟩
  show ofLine (n + k) line = (ofLine k line).map (down n)
  rw [Nat.add_comm n k]
  exact ofTokens_down n k _ _

end Occurrence

namespace Scanner

theorem declaredProcedure?_down (n line width : Nat) (following : List Token) :
    declaredProcedure? (line + n) width following =
      (declaredProcedure? line width following).map (Symbol.down n) := by
  unfold declaredProcedure?
  cases nameToken? following with
  | none => rfl
  | some t =>
    simp only [Option.bind_eq_bind, Option.bind_some]
    split
    · rfl
    · rw [Option.map_some, Symbol.down_eq]
      rfl

theorem declaredVariable?_down (n line : Nat) (t : Token) (following : List Token) :
    declaredVariable? (line + n) t following =
      (declaredVariable? line t following).map (Symbol.down n) := by
  unfold declaredVariable?
  split
  · dsimp only
    split
    · rfl
    · rw [Option.map_some, Symbol.down_eq]
      rfl
  · rfl

end Scanner

/-- An occurrence further down declares the same, further down. -/
theorem Occurrence.declared?_down (n : Nat) (o : Occurrence) :
    (o.down n).declared? = o.declared?.map (Symbol.down n) := by
  unfold declared?
  show (if o.token.text = Scanner.procKeyword then _ else _) = _
  split
  · exact Scanner.declaredProcedure?_down n o.line o.width o.following
  · exact Scanner.declaredVariable?_down n o.line o.token o.following

/-! ### Rest points -/

namespace Scanner

/-- The scanner is in no procedure, and as many blocks were closed as opened. -/
structure AtRest (s : Scanner) : Prop where
  level : s.level = 0
  outside : s.insideProcedure = false

/-- The scanner with its symbols `n` lines further down, behind other symbols that are complete. -/
def behind (earlier : List Symbol) (n : Nat) (s : Scanner) : Scanner :=
  { s with
    finished := earlier ++ s.finished.map (Symbol.down n)
    current := s.current.map (Symbol.down n) }

variable (earlier : List Symbol) (n : Nat) (s : Scanner)

theorem behind_eq_relocate : s.behind earlier n = s.relocate earlier (Position.down n) := by
  unfold behind relocate
  rw [Symbol.down_eq_relocate]

theorem symbols_behind :
    (s.behind earlier n).symbols = earlier ++ s.symbols.map (Symbol.down n) := by
  rw [behind_eq_relocate, symbols_relocate, Symbol.down_eq_relocate]

/-- A token further down does the same to the symbols that are further down, and nothing to those
before them. -/
theorem visit_behind (o : Occurrence) :
    (s.behind earlier n).visit (o.down n) = (s.visit o).behind earlier n := by
  have hend : Position.down n ⟨o.line, o.width⟩ = ⟨(o.down n).line, (o.down n).width⟩ := rfl
  have htext : (o.down n).token.text = o.token.text := rfl
  rw [behind_eq_relocate, behind_eq_relocate, visit_relocate earlier s hend htext, visit_eq,
    Occurrence.declared?_down, Symbol.down_eq_relocate]

theorem foldl_visit_behind (os : List Occurrence) :
    (os.map (Occurrence.down n)).foldl visit (s.behind earlier n) =
      (os.foldl visit s).behind earlier n := by
  induction os generalizing s with
  | nil => rfl
  | cons o os ih =>
    rw [List.map_cons, List.foldl_cons, List.foldl_cons, visit_behind, ih]

/-- At rest the scanner is as at the start, behind what it has found. -/
theorem AtRest.eq_behind {s : Scanner} (h : s.AtRest) (n : Nat) :
    s = (start.behind s.finished n).atLine s.nextLine := by
  have hcurrent : s.current = none := by
    simpa [insideProcedure] using h.outside
  have hlevel := h.level
  cases s
  simp_all [behind, atLine, start]

end Scanner

namespace Outline

/-- **Outlines compose at rest points.** After lines that leave the scanner at rest, the outline is
that of these lines and then that of the others, with all its line numbers moved down. -/
theorem outlines_compose_at_rest {a : List Text} (h : (a.foldl Scanner.feed .start).AtRest)
    (b : List Text) :
    ofLines (a ++ b) = ofLines a ++ (ofLines b).map (Symbol.down a.length) := by
  have ha : ofLines a = (a.foldl Scanner.feed .start).finished := by
    have hcurrent : (a.foldl Scanner.feed .start).current = none := by
      simpa [Scanner.insideProcedure] using h.outside
    simp [ofLines, Scanner.symbols, hcurrent]
  rw [ofLines_append, Occurrence.ofLinesFrom_eq_map_down, h.eq_behind a.length,
    Scanner.foldl_visit_atLine, Scanner.foldl_visit_behind, ofLines_eq_foldl_visit b, ha]
  exact Scanner.symbols_behind _ _ _

/-- A rest point behind stray braces, and a procedure with a child after it. -/
theorem outline_behind_stray_braces :
    let a : List Text := ["proc a() \x7b $x=1 \x7d".toList, "\x7d \x7b".toList]
    let b : List Text := ["proc b()".toList, "\x7b $y=2".toList, "\x7d".toList]
    (a.foldl Scanner.feed .start).AtRest ∧
      ofLines (a ++ b) = ofLines a ++ (ofLines b).map (Symbol.down 2) ∧
      ((Symbol.walkAll 0 (ofLines (a ++ b))).map fun e => (e.1, e.2.heading)) =
        [(0, ⟨"a".toList, .procedure, .onLine 0 5 6⟩), (1, ⟨"x".toList, .var, .onLine 0 11 13⟩),
          (0, ⟨"b".toList, .procedure, .onLine 2 5 6⟩),
          (1, ⟨"y".toList, .var, .onLine 3 2 4⟩)] := by
  intro a b
  have hrest : (a.foldl Scanner.feed .start).AtRest := ⟨by decide +kernel, by decide +kernel⟩
  exact ⟨hrest, outlines_compose_at_rest hrest b, by decide +kernel⟩

end Outline

end MelScript
