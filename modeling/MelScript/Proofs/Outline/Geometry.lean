import MelScript.Proofs.Outline.Names

/-! # The geometry of an outline

  What the spans of an outline have to do with each other and with the lines of
  the script:

  - `Symbol.WellPlaced` is what holds of every symbol by itself: its spans do not
    run backwards, its declaration lies in its body, and its body is as its kind
    says.
  - A procedure encloses its children once it is closed. While it is open its
    body is no more than its first line, so that its children may lie behind it.

  The body of a procedure is written twice, when it is declared and when it is
  closed, and children are added in between. `Scanner.Geometric` is the invariant
  that goes through all tokens. It has a position that moves along with the
  scanner, the end of the line on which it is: everything in the open procedure
  ends by this position, and so the procedure encloses its children if it is
  closed right there.
-/

namespace MelScript

theorem Span.contains_iff (s t : Span) :
    s.contains t = true ↔ s.start ≤ t.start ∧ t.stop ≤ s.stop := by
  simp [contains]

/-! ### The ends of lines -/

namespace Occurrence

/-- The end of the line of an occurrence. -/
def lineEnd (o : Occurrence) : Position := ⟨o.line, o.width⟩

theorem lineEnd_of_mem_ofLine {n : Nat} {line : Text} {o : Occurrence} (h : o ∈ ofLine n line) :
    o.lineEnd = ⟨n, line.dropBreaks.width⟩ := by
  obtain ⟨hline, hwidth, _⟩ := mem_ofTokens h
  unfold lineEnd
  rw [hline, hwidth]

theorem le_line_of_mem_ofLinesFrom {n : Nat} {lines : List Text} {o : Occurrence}
    (h : o ∈ ofLinesFrom n lines) : n ≤ o.line := by
  obtain ⟨⟨line, k⟩, hmem, ho⟩ := List.mem_flatMap.1 h
  obtain ⟨hline, _⟩ := mem_ofTokens ho
  have hk : n ≤ k := (List.mem_zipIdx hmem).1
  omega

/-- In reading order the ends of lines do not go back. -/
theorem pairwise_lineEnd (n : Nat) (lines : List Text) :
    (ofLinesFrom n lines).Pairwise fun o o' => o.lineEnd ≤ o'.lineEnd := by
  induction lines generalizing n with
  | nil => exact List.Pairwise.nil
  | cons line lines ih =>
    rw [ofLinesFrom_cons, List.pairwise_append]
    refine ⟨?_, ih (n + 1), ?_⟩
    · -- On one line there is one end.
      apply List.pairwise_of_forall_mem_list
      intro o ho o' ho'
      rw [lineEnd_of_mem_ofLine ho, lineEnd_of_mem_ofLine ho']
      exact Position.le_refl _
    · intro o ho o' ho'
      have hlater : n + 1 ≤ o'.line := le_line_of_mem_ofLinesFrom ho'
      rw [lineEnd_of_mem_ofLine ho, Position.le_def]
      left
      show n < o'.line
      omega

end Occurrence

/-! ### One symbol -/

/-- The spans of a symbol are in order. The body of a variable is its declaration; the body of a
procedure goes from the start of the line that declares it to the end of some line. -/
structure Symbol.WellPlaced (lines : List Text) (x : Symbol) : Prop where
  declaration_ordered : x.declaration.start ≤ x.declaration.stop
  body_ordered : x.body.start ≤ x.body.stop
  declaration_inside : x.body.contains x.declaration = true
  of_var : x.kind = .var → x.body = x.declaration ∧ x.children = []
  of_procedure : x.kind = .procedure →
    x.body.start = ⟨x.declaration.start.line, 0⟩ ∧
      ∃ line, lines[x.body.stop.line]? = some line ∧
        x.body.stop.column = line.dropBreaks.width

namespace Occurrence

variable {lines : List Text} {o : Occurrence} {x : Symbol}

/-- What begins a token of a line ends within the line. -/
theorem column_add_width_le {t : Token} {start rest : Text} (ho : o ∈ ofLines lines)
    (ht : t = o.token ∨ t ∈ o.following) (hcut : t.text = start ++ rest) :
    t.column + start.width ≤ o.width := by
  obtain ⟨line, _, hwidth, htoken, hfollowing⟩ := exists_line_of_mem ho
  have hscan : t ∈ Token.scan line.dropBreaks := by
    rcases ht with rfl | ht
    · exact htoken
    · exact hfollowing t ht
  obtain ⟨u, v, hline, hcolumn, _⟩ := Text.exists_of_mem_scan hscan
  rw [hwidth, hline, hcolumn, hcut]
  simp only [Text.width_append]
  omega

theorem Declares.wellPlaced (h : o.Declares x) (ho : o ∈ ofLines lines) :
    x.WellPlaced lines := by
  cases h with
  | @procedure t name rest _ named cut =>
    have hend : t.column + name.width ≤ o.width := column_add_width_le ho (.inr named.mem) cut
    obtain ⟨line, hline, hwidth, _⟩ := exists_line_of_mem ho
    constructor
    · exact (Position.le_def _ _).2 (.inr ⟨rfl, Nat.le_add_right _ _⟩)
    · exact (Position.le_def _ _).2 (.inr ⟨rfl, Nat.zero_le _⟩)
    · rw [Span.contains_iff]
      exact ⟨(Position.le_def _ _).2 (.inr ⟨rfl, Nat.zero_le _⟩),
        (Position.le_def _ _).2 (.inr ⟨rfl, hend⟩)⟩
    · intro hkind
      cases hkind
    · intro _
      exact ⟨rfl, line, hline, hwidth⟩
  | @var name rest cut =>
    have hordered : Position.mk o.line o.token.column ≤
        ⟨o.line, o.token.column + Text.width ('$' :: name)⟩ :=
      (Position.le_def _ _).2 (.inr ⟨rfl, Nat.le_add_right _ _⟩)
    constructor
    · exact hordered
    · exact hordered
    · rw [Span.contains_iff]
      exact ⟨Position.le_refl _, Position.le_refl _⟩
    · intro _
      exact ⟨rfl, rfl⟩
    · intro hkind
      cases hkind

/-- What an occurrence declares begins on its line. -/
theorem Declares.line_body_start (h : o.Declares x) : x.body.start.line = o.line := by
  cases h <;> rfl

/-- What an occurrence declares ends with its line at the latest. -/
theorem Declares.body_stop_le (h : o.Declares x) (ho : o ∈ ofLines lines) :
    x.body.stop ≤ o.lineEnd := by
  cases h with
  | procedure => exact Position.le_refl _
  | var cut =>
    have hend := column_add_width_le ho (.inl rfl) cut
    exact (Position.le_def _ _).2 (.inr ⟨rfl, hend⟩)

end Occurrence

/-! ### A symbol with its children -/

/-- A symbol and its children are well placed. The children have none of their own, they come after
the start of the symbol, and all ends by a position. -/
structure Symbol.EndsBy (lines : List Text) (stop : Position) (x : Symbol) : Prop where
  placed : x.WellPlaced lines
  body : x.body.stop ≤ stop
  children : ∀ c ∈ x.children, c.WellPlaced lines ∧ c.children = [] ∧
    x.body.start ≤ c.body.start ∧ c.body.stop ≤ stop

namespace Symbol

variable {lines : List Text} {stop stop' : Position} {p c x : Symbol} {o : Occurrence}

theorem EndsBy.mono (h : x.EndsBy lines stop) (hstop : stop ≤ stop') : x.EndsBy lines stop' where
  placed := h.placed
  body := Position.le_trans h.body hstop
  children := by
    intro c hc
    obtain ⟨hplaced, hchildren, hstart, hend⟩ := h.children c hc
    exact ⟨hplaced, hchildren, hstart, Position.le_trans hend hstop⟩

/-- What has just been declared has no children. -/
theorem endsBy_of_declares (h : o.Declares x) (ho : o ∈ Occurrence.ofLines lines)
    (hstop : x.body.stop ≤ stop) : x.EndsBy lines stop where
  placed := h.wellPlaced ho
  body := hstop
  children := by
    intro c hc
    rw [h.children] at hc
    cases hc

/-- A procedure that ends by the line of an occurrence may get what this declares as a child. -/
theorem EndsBy.addChild (h : p.EndsBy lines o.lineEnd) (hp : p.kind = .procedure)
    (hc : o.Declares c) (ho : o ∈ Occurrence.ofLines lines) :
    (p.addChild c).EndsBy lines o.lineEnd := by
  refine ⟨⟨h.placed.declaration_ordered, h.placed.body_ordered, h.placed.declaration_inside, ?_,
    h.placed.of_procedure⟩, h.body, ?_⟩
  · intro hkind
    have hvar : p.kind = .var := hkind
    rw [hp] at hvar
    cases hvar
  · intro d hd
    rcases List.mem_append.1 hd with hd | hd
    · exact h.children d hd
    · rw [List.mem_singleton.1 hd]
      refine ⟨hc.wellPlaced ho, hc.children, ?_, hc.body_stop_le ho⟩
      -- The body of the procedure starts at column zero, on this line or before it.
      have hstart := (h.placed.of_procedure hp).1
      have hle : p.body.start ≤ o.lineEnd := Position.le_trans h.placed.body_ordered h.body
      have hline := hc.line_body_start
      show p.body.start ≤ c.body.start
      rw [hstart, Position.le_def] at hle ⊢
      simp only [Occurrence.lineEnd] at hle ⊢
      omega

/-- A procedure that ends by the line of an occurrence may be closed there. Then it encloses its
children. -/
theorem EndsBy.endAt (h : p.EndsBy lines o.lineEnd) (hp : p.kind = .procedure)
    (ho : o ∈ Occurrence.ofLines lines) :
    (p.endAt o.line o.width).EndsBy lines (p.endAt o.line o.width).body.stop := by
  obtain ⟨line, hline, hwidth, _⟩ := Occurrence.exists_line_of_mem ho
  have hinside := (Span.contains_iff _ _).1 h.placed.declaration_inside
  refine ⟨⟨h.placed.declaration_ordered, ?_, ?_, ?_, ?_⟩, Position.le_refl _, h.children⟩
  · exact Position.le_trans h.placed.body_ordered h.body
  · rw [Span.contains_iff]
    exact ⟨hinside.1, Position.le_trans hinside.2 h.body⟩
  · intro hkind
    have hvar : p.kind = .var := hkind
    rw [hp] at hvar
    cases hvar
  · intro _
    exact ⟨(h.placed.of_procedure hp).1, line, hline, hwidth⟩

/-- A symbol whose children end by the end of its body encloses them. -/
theorem EndsBy.contains (h : x.EndsBy lines x.body.stop) (hc : c ∈ x.children) :
    x.body.contains c.body = true := by
  obtain ⟨_, _, hstart, hend⟩ := h.children c hc
  rw [Span.contains_iff]
  exact ⟨hstart, hend⟩

end Symbol

/-! ### The scanner -/

namespace Scanner

/-- What the scanner has found is well placed. The complete symbols enclose their children, and the
procedure in which the scanner is ends by a position. -/
structure Geometric (lines : List Text) (stop : Position) (s : Scanner) : Prop where
  finished : ∀ x ∈ s.finished, x.EndsBy lines x.body.stop
  current : ∀ p, s.current = some p → p.kind = .procedure ∧ p.EndsBy lines stop

theorem geometric_start (lines : List Text) (stop : Position) : Geometric lines stop .start where
  finished := by
    intro x hx
    cases hx
  current := by
    intro p hp
    cases hp

namespace Geometric

variable {lines : List Text} {stop stop' : Position} {s : Scanner} {o : Occurrence} {x : Symbol}

theorem mono (h : Geometric lines stop s) (hstop : stop ≤ stop') : Geometric lines stop' s where
  finished := h.finished
  current := by
    intro p hp
    obtain ⟨hkind, hends⟩ := h.current p hp
    exact ⟨hkind, hends.mono hstop⟩

/-- A procedure is closed at the end of the line, by which all of it ends. -/
theorem settle (h : Geometric lines o.lineEnd s) (ho : o ∈ Occurrence.ofLines lines) :
    Geometric lines o.lineEnd (s.settle o) := by
  rcases s.settle_cases o with ⟨hfinished, hcurrent⟩ | ⟨hfinished, hcurrent⟩
  · constructor
    · rw [hfinished]
      exact h.finished
    · rw [hcurrent]
      exact h.current
  · constructor
    · intro x hx
      rw [hfinished] at hx
      rcases List.mem_append.1 hx with hx | hx
      · exact h.finished x hx
      · obtain ⟨p, hp, rfl⟩ := Option.map_eq_some_iff.1 (Option.mem_toList.1 hx)
        obtain ⟨hkind, hends⟩ := h.current p hp
        exact hends.endAt hkind ho
    · intro p hp
      rw [hcurrent] at hp
      cases hp

/-- A declared symbol is complete, is entered, or becomes a child. -/
theorem place (h : Geometric lines o.lineEnd s) (hx : o.Declares x)
    (ho : o ∈ Occurrence.ofLines lines) : Geometric lines o.lineEnd (s.place x) := by
  cases hcurrent : s.current with
  | some p =>
    obtain ⟨hfinished, hplaced⟩ := place_of_some hcurrent x
    obtain ⟨hkind, hends⟩ := h.current p hcurrent
    constructor
    · rw [hfinished]
      exact h.finished
    · intro q hq
      rw [hplaced] at hq
      cases hq
      exact ⟨hkind, hends.addChild hkind hx ho⟩
  | none =>
    rcases place_of_none hcurrent x with ⟨hproc, hfinished, hplaced⟩ | ⟨hfinished, hplaced⟩
    · -- The scanner was in no procedure and is in this one now.
      constructor
      · rw [hfinished]
        exact h.finished
      · intro q hq
        rw [hplaced] at hq
        cases hq
        refine ⟨?_, Symbol.endsBy_of_declares hx ho (hx.body_stop_le ho)⟩
        simpa [Symbol.isProcedure] using hproc
    · constructor
      · intro y hy
        rw [hfinished] at hy
        rcases List.mem_append.1 hy with hy | hy
        · exact h.finished y hy
        · rw [List.mem_singleton.1 hy]
          exact Symbol.endsBy_of_declares hx ho (Position.le_refl _)
      · intro p hp
        rw [hplaced] at hp
        cases hp

/-- One token. The position moves on to the end of its line. -/
theorem visit (h : Geometric lines stop s) (ho : o ∈ Occurrence.ofLines lines)
    (hstop : stop ≤ o.lineEnd) : Geometric lines o.lineEnd (s.visit o) := by
  have hsettled := (h.mono hstop).settle ho
  rw [visit_eq]
  cases hdeclared : o.declared? with
  | none => exact hsettled
  | some x => exact hsettled.place ((o.declared?_eq_some_iff x).1 hdeclared) ho

/-- All tokens. The induction is on those to come, none of which stands on an earlier line than the
position. -/
theorem foldl_visit {os : List Occurrence} (h : Geometric lines stop s)
    (hmem : ∀ o ∈ os, o ∈ Occurrence.ofLines lines) (hstop : ∀ o ∈ os, stop ≤ o.lineEnd)
    (hordered : os.Pairwise fun o o' => o.lineEnd ≤ o'.lineEnd) :
    ∃ stop', Geometric lines stop' (os.foldl Scanner.visit s) := by
  induction os generalizing s stop with
  | nil => exact ⟨stop, h⟩
  | cons o os ih =>
    obtain ⟨hfirst, hrest⟩ := List.pairwise_cons.1 hordered
    have hvisit := h.visit (hmem o List.mem_cons_self) (hstop o List.mem_cons_self)
    exact ih hvisit (fun o' ho' => hmem o' (List.mem_cons_of_mem o ho')) hfirst hrest

end Geometric

theorem exists_geometric_foldl_feed (lines : List Text) :
    ∃ stop, Geometric lines stop (lines.foldl feed .start) := by
  have hstart : ∀ o ∈ Occurrence.ofLines lines, (⟨0, 0⟩ : Position) ≤ o.lineEnd := by
    intro o _
    rw [Position.le_def]
    simp only [Occurrence.lineEnd]
    omega
  obtain ⟨stop, hgeometric⟩ := (geometric_start lines ⟨0, 0⟩).foldl_visit (fun _ ho => ho) hstart
    (Occurrence.pairwise_lineEnd 0 lines)
  refine ⟨stop, ?_⟩
  rw [foldl_feed_eq]
  exact ⟨hgeometric.finished, hgeometric.current⟩

end Scanner

/-! ### Outlines -/

namespace Outline

variable {lines : List Text} {depth : Nat} {x : Symbol}

/-- A symbol on the top level is complete or still open; in both cases it ends somewhere. -/
theorem exists_endsBy (hx : x ∈ ofLines lines) : ∃ stop, x.EndsBy lines stop := by
  obtain ⟨stop, hgeometric⟩ := Scanner.exists_geometric_foldl_feed lines
  rcases List.mem_append.1 hx with hx | hx
  · exact ⟨_, hgeometric.finished x hx⟩
  · exact ⟨_, (hgeometric.current x (Option.mem_toList.1 hx)).2⟩

/-- All symbols stand on the top level or right below it. -/
theorem mem_or_child_of_mem_walkAll (hx : (depth, x) ∈ Symbol.walkAll 0 (ofLines lines)) :
    depth = 0 ∧ x ∈ ofLines lines ∨ ∃ top ∈ ofLines lines, x ∈ top.children := by
  obtain ⟨top, hmem, hx⟩ := Symbol.exists_of_mem_walkAll hx
  rcases hx with ⟨hdepth, rfl⟩ | hbelow
  · exact .inl ⟨hdepth, hmem⟩
  · obtain ⟨c, hc, hx⟩ := Symbol.exists_of_mem_walkAll hbelow
    rcases hx with ⟨_, rfl⟩ | hbelow
    · exact .inr ⟨top, hmem, hc⟩
    · -- Children have no children of their own, so the walk does not go further down.
      obtain ⟨stop, hends⟩ := exists_endsBy hmem
      rw [(hends.children c hc).2.1] at hbelow
      exact absurd hbelow Symbol.not_mem_walkAll_nil

theorem wellPlaced_of_mem_walkAll (hx : (depth, x) ∈ Symbol.walkAll 0 (ofLines lines)) :
    x.WellPlaced lines := by
  rcases mem_or_child_of_mem_walkAll hx with ⟨_, hmem⟩ | ⟨top, hmem, hchild⟩
  · obtain ⟨stop, hends⟩ := exists_endsBy hmem
    exact hends.placed
  · obtain ⟨stop, hends⟩ := exists_endsBy hmem
    exact (hends.children x hchild).1

/-- Only procedures on the top level have children. -/
theorem top_of_children_ne_nil (hx : (depth, x) ∈ Symbol.walkAll 0 (ofLines lines))
    (hne : x.children ≠ []) : depth = 0 ∧ x.kind = .procedure := by
  rcases mem_or_child_of_mem_walkAll hx with ⟨hdepth, _⟩ | ⟨top, hmem, hchild⟩
  · refine ⟨hdepth, ?_⟩
    cases hkind : x.kind with
    | procedure => rfl
    | var => exact absurd ((wellPlaced_of_mem_walkAll hx).of_var hkind).2 hne
  · obtain ⟨stop, hends⟩ := exists_endsBy hmem
    exact absurd (hends.children x hchild).2.1 hne

end Outline

/-- **The geometry of an outline.** All symbols are well placed, and none has children except for
procedures on the top level. The outline is made of the complete symbols and of the procedure that
is open after the last line, if there is one; the complete ones enclose their children. -/
theorem Outline.spans_well_nested (lines : List Text) :
    let scanned := lines.foldl Scanner.feed .start
    (∀ depth x, (depth, x) ∈ Symbol.walkAll 0 (ofLines lines) →
        x.WellPlaced lines ∧ (x.children ≠ [] → depth = 0 ∧ x.kind = .procedure)) ∧
      ofLines lines = scanned.finished ++ scanned.current.toList ∧
      ∀ x ∈ scanned.finished, ∀ c ∈ x.children, x.body.contains c.body = true := by
  intro scanned
  obtain ⟨stop, hgeometric⟩ := Scanner.exists_geometric_foldl_feed lines
  refine ⟨?_, rfl, ?_⟩
  · intro depth x hx
    exact ⟨wellPlaced_of_mem_walkAll hx, top_of_children_ne_nil hx⟩
  · intro x hx c hc
    exact (hgeometric.finished x hx).contains hc

/-- A procedure inside of another one, and a procedure that is never closed. The first one encloses
its child; the child of the last one lies behind its body. -/
theorem Outline.spans_of_unclosed_procedure :
    let lines : List Text := ["proc a() \x7b".toList, "  proc b() \x7b \x7d".toList, "\x7d".toList,
      "proc c() \x7b".toList, "$x = 1".toList]
    let scanned := lines.foldl Scanner.feed .start
    (∃ b, (1, b) ∈ Symbol.walkAll 0 (ofLines lines) ∧ b.name = "b".toList ∧ b.WellPlaced lines) ∧
      (∃ a ∈ scanned.finished, ∃ b ∈ a.children, b.name = "b".toList ∧
        a.body.contains b.body = true) ∧
      scanned.current.any (fun c => c.children.any fun x => !c.body.contains x.body) = true := by
  intro lines scanned
  obtain ⟨hplaced, _, hencloses⟩ := spans_well_nested lines
  refine ⟨?_, ?_, by decide +kernel⟩
  · have hinner : (1, "b".toList) ∈
        (Symbol.walkAll 0 (ofLines lines)).map fun p => (p.1, p.2.name) := by decide +kernel
    obtain ⟨⟨depth, b⟩, hb, heq⟩ := List.mem_map.1 hinner
    obtain ⟨hdepth, hname⟩ := Prod.mk.inj heq
    have hdepth' : depth = 1 := hdepth
    subst hdepth'
    exact ⟨b, hb, hname, (hplaced 1 b hb).1⟩
  · have houter : ["b".toList] ∈ scanned.finished.map fun a => a.children.map Symbol.name := by
      decide +kernel
    obtain ⟨a, ha, hnames⟩ := List.mem_map.1 houter
    have hinner : "b".toList ∈ a.children.map Symbol.name := by
      rw [hnames]
      exact List.mem_singleton_self _
    obtain ⟨b, hb, hname⟩ := List.mem_map.1 hinner
    exact ⟨a, ha, b, hb, hname, hencloses a ha b hb⟩

/-! ### Bounds -/

/-- The line and the column are smaller than a bound. -/
def Position.Below (bound : Nat) (p : Position) : Prop := p.line < bound ∧ p.column < bound

/-- Both ends of a span are below a bound. -/
def Span.Below (bound : Nat) (s : Span) : Prop := s.start.Below bound ∧ s.stop.Below bound

/-- The positions of a symbol are below a bound. Nothing is said of its children. -/
def Symbol.Below (bound : Nat) (x : Symbol) : Prop :=
  x.declaration.Below bound ∧ x.body.Below bound

/-- Positions of a symbol of lines are no larger than the lines are many and wide. -/
theorem Symbol.below_of_placed {lines : List Text} {x : Symbol} {bound : Nat}
    (hstands : x.StandsIn lines) (hplaced : x.WellPlaced lines) (hcount : lines.length ≤ bound)
    (hwidth : ∀ line ∈ lines, line.width < bound) : x.Below bound := by
  obtain ⟨n, line, u, v, hline, hcut, hdeclaration, _⟩ := hstands
  have hn := (List.getElem?_eq_some_iff.1 hline).1
  have hfirst := hwidth line (List.mem_of_getElem? hline)
  have hname : x.declaration.Below bound := by
    rw [hcut, Text.width_append, Text.width_append] at hfirst
    rw [hdeclaration]
    simp only [Span.Below, Position.Below, Span.onLine]
    omega
  refine ⟨hname, ?_⟩
  cases hkind : x.kind with
  | var =>
    rw [(hplaced.of_var hkind).1]
    exact hname
  | procedure =>
    -- The body goes from the line of the declaration to the end of some line.
    obtain ⟨hstart, last, hlast, hcolumn⟩ := hplaced.of_procedure hkind
    have hm := (List.getElem?_eq_some_iff.1 hlast).1
    obtain ⟨w, hw, _⟩ := Text.exists_append_dropTail Text.isBreak last
    have hstop := hwidth last (List.mem_of_getElem? hlast)
    have hle : last.dropBreaks.width ≤ last.width := by
      nth_rewrite 2 [hw]
      rw [Text.width_append]
      exact Nat.le_add_right _ _
    refine ⟨?_, ?_⟩
    · rw [hstart]
      exact ⟨hname.1.1, Nat.zero_lt_of_lt hfirst⟩
    · exact ⟨by omega, by omega⟩

end MelScript
