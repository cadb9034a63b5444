import MelScript.CommandLine.Run
import MelScript.Proofs.Json.Layout
import MelScript.Proofs.Outline.Geometry

/-! # Outlines that are read back

  What the program prints for an outline is read as this outline. The parts of a
  symbol are taken member by member in the order in which they are printed, so
  that the reader's draft of a symbol is filled from the front.

  Symbols nest, and the reader counts the levels of arrays and objects that are
  left to it. `Json.Value.nesting` is the number of levels that a value needs. The
  proof that a tree of symbols is read goes by the number of levels: symbols with
  one level more have arrays of children that need one level less, and arrays with
  one level more have items that need one level less.

  The outline of a script needs few levels, and its positions are no larger than
  its lines are many and wide.
-/

namespace MelScript

open Json

/-! ### Levels -/

namespace Json

mutual

/-- How deep arrays and objects are nested in a value. -/
def Value.nesting : Value → Nat
  | .null => 0
  | .bool _ => 0
  | .number _ => 0
  | .string _ => 0
  | .array items => nestingItems items + 1
  | .object members => nestingMembers members + 1

/-- How deep arrays and objects are nested in items. -/
def nestingItems : List Value → Nat
  | [] => 0
  | v :: vs => max v.nesting (nestingItems vs)

/-- How deep arrays and objects are nested in the values of members. -/
def nestingMembers : List (Text × Value) → Nat
  | [] => 0
  | (_, v) :: ms => max v.nesting (nestingMembers ms)

end

end Json

@[simp] theorem Position.nesting_toJson (p : Position) : p.toJson.nesting = 1 := by
  simp [toJson, Value.nat, Value.nesting, nestingMembers]

@[simp] theorem Span.nesting_toJson (s : Span) : s.toJson.nesting = 2 := by
  simp [toJson, Value.nesting, nestingMembers]

namespace Symbol

theorem nesting_toJson_leaf {s : Symbol} (h : s.children = []) : s.toJson.nesting = 3 := by
  obtain ⟨name, kind, declaration, body, children⟩ := s
  cases h
  simp [toJson, Value.nesting, nestingMembers]

theorem nesting_toJson {s : Symbol} (h : s.children ≠ []) :
    s.toJson.nesting = max 2 (Outline.toJson s.children).nesting + 1 := by
  obtain ⟨name, kind, declaration, body, children⟩ := s
  cases children with
  | nil => exact absurd rfl h
  | cons c cs =>
    simp only [toJson, Outline.toJson, Value.nesting, nestingMembers, Span.nesting_toJson,
      List.cons_append, List.nil_append]
    omega

theorem two_lt_nesting_toJson (s : Symbol) : 2 < s.toJson.nesting := by
  by_cases h : s.children = []
  · rw [nesting_toJson_leaf h]
    decide
  · rw [nesting_toJson h]
    omega

theorem nestingItems_le {ss : List Symbol} {levels : Nat} :
    nestingItems (listToJson ss) ≤ levels ↔ ∀ s ∈ ss, s.toJson.nesting ≤ levels := by
  induction ss with
  | nil => simp [listToJson, nestingItems]
  | cons s ss ih =>
    rw [listToJson, nestingItems, Nat.max_le, ih, List.forall_mem_cons]

end Symbol

/-! ### Sizes -/

theorem Symbol.mem_walkAll_of_mem_walk {s : Symbol} {ss : List Symbol} (hs : s ∈ ss) {depth : Nat}
    {e : Nat × Symbol} (he : e ∈ s.walk depth) : e ∈ walkAll depth ss := by
  induction ss with
  | nil => cases hs
  | cons t ss ih =>
    rw [walkAll, List.mem_append]
    rcases List.mem_cons.1 hs with rfl | hs
    · exact .inl he
    · exact .inr (ih hs)

/-- The line and the column are numbers of 32 bits. -/
def Position.Fits (p : Position) : Prop := p.line < 0x100000000 ∧ p.column < 0x100000000

instance (p : Position) : Decidable p.Fits :=
  inferInstanceAs (Decidable (p.line < 0x100000000 ∧ p.column < 0x100000000))

/-- Both ends of a span fit in 32 bits. -/
def Span.Fits (s : Span) : Prop := s.start.Fits ∧ s.stop.Fits

instance (s : Span) : Decidable s.Fits :=
  inferInstanceAs (Decidable (s.start.Fits ∧ s.stop.Fits))

/-- The positions of a symbol fit in 32 bits. Nothing is said of its children. -/
def Symbol.Fits (s : Symbol) : Prop := s.declaration.Fits ∧ s.body.Fits

instance (s : Symbol) : Decidable s.Fits :=
  inferInstanceAs (Decidable (s.declaration.Fits ∧ s.body.Fits))

namespace Outline

/-! ### Reading the parts -/

theorem reads_text (t : Text) : Reads readText (.string t) t := by
  intro space depth rest hspace _
  show readText (space ++ (quote t ++ rest)) = _
  unfold readText
  rw [skipSpace_quote hspace]
  exact readString_quoted t rest

theorem reads_kind (levels : Nat) (kind : SymbolKind) :
    Reads (readKind levels) (.string kind.name) kind := by
  intro space depth rest hspace _
  have hkind : kindNamed kind.name = .ok kind := by cases kind <;> rfl
  show readKind levels (space ++ (quote kind.name ++ rest)) = _
  unfold readKind
  rw [skipSpace_quote hspace]
  simp only [readString_quoted, hkind, bind, Except.bind, pure, Except.pure]

theorem isSpace_of_isDigit {c : Char} (h : isDigit c = true) : isSpace c = false := by
  simp only [isDigit, Bool.and_eq_true, decide_eq_true_eq] at h
  simp only [isSpace, Bool.or_eq_false_iff, beq_eq_false_iff_ne]
  refine ⟨⟨⟨?_, ?_⟩, ?_⟩, ?_⟩ <;> rintro rfl <;> revert h <;> decide

theorem reads_count {n : Nat} (hn : n < 0x100000000) : Reads readCount (.nat n) n := by
  intro space depth rest hspace hrest
  show readCount (space ++ (Text.ofNat n ++ rest)) = _
  have hread := readNumber_ofNat (n := n) (by unfold Numeral.maxSignificand; omega) hrest
  unfold readCount
  rw [skipSpace_append hspace]
  cases hdigits : Text.ofNat n with
  | nil => exact absurd hdigits Nat.toDigits_ne_nil
  | cons d ds =>
    have hd : isDigit d = true := isDigit_of_mem_ofNat (hdigits ▸ List.mem_cons_self)
    rw [hdigits, List.cons_append] at hread
    rw [List.cons_append, skipSpace_cons (isSpace_of_isDigit hd)]
    simp [hd, hread, hn, bind, Except.bind, pure, Except.pure]

/-- A member that was not there yet is read with its value. -/
theorem field_of_reads {α : Type} {read : Text → Reading (α × Text)} {v : Value} {a : α}
    (h : Reads read v a) (depth : Nat) {rest : Text} (hrest : EndsNumber rest) :
    field none read (':' :: ' ' :: (v.prettyAt depth ++ rest)) = .ok (some a, rest) := by
  have hcolon : readColon (':' :: ' ' :: (v.prettyAt depth ++ rest)) =
      .ok ((), ' ' :: (v.prettyAt depth ++ rest)) := rfl
  have hvalue := h [' '] depth rest (by simp [Spaces, isSpace]) hrest
  rw [List.singleton_append] at hvalue
  simp only [field, hcolon, hvalue, bind, Except.bind, pure, Except.pure]

theorem reads_position {p : Position} (hp : p.Fits) {levels : Nat} (hlevels : 1 ≤ levels) :
    Reads (readPosition levels) p.toJson p := by
  obtain ⟨levels, rfl⟩ := Nat.exists_eq_add_of_le' hlevels
  intro space depth rest hspace _
  unfold readPosition Position.toJson
  -- Of the reader's cases the one for an object is left.
  rw [skipSpace_object hspace]
  simp only []
  rw [record_prettyMembers (none, none) (some p.line, some p.column)]
  · rfl
  refine .cons (some p.line, none) ?_ (.cons (some p.line, some p.column) ?_ .nil)
  · intro d r hr
    simp only [field_of_reads (reads_count hp.1) d hr]
    rfl
  · intro d r hr
    simp only [field_of_reads (reads_count hp.2) d hr]
    rfl

theorem reads_span {s : Span} (hs : s.Fits) {levels : Nat} (hlevels : 2 ≤ levels) :
    Reads (readSpan levels) s.toJson s := by
  obtain ⟨levels, rfl⟩ := Nat.exists_eq_add_of_le' hlevels
  intro space depth rest hspace _
  unfold readSpan Span.toJson
  rw [skipSpace_object hspace]
  simp only []
  -- The object takes one level, the positions in it take another one.
  have hinside : 1 ≤ levels + 1 := Nat.le_add_left 1 levels
  rw [record_prettyMembers (none, none) (some s.start, some s.stop)]
  · rfl
  refine .cons (some s.start, none) ?_ (.cons (some s.start, some s.stop) ?_ .nil)
  · intro d r hr
    simp only [field_of_reads (reads_position hs.1 hinside) d hr]
    rfl
  · intro d r hr
    simp only [field_of_reads (reads_position hs.2 hinside) d hr]
    rfl

/-! ### Reading symbols -/

/-- The draft of a symbol after the members that every symbol has. -/
def draft (s : Symbol) : Draft := ⟨some s.name, some s.kind, some s.declaration, some s.body, none⟩

/-- The members that every symbol has fill a draft, except for the children. -/
theorem takes_draft {s : Symbol} (hs : s.Fits) {levels : Nat} (hlevels : 2 ≤ levels)
    {children : Text → Reading (List Symbol × Text)} {ms : List (Text × Value)} {d : Draft}
    (h : Takes (readMember levels children) (draft s) ms d) :
    Takes (readMember levels children) {}
      (("name".toList, .string s.name) :: ("kind".toList, .string s.kind.name) ::
        ("declarationRange".toList, s.declaration.toJson) ::
        ("bodyRange".toList, s.body.toJson) :: ms) d := by
  refine .cons ⟨some s.name, none, none, none, none⟩ ?_ <|
    .cons ⟨some s.name, some s.kind, none, none, none⟩ ?_ <|
    .cons ⟨some s.name, some s.kind, some s.declaration, none, none⟩ ?_ <|
    .cons (draft s) ?_ h
  · intro depth rest hrest
    unfold readMember
    simp only [field_of_reads (reads_text s.name) depth hrest]
    rfl
  · intro depth rest hrest
    unfold readMember
    simp only [field_of_reads (reads_kind levels s.kind) depth hrest]
    rfl
  · intro depth rest hrest
    unfold readMember
    simp only [field_of_reads (reads_span hs.1 hlevels) depth hrest]
    rfl
  · intro depth rest hrest
    unfold readMember
    simp only [field_of_reads (reads_span hs.2 hlevels) depth hrest]
    rfl

/-- The children, if there are any, make the draft of a symbol complete. -/
theorem takes_children (levels : Nat) {s : Symbol}
    {children : Text → Reading (List Symbol × Text)}
    (h : s.children ≠ [] → Reads children (toJson s.children) s.children) :
    ∃ ms d, s.toJson = .object (("name".toList, .string s.name) ::
        ("kind".toList, .string s.kind.name) ::
        ("declarationRange".toList, s.declaration.toJson) ::
        ("bodyRange".toList, s.body.toJson) :: ms) ∧
      Takes (readMember levels children) (draft s) ms d ∧ d.symbol = .ok s := by
  obtain ⟨name, kind, declaration, body, cs⟩ := s
  cases cs with
  | nil => exact ⟨[], _, by simp [Symbol.toJson], .nil, rfl⟩
  | cons c cs =>
    refine ⟨[("children".toList, toJson (c :: cs))],
      ⟨some name, some kind, some declaration, some body, some (c :: cs)⟩,
      by simp [Symbol.toJson, toJson], .cons _ ?_ .nil, rfl⟩
    intro depth rest hrest
    have hread := h (List.cons_ne_nil c cs)
    unfold readMember draft
    simp only [field_of_reads hread depth hrest]
    rfl

/-- One symbol, if the array of its children is read with one level less. -/
theorem reads_symbol {s : Symbol} (hs : s.Fits) {levels : Nat} (hlevels : 2 ≤ levels)
    (hchildren : s.children ≠ [] →
      Reads (readSymbol.readChildren levels) (toJson s.children) s.children) :
    Reads (readSymbol (levels + 1)) s.toJson s := by
  intro space depth rest hspace _
  -- The last members are those of the children, if there are any.
  obtain ⟨ms, d, hjson, htakes, hd⟩ := takes_children levels hchildren
  rw [hjson]
  unfold readSymbol
  rw [skipSpace_object hspace]
  simp only []
  rw [record_prettyMembers _ _ (takes_draft hs hlevels htakes)]
  simp only [hd, bind, Except.bind, pure, Except.pure]

theorem exists_toJson_eq_object (s : Symbol) : ∃ members, s.toJson = .object members := by
  cases s
  unfold Symbol.toJson
  exact ⟨_, rfl⟩

theorem listToJson_eq_map (ss : List Symbol) : Symbol.listToJson ss = ss.map Symbol.toJson := by
  induction ss with
  | nil => rw [Symbol.listToJson, List.map_nil]
  | cons s ss ih => rw [Symbol.listToJson, ih, List.map_cons]

/-- Symbols, if each of them is read with one level less. -/
theorem reads_symbols {ss : List Symbol} {levels : Nat}
    (h : ∀ s ∈ ss, Reads (readSymbol levels) s.toJson s) :
    Reads (readSymbol.readChildren (levels + 1)) (toJson ss) ss := by
  intro space depth rest hspace _
  unfold readSymbol.readChildren readArray toJson
  rw [listToJson_eq_map]
  cases ss with
  | nil =>
    -- An empty array stays on its line.
    have hempty : skipSpace (space ++ ((Value.array []).prettyAt depth ++ rest)) =
        '[' :: ']' :: rest := by
      rw [skipSpace_append hspace]
      rfl
    rw [List.map_nil, hempty]
    rfl
  | cons s ss =>
    rw [List.map_cons, skipSpace_array hspace]
    apply sequence_prettyItems
    · rw [← List.map_cons, List.forall₂_map_left_iff, List.forall₂_same]
      exact h
    · rw [← List.map_cons]
      simp [exists_toJson_eq_object]

/-- A tree of symbols is read if there are enough levels left. The induction is on the levels, for
symbols and for arrays of symbols together. -/
theorem reads_tree (levels : Nat) :
    (∀ (depth : Nat) (s : Symbol), (∀ e ∈ s.walk depth, e.2.Fits) → s.toJson.nesting ≤ levels →
        Reads (readSymbol levels) s.toJson s) ∧
      ∀ (depth : Nat) (ss : List Symbol), (∀ e ∈ Symbol.walkAll depth ss, e.2.Fits) →
        (toJson ss).nesting ≤ levels →
        Reads (readSymbol.readChildren levels) (toJson ss) ss := by
  induction levels with
  | zero =>
    refine ⟨?_, ?_⟩
    · intro depth s _ hnesting
      have hpos := s.two_lt_nesting_toJson
      omega
    · intro depth ss _ hnesting
      rw [toJson, Value.nesting] at hnesting
      omega
  | succ levels ih =>
    obtain ⟨ihSymbol, ihSymbols⟩ := ih
    refine ⟨?_, ?_⟩
    · intro depth s hfits hnesting
      rw [Symbol.walk_eq, List.forall_mem_cons] at hfits
      have hfirst : s.Fits := hfits.1
      have hlevels := s.two_lt_nesting_toJson
      refine reads_symbol hfirst (by omega) fun hne => ihSymbols _ _ hfits.2 ?_
      have hchildren := Symbol.nesting_toJson hne
      omega
    · intro depth ss hfits hnesting
      have hitems := Symbol.nestingItems_le.1 (Nat.le_of_succ_le_succ hnesting)
      refine reads_symbols fun s hs => ihSymbol depth s ?_ (hitems s hs)
      intro e he
      exact hfits e (Symbol.mem_walkAll_of_mem_walk hs he)

/-- What is printed for an outline is read as this outline. -/
theorem parse_line_pretty {symbols : List Symbol}
    (hfits : ∀ e ∈ Symbol.walkAll 0 symbols, e.2.Fits)
    (hnesting : (toJson symbols).nesting < 128) :
    parse (CommandLine.line (toJson symbols).pretty) = .ok symbols := by
  -- The program ends what it prints with a line feed, which is white space to the reader.
  have hend : EndsNumber ['\n'] := endsNumber_cons (by decide) []
  have hread := (reads_tree maxDepth).2 0 symbols hfits (by unfold maxDepth; omega) [] 0 ['\n']
    spaces_nil hend
  unfold parse CommandLine.line Value.pretty
  rw [List.nil_append] at hread
  rw [hread]
  rfl

/-! ### Outlines of scripts -/

/-- Scripts declare symbols on two levels only. -/
theorem nesting_ofLines (lines : List Text) : (toJson (ofLines lines)).nesting ≤ 6 := by
  apply Nat.succ_le_succ
  rw [Symbol.nestingItems_le]
  intro s hs
  obtain ⟨stop, hends⟩ := exists_endsBy hs
  by_cases hne : s.children = []
  · rw [Symbol.nesting_toJson_leaf hne]
    decide
  · have hchildren : (toJson s.children).nesting ≤ 4 := by
      apply Nat.succ_le_succ
      rw [Symbol.nestingItems_le]
      intro c hc
      rw [Symbol.nesting_toJson_leaf (hends.children c hc).2.1]
    rw [Symbol.nesting_toJson hne]
    omega

theorem parse_line_pretty_ofLines {lines : List Text} (hcount : lines.length ≤ 0x100000000)
    (hwidth : ∀ line ∈ lines, line.width < 0x100000000) :
    parse (CommandLine.line (toJson (ofLines lines)).pretty) = .ok (ofLines lines) := by
  have hnesting := nesting_ofLines lines
  refine parse_line_pretty ?_ (by omega)
  rintro ⟨depth, x⟩ hx
  exact Symbol.below_of_placed (standsIn_of_mem_walkAll hx) (wellPlaced_of_mem_walkAll hx) hcount
    hwidth

/-- **Printed outlines are read back.** What is printed for symbols of any names, kinds and 32-bit
positions, nested less than 128 deep, is read as these symbols. The outline of every script with
32-bit positions is of this form, so that what the program prints for a script is read as the
outline of the script. -/
theorem printed_outline_reads_back :
    (∀ symbols : List Symbol, (∀ e ∈ Symbol.walkAll 0 symbols, e.2.Fits) →
        (toJson symbols).nesting < 128 →
        parse (CommandLine.line (toJson symbols).pretty) = .ok symbols) ∧
      (∀ lines : List Text, lines.length ≤ 0x100000000 →
        (∀ line ∈ lines, line.width < 0x100000000) →
        parse (CommandLine.line (toJson (ofLines lines)).pretty) = .ok (ofLines lines)) ∧
      ∀ (read : Text → Option Text) (file script : Text), read file = some script →
        script.lines.length ≤ 0x100000000 →
        (∀ line ∈ script.lines, line.width < 0x100000000) →
        ∃ printed, (CommandLine.Task.outline file true).run read = .ok printed ∧
          parse printed = .ok (ofText script) := by
  refine ⟨fun symbols => parse_line_pretty, fun lines => parse_line_pretty_ofLines, ?_⟩
  intro read file script hread hcount hwidth
  refine ⟨_, ?_, parse_line_pretty_ofLines hcount hwidth⟩
  simp only [CommandLine.Task.run, CommandLine.readScript, hread]
  rfl

/-- A symbol whose name needs escapes, at the last 32-bit position, with children inside of
children, and the outline of a script. -/
theorem deep_outline_reads_back :
    let far : Span := ⟨⟨0xffffffff, 0⟩, ⟨0xffffffff, 0xffffffff⟩⟩
    let leaf : Symbol := ⟨"\u0001\"é😀\\".toList, .var, far, far, []⟩
    let tree : Symbol := ⟨[], .var, far, far, [leaf, ⟨"b\n".toList, .procedure, far, far, [leaf]⟩]⟩
    let script := "proc a() \x7b\n$x = 1\n".toList
    parse (CommandLine.line (toJson [tree, leaf]).pretty) = .ok [tree, leaf] ∧
      ∃ printed, (CommandLine.Task.outline [] true).run (fun _ => some script) = .ok printed ∧
        parse printed = .ok (ofText script) := by
  intro far leaf tree script
  obtain ⟨htrees, _, hscripts⟩ := printed_outline_reads_back
  exact ⟨htrees [tree, leaf] (by decide) (by decide),
    hscripts (fun _ => some script) [] script rfl (by decide) (by decide)⟩

end Outline

end MelScript
