import MelScript.Proofs.Outline.Geometry

/-! # Outlines in source order

  The walk of an outline lists the declarations as they are read
  (`headings_ofLines`), but a procedure is declared where its keyword is read
  and stands where its name is, one or two tokens further on. These tokens are
  read after it, and what they declare must not start before it:

  - a result type between keyword and name declares nothing;
  - the token of the name is no result type and may declare a variable, which
    then starts where the name does;
  - every later token comes behind the name.

  So the declarations start one behind the other, except for such a pair
  (`walk_in_source_order`).
-/

namespace MelScript

namespace Position

instance : LT Position := ⟨fun p q => p.line < q.line ∨ p.line = q.line ∧ p.column < q.column⟩

theorem lt_def (p q : Position) :
    p < q ↔ p.line < q.line ∨ p.line = q.line ∧ p.column < q.column := Iff.rfl

theorem le_of_lt {p q : Position} (h : p < q) : p ≤ q := by
  rw [lt_def] at h
  rw [le_def]
  omega

theorem lt_irrefl (p : Position) : ¬ p < p := by
  rw [lt_def]
  omega

end Position

/-! ### Occurrences of one line -/

/-- Tokens one behind the other. -/
abbrev Token.InOrder (ts : List Token) : Prop := ts.Pairwise fun t t' => t.column < t'.column

theorem Token.inOrder_scan (line : Text) : InOrder (scan line) := by
  have hapart := Text.pairwise_runsFrom (fun c => !isBlank c) 0 line
  refine hapart.imp ?_
  intro t t' h
  unfold Run.endColumn at h
  omega

namespace Occurrence

variable {o o' : Occurrence} {x x' : Symbol} {n width : Nat} {ts following : List Token} {t : Token}

theorem suffix_of_mem_ofTokens (h : o ∈ ofTokens n width ts) : o.token :: o.following <:+ ts := by
  induction ts with
  | nil => cases h
  | cons t rest ih =>
    rcases List.mem_cons.1 h with rfl | h
    · exact List.suffix_rfl
    · exact (ih h).trans (List.suffix_cons t rest)

/-- A variable starts with its token, and a procedure with the token of its name. -/
theorem Declares.start_cases (h : o.Declares x) :
    x.kind = .var ∧ x.declaration.start = ⟨o.line, o.token.column⟩ ∨
      x.kind = .procedure ∧ ∃ t, Names o.following t ∧ x.declaration.start = ⟨o.line, t.column⟩ := by
  cases h with
  | @procedure t _ _ _ named => exact .inr ⟨rfl, t, named, rfl⟩
  | var => exact .inl ⟨rfl, rfl⟩

theorem Declares.start_line (h : o.Declares x) : x.declaration.start.line = o.line := by
  cases h <;> rfl

/-- What is declared starts behind the token, or it is a variable and starts with it. -/
theorem Declares.start_behind_or_with (h : o.Declares x)
    (horder : Token.InOrder (o.token :: o.following)) :
    o.token.column < x.declaration.start.column ∨
      x.kind = .var ∧ x.declaration.start = ⟨o.line, o.token.column⟩ := by
  rcases h.start_cases with hvar | ⟨_, t, hnamed, hstart⟩
  · exact .inr hvar
  · left
    rw [hstart]
    exact (List.pairwise_cons.1 horder).1 t hnamed.mem

theorem not_declares_of_result (h : o.token.text ∈ Scanner.resultTypes) : ¬ o.Declares x := by
  intro hdeclares
  cases hdeclares with
  | procedure keyword =>
    rw [keyword] at h
    revert h
    decide
  | var cut =>
    rw [cut] at h
    simp [Scanner.resultTypes] at h

/-- Whatever is declared behind the keyword has its token behind the name, or in it. -/
theorem Names.column_lt_or_eq (hnamed : Names following t) (horder : Token.InOrder following)
    (ho' : o' ∈ ofTokens n width following) (hx' : o'.Declares x') :
    t.column < o'.token.column ∨ o'.token = t := by
  cases hnamed with
  | @first _ rest =>
    rcases List.mem_cons.1 ho' with rfl | ho'
    · exact .inr rfl
    · left
      have hmem : o'.token ∈ rest := (mem_ofTokens ho').2.2.1
      exact (List.pairwise_cons.1 horder).1 _ hmem
  | @second r _ rest result =>
    rcases List.mem_cons.1 ho' with rfl | ho'
    · -- The result type declares nothing, so that the name is the first token that may.
      exact absurd hx' (not_declares_of_result result)
    · rcases List.mem_cons.1 ho' with rfl | ho'
      · exact .inr rfl
      · left
        have hmem : o'.token ∈ rest := (mem_ofTokens ho').2.2.1
        have hrest := (List.pairwise_cons.1 horder).2
        exact (List.pairwise_cons.1 hrest).1 _ hmem

/-- What `o'` declares starts behind what `o` declares, or the two share a token: it is the name of
the procedure that `o` declares, and `o'` declares a variable with it. -/
def Precedes (o o' : Occurrence) : Prop :=
  ∀ x x', o.Declares x → o'.Declares x' →
    x.declaration.start < x'.declaration.start ∨
      x.declaration.start = x'.declaration.start ∧ x.kind = .procedure ∧ x'.kind = .var ∧
        o.line = o'.line ∧ Names o.following o'.token

/-- Two occurrences of one line, of which the second one comes later. -/
theorem precedes_of_mem_following (horder : Token.InOrder (o.token :: o.following))
    (ho' : o' ∈ ofTokens o.line width o.following) : Precedes o o' := by
  intro x x' hx hx'
  obtain ⟨hline, _, htoken, _⟩ := mem_ofTokens ho'
  obtain ⟨hfirst, hfollowing⟩ := List.pairwise_cons.1 horder
  have hline' : x'.declaration.start.line = o.line := hx'.start_line.trans hline
  have hlater := hx'.start_behind_or_with
    (hfollowing.sublist (suffix_of_mem_ofTokens ho').sublist)
  have hle : o'.token.column ≤ x'.declaration.start.column := by
    rcases hlater with hlt | ⟨_, hstart'⟩
    · exact Nat.le_of_lt hlt
    · exact Nat.le_of_eq (by rw [hstart'])
  rcases hx.start_cases with ⟨_, hstart⟩ | ⟨hkind, t, hnamed, hstart⟩
  · -- A variable starts with its token, before all tokens that follow.
    left
    have hbehind : o.token.column < o'.token.column := hfirst _ htoken
    rw [hstart, Position.lt_def]
    exact .inr ⟨hline'.symm, Nat.lt_of_lt_of_le hbehind hle⟩
  · rcases hnamed.column_lt_or_eq hfollowing ho' hx' with hlt | rfl
    · left
      rw [hstart, Position.lt_def]
      exact .inr ⟨hline'.symm, Nat.lt_of_lt_of_le hlt hle⟩
    · -- The token of the name is read again. As a keyword it has its own name behind it; as an
      -- assignment it declares a variable right there.
      rcases hlater with hlt | ⟨hkind', hstart'⟩
      · left
        rw [hstart, Position.lt_def]
        exact .inr ⟨hline'.symm, hlt⟩
      · right
        refine ⟨?_, hkind, hkind', hline.symm, hnamed⟩
        rw [hstart, hstart', hline]

theorem pairwise_precedes_ofTokens (n width : Nat) (horder : Token.InOrder ts) :
    (ofTokens n width ts).Pairwise Precedes := by
  induction ts with
  | nil => exact List.Pairwise.nil
  | cons t rest ih =>
    rw [ofTokens, List.pairwise_cons]
    refine ⟨?_, ih (List.pairwise_cons.1 horder).2⟩
    intro o' ho'
    exact precedes_of_mem_following horder ho'

/-! ### Occurrences of a script -/

theorem precedes_of_line_lt (h : o.line < o'.line) : Precedes o o' := by
  intro x x' hx hx'
  left
  rw [Position.lt_def, hx.start_line, hx'.start_line]
  exact .inl h

theorem pairwise_precedes (n : Nat) (lines : List Text) :
    (ofLinesFrom n lines).Pairwise Precedes := by
  induction lines generalizing n with
  | nil => exact List.Pairwise.nil
  | cons line lines ih =>
    rw [ofLinesFrom_cons, List.pairwise_append]
    refine ⟨pairwise_precedes_ofTokens _ _ (Token.inOrder_scan _), ih (n + 1), ?_⟩
    intro o ho o' ho'
    have hline : o.line = n := (mem_ofTokens ho).1
    have hline' : n + 1 ≤ o'.line := le_line_of_mem_ofLinesFrom ho'
    exact precedes_of_line_lt (by omega)

end Occurrence

/-! ### Outlines -/

/-- A token of the script is both the name of a procedure and an assignment to a variable. The
keyword of the procedure is the occurrence `o`, the token is that of the occurrence `o'`. -/
structure SharedToken (lines : List Text) (h h' : Heading) (o o' : Occurrence) : Prop where
  keyword : o ∈ Occurrence.ofLines lines
  token : o' ∈ Occurrence.ofLines lines
  line : o.line = o'.line
  named : Occurrence.Names o.following o'.token
  procedure : h.kind = .procedure ∧ ∃ p, o.Declares p ∧ p.heading = h
  assigned : h'.kind = .var ∧ ∃ v, o'.Declares v ∧ v.heading = h'

namespace Outline

/-- Of any two symbols in the walk the later one starts behind the other, unless they share a
token. -/
theorem pairwise_headings (lines : List Text) :
    (Symbol.headings 0 (ofLines lines)).Pairwise fun h h' =>
      h.declaration.start < h'.declaration.start ∨
        h.declaration.start = h'.declaration.start ∧ ∃ o o', SharedToken lines h h' o o' := by
  rw [headings_ofLines, List.pairwise_map, List.pairwise_filterMap]
  refine (Occurrence.pairwise_precedes 0 lines).imp_of_mem ?_
  intro o o' ho ho' hprecedes x hx x' hx'
  have hdeclares := (o.declared?_eq_some_iff x).1 hx
  have hdeclares' := (o'.declared?_eq_some_iff x').1 hx'
  rcases hprecedes x x' hdeclares hdeclares' with hlt | ⟨heq, hkind, hkind', hline, hnamed⟩
  · exact .inl hlt
  · exact .inr ⟨heq, o, o', ho, ho', hline, hnamed, ⟨hkind, x, hdeclares, rfl⟩,
      ⟨hkind', x', hdeclares', rfl⟩⟩

/-- A procedure with the name of an assignment. -/
example :
    (Symbol.headings 0 (ofLines ["proc string $x=1 proc b()".toList])).map
        (fun h => (h.name, h.declaration.start)) =
      [("$x=1".toList, ⟨0, 12⟩), ("x".toList, ⟨0, 12⟩), ("b".toList, ⟨0, 22⟩)] := by
  decide +kernel

end Outline

end MelScript
