import MelScript.Proofs.Outline.ReadingOrder
import MelScript.Proofs.Text.Stretches

/-! # Where declared names stand

  Every symbol of an outline comes from one occurrence, with the name, the kind
  and the declaration that it got there; only its body and its children are
  settled later. So its name stands in the script where its declaration says:
  on the line of that number, behind as many units as its first column says.
-/

namespace MelScript

/-- The name of a symbol as it is written in a script. -/
def Symbol.spelling (x : Symbol) : Text :=
  match x.kind with
  | .procedure => x.name
  | .var => '$' :: x.name

/-- The name of a symbol stands in lines where its declaration says. -/
def Symbol.StandsIn (x : Symbol) (lines : List Text) : Prop :=
  ∃ n line u v, lines[n]? = some line ∧ line = u ++ x.spelling ++ v ∧
    x.declaration = .onLine n u.width (u.width + x.spelling.width) ∧
    ∀ c ∈ x.spelling, isBlank c = false

/-! ### From occurrences -/

namespace Occurrence

theorem mem_ofTokens {n width : Nat} {ts : List Token} {o : Occurrence}
    (h : o ∈ ofTokens n width ts) :
    o.line = n ∧ o.width = width ∧ o.token ∈ ts ∧ ∀ t ∈ o.following, t ∈ ts := by
  induction ts with
  | nil => cases h
  | cons t rest ih =>
    rcases List.mem_cons.1 h with rfl | h
    · exact ⟨rfl, rfl, List.mem_cons_self, fun t' ht' => List.mem_cons_of_mem t ht'⟩
    · obtain ⟨hline, hwidth, htoken, hfollowing⟩ := ih h
      exact ⟨hline, hwidth, List.mem_cons_of_mem t htoken,
        fun t' ht' => List.mem_cons_of_mem t (hfollowing t' ht')⟩

/-- The line of an occurrence, its width, and the tokens among which it stands. -/
theorem exists_line_of_mem {lines : List Text} {o : Occurrence} (h : o ∈ ofLines lines) :
    ∃ line, lines[o.line]? = some line ∧ o.width = line.dropBreaks.width ∧
      o.token ∈ Token.scan line.dropBreaks ∧
      ∀ t ∈ o.following, t ∈ Token.scan line.dropBreaks := by
  obtain ⟨⟨line, n⟩, hmem, ho⟩ := List.mem_flatMap.1 h
  obtain ⟨hline, hwidth, htoken, hfollowing⟩ := mem_ofTokens ho
  refine ⟨line, ?_, hwidth, htoken, hfollowing⟩
  rw [hline]
  exact List.mem_zipIdx_iff_getElem?.1 hmem

/-- A symbol stands where it says when its name begins a token of its line. -/
theorem standsIn_of_token {lines : List Text} {n : Nat} {line rest : Text} {t : Token}
    {x : Symbol} (hline : lines[n]? = some line) (ht : t ∈ Token.scan line.dropBreaks)
    (hcut : t.text = x.spelling ++ rest)
    (hdeclaration : x.declaration = .onLine n t.column (t.column + x.spelling.width)) :
    x.StandsIn lines := by
  obtain ⟨u, v, hscanned, hcolumn, hblank⟩ := Text.exists_of_mem_scan ht
  obtain ⟨w, hw, _⟩ := Text.exists_append_dropTail Text.isBreak line
  refine ⟨n, line, u, rest ++ v ++ w, hline, ?_, ?_, ?_⟩
  · have hdropped : line.dropTail Text.isBreak = u ++ t.text ++ v := hscanned
    rw [hw, hdropped, hcut]
    simp
  · rw [hdeclaration, hcolumn]
  · intro c hc
    exact hblank c (hcut ▸ List.mem_append_left rest hc)

theorem Names.mem {following : List Token} {t : Token} (h : Names following t) :
    t ∈ following := by
  cases h with
  | first => exact List.mem_cons_self
  | second => exact List.mem_cons_of_mem _ List.mem_cons_self

/-- What an occurrence declares stands where it says. -/
theorem Declares.standsIn {lines : List Text} {o : Occurrence} {x : Symbol} (h : o.Declares x)
    (ho : o ∈ ofLines lines) : x.StandsIn lines := by
  obtain ⟨line, hline, _, htoken, hfollowing⟩ := exists_line_of_mem ho
  cases h with
  | procedure _ named cut => exact standsIn_of_token hline (hfollowing _ named.mem) cut rfl
  | var cut => exact standsIn_of_token hline htoken cut rfl

end Occurrence

/-! ### From whole outlines -/

namespace Symbol

/-- A symbol of a walk is one of those that the walk starts from, or lies below one of them. -/
theorem exists_of_mem_walkAll {depth k : Nat} {ss : List Symbol} {x : Symbol}
    (h : (k, x) ∈ walkAll depth ss) :
    ∃ s ∈ ss, k = depth ∧ x = s ∨ (k, x) ∈ walkAll (depth + 1) s.children := by
  induction ss with
  | nil =>
    rw [walkAll_nil] at h
    cases h
  | cons s ss ih =>
    rw [walkAll_cons] at h
    rcases List.mem_cons.1 h with hhead | h
    · exact ⟨s, List.mem_cons_self, .inl (Prod.mk.inj hhead)⟩
    · rcases List.mem_append.1 h with hbelow | hnext
      · exact ⟨s, List.mem_cons_self, .inr hbelow⟩
      · obtain ⟨s', hs', hx⟩ := ih hnext
        exact ⟨s', List.mem_cons_of_mem s hs', hx⟩

theorem not_mem_walkAll_nil {depth k : Nat} {x : Symbol} : (k, x) ∉ walkAll depth [] := by
  rw [walkAll_nil]
  exact List.not_mem_nil

/-- Where a symbol stands depends on nothing but its heading. -/
theorem StandsIn.congr {x y : Symbol} {lines : List Text} (h : y.StandsIn lines)
    (heq : y.heading = x.heading) : x.StandsIn lines := by
  obtain ⟨hname, hkind, hdeclaration⟩ := Heading.mk.inj heq
  have hspelling : y.spelling = x.spelling := by
    unfold spelling
    rw [hname, hkind]
  unfold StandsIn at h ⊢
  rw [hspelling, hdeclaration] at h
  exact h

end Symbol

/-- **Every symbol of an outline, at any depth, stands where it says.** It has its heading from an
occurrence, and what an occurrence declares stands where it says. -/
theorem Outline.standsIn_of_mem_walkAll {lines : List Text} {depth : Nat} {x : Symbol}
    (hx : (depth, x) ∈ Symbol.walkAll 0 (ofLines lines)) : x.StandsIn lines := by
  obtain ⟨o, ho, y, hdeclares, hheading⟩ := exists_declares_of_mem_walkAll hx
  exact (hdeclares.standsIn ho).congr hheading

end MelScript
