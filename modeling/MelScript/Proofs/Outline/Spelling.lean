import MelScript.Proofs.Outline.Names

/-! # The spelling of declared names

  The columns of a declaration count UTF-16 units, so what it cuts out of its
  line is a stretch of units, and half a character could be among them.

  - `Text.utf16` is the encoding: one unit for a character below `U+10000`, a
    pair of surrogates for any other. Its length is the width of the text
    (`length_utf16`), and different texts have different units
    (`utf16_injective`).
  - `declarations_spell_names` says that the units between the two columns of a
    declaration are those of the declared name, and of nothing else.
-/

namespace MelScript

/-! ### UTF-16 -/

/-- The UTF-16 units of a character. -/
def unitsOf (c : Char) : List Nat :=
  if c.toNat < 0x10000 then [c.toNat]
  else [0xD800 + (c.toNat - 0x10000) / 0x400, 0xDC00 + (c.toNat - 0x10000) % 0x400]

theorem length_unitsOf (c : Char) : (unitsOf c).length = units c := by
  unfold unitsOf units
  split <;> rfl

/-- The number of a character is no surrogate. -/
theorem toNat_not_surrogate (c : Char) :
    c.toNat < 0xD800 ∨ 0xE000 ≤ c.toNat ∧ c.toNat < 0x110000 := by
  have hvalid : c.toNat < 0xD800 ∨ 0xDFFF < c.toNat ∧ c.toNat < 0x110000 := c.valid
  omega

/-- The units of a character end where they end: no character's units begin those of another. -/
theorem eq_of_unitsOf_append {c d : Char} {us vs : List Nat}
    (h : unitsOf c ++ us = unitsOf d ++ vs) : c = d ∧ us = vs := by
  have hc := toNat_not_surrogate c
  have hd := toNat_not_surrogate d
  unfold unitsOf at h
  by_cases hcs : c.toNat < 0x10000
  · by_cases hds : d.toNat < 0x10000
    · rw [if_pos hcs, if_pos hds] at h
      obtain ⟨hnat, hrest⟩ := List.cons.inj h
      exact ⟨Char.toNat_inj.1 hnat, hrest⟩
    · -- One unit against two: the first of the two would be the number of a character.
      rw [if_pos hcs, if_neg hds] at h
      obtain ⟨hnat, _⟩ := List.cons.inj h
      omega
  · by_cases hds : d.toNat < 0x10000
    · rw [if_neg hcs, if_pos hds] at h
      obtain ⟨hnat, _⟩ := List.cons.inj h
      omega
    · rw [if_neg hcs, if_neg hds] at h
      obtain ⟨hhigh, htail⟩ := List.cons.inj h
      obtain ⟨hlow, hrest⟩ := List.cons.inj htail
      have hnat : c.toNat = d.toNat := by omega
      exact ⟨Char.toNat_inj.1 hnat, hrest⟩

namespace Text

/-- The UTF-16 units of a text. -/
def utf16 (t : Text) : List Nat := t.flatMap unitsOf

@[simp] theorem utf16_append (s t : Text) : utf16 (s ++ t) = utf16 s ++ utf16 t := by
  simp [utf16]

theorem length_utf16 (t : Text) : t.utf16.length = t.width := by
  induction t with
  | nil => rfl
  | cons c t ih =>
    show (unitsOf c ++ utf16 t).length = units c + width t
    rw [List.length_append, length_unitsOf, ih]

/-- A text can be read off its units. -/
theorem utf16_injective {s t : Text} (h : s.utf16 = t.utf16) : s = t := by
  have hpos : ∀ c, unitsOf c ≠ [] := by
    intro c hnil
    have hlength := length_unitsOf c
    have := units_pos c
    rw [hnil] at hlength
    simp only [List.length_nil] at hlength
    omega
  induction s generalizing t with
  | nil =>
    cases t with
    | nil => rfl
    | cons d t => exact absurd (List.append_eq_nil_iff.1 h.symm).1 (hpos d)
  | cons c s ih =>
    cases t with
    | nil => exact absurd (List.append_eq_nil_iff.1 h).1 (hpos c)
    | cons d t =>
      have hunits : unitsOf c ++ utf16 s = unitsOf d ++ utf16 t := h
      obtain ⟨rfl, hrest⟩ := eq_of_unitsOf_append hunits
      rw [ih hrest]

/-- The units of a text from one column to another. -/
def unitsBetween (t : Text) (first last : Nat) : List Nat := (t.utf16.take last).drop first

/-- At this column a character of the text starts, or the text ends. -/
def Boundary (t : Text) (column : Nat) : Prop := ∃ u v, t = u ++ v ∧ column = u.width

/-- The columns around a stretch cut out its units. -/
theorem unitsBetween_append (u w v : Text) :
    (u ++ w ++ v).unitsBetween u.width (u.width + w.width) = w.utf16 := by
  have hfirst : u.width = u.utf16.length := u.length_utf16.symm
  have hlast : u.width + w.width = (u ++ w).utf16.length := by
    rw [length_utf16, width_append]
  unfold unitsBetween
  rw [hlast, hfirst, utf16_append (u ++ w), List.take_left, utf16_append, List.drop_left]

end Text

/-! ### Names -/

/-- A declared name is not empty, and it ends before the character that ends the names of its
kind. -/
theorem Occurrence.Declares.name_shape {o : Occurrence} {x : Symbol} (h : o.Declares x) :
    x.name ≠ [] ∧ (x.kind = .procedure → '(' ∉ x.name) ∧ (x.kind = .var → '=' ∉ x.name) := by
  cases h with
  | procedure _ _ _ bare _ nonempty =>
    refine ⟨nonempty, fun _ => bare, ?_⟩
    intro hkind
    cases hkind
  | var _ bare _ _ nonempty =>
    refine ⟨nonempty, ?_, fun _ => bare⟩
    intro hkind
    cases hkind

theorem Symbol.mem_spelling_of_mem_name {x : Symbol} {c : Char} (h : c ∈ x.name) :
    c ∈ x.spelling := by
  unfold spelling
  cases x.kind with
  | procedure => exact h
  | var => exact List.mem_cons_of_mem '$' h

namespace Outline

/-- **Declarations cut out the names.** The declaration of a symbol lies on one line of the script,
from one character boundary to another, and the units between them are those of one text only: the
name for a procedure, the name after its `$` for a variable. The name is not empty, has no white
space in it, and no parenthesis for a procedure, no equals sign for a variable. -/
theorem declarations_spell_names {lines : List Text} {depth : Nat} {x : Symbol}
    (hx : (depth, x) ∈ Symbol.walkAll 0 (ofLines lines)) :
    (∃ line, lines[x.declaration.start.line]? = some line ∧
      x.declaration.stop.line = x.declaration.start.line ∧
      line.Boundary x.declaration.start.column ∧ line.Boundary x.declaration.stop.column ∧
      ∀ w : Text, line.unitsBetween x.declaration.start.column x.declaration.stop.column =
        w.utf16 ↔ w = x.spelling) ∧
    x.name ≠ [] ∧ (∀ c ∈ x.name, isBlank c = false) ∧
    (x.kind = .procedure → '(' ∉ x.name) ∧ (x.kind = .var → '=' ∉ x.name) := by
  obtain ⟨n, line, u, v, hline, hcut, hdeclaration, hblank⟩ := standsIn_of_mem_walkAll hx
  obtain ⟨o, _, y, hdeclares, hheading⟩ := exists_declares_of_mem_walkAll hx
  obtain ⟨hname, hkind, _⟩ := Heading.mk.inj hheading
  have hshape := hdeclares.name_shape
  rw [hname, hkind] at hshape
  refine ⟨⟨line, ?_, ?_, ?_, ?_, ?_⟩, hshape.1, ?_, hshape.2⟩
  · rw [hdeclaration]
    exact hline
  · rw [hdeclaration]
    rfl
  · rw [hdeclaration]
    exact ⟨u, x.spelling ++ v, by rw [hcut, List.append_assoc], rfl⟩
  · rw [hdeclaration]
    exact ⟨u ++ x.spelling, v, hcut, (Text.width_append u x.spelling).symm⟩
  · intro w
    have hunits := Text.unitsBetween_append u x.spelling v
    rw [← hcut] at hunits
    rw [hdeclaration]
    show line.unitsBetween u.width (u.width + x.spelling.width) = w.utf16 ↔ w = x.spelling
    rw [hunits]
    constructor
    · intro h
      exact (Text.utf16_injective h).symm
    · intro h
      rw [h]
  · intro c hc
    exact hblank c (Symbol.mem_spelling_of_mem_name hc)

/-- A name of paired units, behind other ones and inside of a procedure whose line is indented by a
wide space. -/
theorem declaration_of_paired_units :
    let lines : List Text := ["\u3000proc string 😀(int $a) \x7b".toList, "😀 $é😀=1;\r".toList]
    ∃ x, (1, x) ∈ Symbol.walkAll 0 (ofLines lines) ∧ x.name = "é😀".toList ∧
      x.declaration = .onLine 1 3 7 ∧
      (∀ w, Text.unitsBetween "😀 $é😀=1;\r".toList 3 7 = Text.utf16 w ↔ w = "$é😀".toList) ∧
      Text.unitsBetween "😀 $é😀=1;\r".toList 3 7 = [0x24, 0xE9, 0xD83D, 0xDE00] := by
  intro lines
  have hinner : (1, (⟨"é😀".toList, .var, .onLine 1 3 7⟩ : Heading)) ∈
      (Symbol.walkAll 0 (ofLines lines)).map fun e => (e.1, e.2.heading) := by decide +kernel
  obtain ⟨⟨depth, x⟩, hx, heq⟩ := List.mem_map.1 hinner
  obtain ⟨rfl, hheading⟩ := Prod.mk.inj heq
  obtain ⟨hname, hkind, hdeclaration⟩ := Heading.mk.inj hheading
  obtain ⟨⟨line, hline, _, _, _, hspells⟩, _⟩ := declarations_spell_names hx
  have hspelling : x.spelling = "$é😀".toList := by
    unfold Symbol.spelling
    rw [hkind, hname]
    rfl
  rw [hdeclaration] at hline hspells
  rw [hspelling] at hspells
  cases hline
  exact ⟨x, hx, hname, hdeclaration, hspells, by decide⟩

end Outline

end MelScript
