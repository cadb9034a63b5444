import Mathlib.Data.List.Induction
import Mathlib.Data.List.Nodup
import MelScript.Proofs.Vocabulary.Fragments
import MelScript.Vocabulary.Index

/-! # The identifier index in closed form

  The index is built fragment by fragment, and what it does with one depends on
  all that it has met before. Here it is told from the whole list of fragments
  at once:

  - the fragments that were met are the fragments of the list;
  - the vocabulary is made of the reserved names and of all names of fragments
    that are no numbers;
  - the lists are made of those names that are no numbers and not reserved, each
    once and in the order of their first fragments. A name belongs to the
    variables if its first fragment has the sigil, and to the words otherwise.

  `Index.ClosedForm` says this. One fragment more keeps it true
  (`ClosedForm.take`), and so does a text (`ClosedForm.after`).
-/

namespace MelScript

/-! ### Names in a list of fragments -/

namespace Text

/-- The name that a fragment stands for. -/
def fragmentName (f : Text) : Text := f.dropOne '$'

/-- Whether a fragment begins with the sigil. -/
def hasSigil (f : Text) : Bool := f.head? == some '$'

end Text

/-- The names of fragments, each once, in the order of their first fragments. -/
def namesOf (F : List Text) : List Text := (F.map Text.fragmentName).eraseDups

/-- The first fragment that stands for a name. -/
def firstFragment? (F : List Text) (w : Text) : Option Text :=
  F.find? fun f => f.fragmentName == w

/-- Whether a name is listed, among the variables or among the words: it is no number, it is not
reserved, and its first fragment has the sigil or not. -/
def isListed (reserved F : List Text) (sigil : Bool) (w : Text) : Bool :=
  !isNumeric w && !reserved.contains w && (firstFragment? F w).any fun f => f.hasSigil == sigil

/-- The names that are listed, among the variables or among the words. -/
def listedNames (reserved F : List Text) (sigil : Bool) : List Text :=
  (namesOf F).filter (isListed reserved F sigil)

section

variable {reserved F : List Text} {f w : Text} {sigil : Bool}

theorem mem_namesOf : w ∈ namesOf F ↔ ∃ f ∈ F, f.fragmentName = w := by
  unfold namesOf
  rw [List.mem_eraseDups, List.mem_map]

theorem namesOf_concat (F : List Text) (f : Text) :
    namesOf (F ++ [f]) =
      namesOf F ++ if f.fragmentName ∈ namesOf F then [] else [f.fragmentName] := by
  have hmem : f.fragmentName ∈ F.map Text.fragmentName ↔ f.fragmentName ∈ namesOf F := by
    rw [mem_namesOf, List.mem_map]
  have hremove : [f.fragmentName].removeAll (F.map Text.fragmentName) =
      if f.fragmentName ∈ namesOf F then [] else [f.fragmentName] := by
    unfold List.removeAll
    rw [List.filter_singleton, List.elem_eq_mem]
    by_cases h : f.fragmentName ∈ namesOf F
    · rw [decide_eq_true (hmem.2 h), if_pos h]
      rfl
    · rw [decide_eq_false (mt hmem.1 h), if_neg h]
      rfl
  unfold namesOf at hremove ⊢
  rw [List.map_append, List.eraseDups_append]
  simp only [List.map_cons, List.map_nil, hremove]
  split <;> rfl

theorem namesOf_concat_of_mem (h : f.fragmentName ∈ namesOf F) :
    namesOf (F ++ [f]) = namesOf F := by
  rw [namesOf_concat, if_pos h, List.append_nil]

theorem namesOf_concat_of_not_mem (h : f.fragmentName ∉ namesOf F) :
    namesOf (F ++ [f]) = namesOf F ++ [f.fragmentName] := by
  rw [namesOf_concat, if_neg h]

theorem nodup_namesOf (F : List Text) : (namesOf F).Nodup := by
  induction F using List.reverseRecOn with
  | nil => exact List.nodup_nil
  | append_singleton F f ih =>
    by_cases h : f.fragmentName ∈ namesOf F
    · rw [namesOf_concat_of_mem h]
      exact ih
    · rw [namesOf_concat_of_not_mem h]
      refine List.nodup_append.2 ⟨ih, List.nodup_singleton _, ?_⟩
      rintro w hw _ hlast rfl
      exact h (List.mem_singleton.1 hlast ▸ hw)

/-- A further fragment is not the first one for a name that is known. -/
theorem isListed_concat_of_mem (h : w ∈ namesOf F) :
    isListed reserved (F ++ [f]) sigil w = isListed reserved F sigil w := by
  obtain ⟨f', hf', hname⟩ := mem_namesOf.1 h
  have hsome : (firstFragment? F w).isSome = true := by
    rw [firstFragment?, List.find?_isSome]
    exact ⟨f', hf', by simpa using hname⟩
  have hfirst : firstFragment? (F ++ [f]) w = firstFragment? F w := by
    unfold firstFragment? at hsome ⊢
    rw [List.find?_append, Option.or_of_isSome hsome]
  unfold isListed
  rw [hfirst]

/-- A further fragment is the first one for a name that is not known. -/
theorem isListed_concat_of_not_mem (h : f.fragmentName ∉ namesOf F) :
    isListed reserved (F ++ [f]) sigil f.fragmentName =
      (!isNumeric f.fragmentName && !reserved.contains f.fragmentName &&
        (f.hasSigil == sigil)) := by
  have hnone : F.find? (fun f' => f'.fragmentName == f.fragmentName) = none := by
    rw [List.find?_eq_none]
    intro f' hf' hname
    exact h (mem_namesOf.2 ⟨f', hf', by simpa using hname⟩)
  have hfirst : firstFragment? (F ++ [f]) f.fragmentName = some f := by
    unfold firstFragment?
    rw [List.find?_append, hnone]
    simp
  unfold isListed
  rw [hfirst]
  rfl

theorem filter_namesOf_concat :
    (namesOf F).filter (isListed reserved (F ++ [f]) sigil) = listedNames reserved F sigil := by
  apply List.filter_congr
  intro w hw
  exact isListed_concat_of_mem hw

/-- A fragment adds nothing if its name is known, a number or reserved. -/
theorem listedNames_concat_of_old
    (h : f.fragmentName ∈ namesOf F ∨ isNumeric f.fragmentName = true ∨
      f.fragmentName ∈ reserved) :
    listedNames reserved (F ++ [f]) sigil = listedNames reserved F sigil := by
  by_cases hmem : f.fragmentName ∈ namesOf F
  · unfold listedNames
    rw [namesOf_concat_of_mem hmem]
    exact filter_namesOf_concat
  · have hnot : isListed reserved (F ++ [f]) sigil f.fragmentName = false := by
      rw [isListed_concat_of_not_mem hmem]
      rcases h with h | h | h
      · exact absurd h hmem
      · simp [h]
      · simp [h]
    unfold listedNames
    rw [namesOf_concat_of_not_mem hmem, List.filter_append, filter_namesOf_concat]
    simp [hnot, listedNames]

/-- Any other fragment adds its name to one of the lists. -/
theorem listedNames_concat_of_new (hmem : f.fragmentName ∉ namesOf F)
    (hnumeric : isNumeric f.fragmentName = false) (hreserved : f.fragmentName ∉ reserved) :
    listedNames reserved (F ++ [f]) sigil =
      listedNames reserved F sigil ++ if f.hasSigil = sigil then [f.fragmentName] else [] := by
  have hlisted : isListed reserved (F ++ [f]) sigil f.fragmentName = (f.hasSigil == sigil) := by
    rw [isListed_concat_of_not_mem hmem]
    simp [hnumeric, hreserved]
  unfold listedNames
  rw [namesOf_concat_of_not_mem hmem, List.filter_append, filter_namesOf_concat]
  by_cases hsigil : f.hasSigil = sigil
  · simp [hlisted, hsigil, listedNames]
  · simp [hlisted, hsigil, listedNames]

theorem mem_listedNames :
    w ∈ listedNames reserved F sigil ↔
      isNumeric w = false ∧ w ∉ reserved ∧
        ∃ f, firstFragment? F w = some f ∧ f.hasSigil = sigil := by
  unfold listedNames
  rw [List.mem_filter]
  constructor
  · rintro ⟨_, hlisted⟩
    simpa [isListed, and_assoc, Option.any_eq_true] using hlisted
  · rintro ⟨hnumeric, hreserved, f, hfirst, hsigil⟩
    have hname : f.fragmentName = w := by simpa using List.find?_some hfirst
    refine ⟨mem_namesOf.2 ⟨f, List.mem_of_find?_eq_some hfirst, hname⟩, ?_⟩
    simp [isListed, hnumeric, hreserved, hfirst, hsigil]

end

/-! ### One fragment -/

namespace Index

section

variable {s : Index × Growth} {f : Text}

/-- A fragment that was met before changes nothing. -/
theorem take_of_seen (h : f ∈ s.1.seen) : take s f = s := by
  simp [take, h]

/-- A new fragment is only remembered if its name is known or a number. -/
theorem take_of_known (h : f ∉ s.1.seen)
    (hname : isNumeric f.fragmentName = true ∨ f.fragmentName ∈ s.1.vocabulary) :
    take s f = ({ s.1 with seen := f :: s.1.seen }, s.2) := by
  unfold Text.fragmentName at hname
  rcases hname with hname | hname <;> simp [take, contains, h, hname]

/-- A new fragment with a new name is listed. -/
theorem take_of_new (h : f ∉ s.1.seen) (hnumeric : isNumeric f.fragmentName = false)
    (hname : f.fragmentName ∉ s.1.vocabulary) :
    take s f =
      if f.hasSigil then
        ({ seen := f :: s.1.seen, vocabulary := f.fragmentName :: s.1.vocabulary,
           vars := s.1.vars ++ [f.fragmentName], words := s.1.words },
          { s.2 with vars := s.2.vars + 1 })
      else
        ({ seen := f :: s.1.seen, vocabulary := f.fragmentName :: s.1.vocabulary,
           vars := s.1.vars, words := s.1.words ++ [f.fragmentName] },
          { s.2 with words := s.2.words + 1 }) := by
  unfold Text.fragmentName at hnumeric hname
  unfold Text.fragmentName Text.hasSigil
  simp [take, contains, h, hnumeric, hname]

/-- The growth counts what has been added to the two lists. -/
theorem growth_take :
    (take s f).1.vars.length + s.2.vars = s.1.vars.length + (take s f).2.vars ∧
      (take s f).1.words.length + s.2.words = s.1.words.length + (take s f).2.words := by
  by_cases hseen : f ∈ s.1.seen
  · rw [take_of_seen hseen]
    exact ⟨rfl, rfl⟩
  · by_cases hknown : isNumeric f.fragmentName = true ∨ f.fragmentName ∈ s.1.vocabulary
    · rw [take_of_known hseen hknown]
      exact ⟨rfl, rfl⟩
    · rw [not_or, Bool.not_eq_true] at hknown
      rw [take_of_new hseen hknown.1 hknown.2]
      split <;> simp <;> omega

end

/-! ### The closed form -/

/-- What an index with reserved names is after a list of fragments. -/
structure ClosedForm (reserved F : List Text) (index : Index) : Prop where
  seen : ∀ f, f ∈ index.seen ↔ f ∈ F
  seen_nodup : index.seen.Nodup
  vocabulary : ∀ w, w ∈ index.vocabulary ↔
    w ∈ reserved ∨ isNumeric w = false ∧ ∃ f ∈ F, f.fragmentName = w
  vars : index.vars = listedNames reserved F true
  words : index.words = listedNames reserved F false

variable {reserved F : List Text}

theorem closedForm_reserving (reserved : List Text) :
    ClosedForm reserved [] (reserving reserved) where
  seen f := Iff.rfl
  seen_nodup := List.nodup_nil
  vocabulary w := by simp [reserving]
  vars := rfl
  words := rfl

theorem exists_name_concat {f w : Text} :
    (∃ f' ∈ F ++ [f], f'.fragmentName = w) ↔
      f.fragmentName = w ∨ ∃ f' ∈ F, f'.fragmentName = w := by
  simp [or_and_right, exists_or, or_comm]

namespace ClosedForm

variable {index : Index} {f : Text}

/-- A fragment that was met before can be left out of the list. -/
theorem concat_of_seen (h : ClosedForm reserved F index) (hseen : f ∈ index.seen) :
    ClosedForm reserved (F ++ [f]) index := by
  have hf : f ∈ F := (h.seen f).1 hseen
  have hold : f.fragmentName ∈ namesOf F := mem_namesOf.2 ⟨f, hf, rfl⟩
  have hsame : ∀ f', f' ∈ F ++ [f] ↔ f' ∈ F := by
    intro f'
    rw [List.mem_append, List.mem_singleton, or_iff_left_of_imp]
    rintro rfl
    exact hf
  refine ⟨fun f' => ?_, h.seen_nodup, fun w => ?_, ?_, ?_⟩
  · rw [h.seen, hsame]
  · simp only [h.vocabulary, hsame]
  · rw [h.vars, listedNames_concat_of_old (.inl hold)]
  · rw [h.words, listedNames_concat_of_old (.inl hold)]

/-- A new fragment is remembered. -/
theorem mem_seen_concat (h : ClosedForm reserved F index) (f' : Text) :
    f' ∈ f :: index.seen ↔ f' ∈ F ++ [f] := by
  rw [List.mem_cons, h.seen, List.mem_append, List.mem_singleton, or_comm]

theorem concat_of_known (h : ClosedForm reserved F index) (hseen : f ∉ index.seen)
    (hname : isNumeric f.fragmentName = true ∨ f.fragmentName ∈ index.vocabulary) :
    ClosedForm reserved (F ++ [f]) { index with seen := f :: index.seen } := by
  have hold : f.fragmentName ∈ namesOf F ∨ isNumeric f.fragmentName = true ∨
      f.fragmentName ∈ reserved := by
    rcases hname with hnumeric | hvocabulary
    · exact .inr (.inl hnumeric)
    · rcases (h.vocabulary _).1 hvocabulary with hreserved | ⟨_, hname⟩
      · exact .inr (.inr hreserved)
      · exact .inl (mem_namesOf.2 hname)
  refine ⟨h.mem_seen_concat, List.nodup_cons.2 ⟨hseen, h.seen_nodup⟩, fun w => ?_, ?_, ?_⟩
  · rw [exists_name_concat, h.vocabulary]
    constructor
    · rintro (hreserved | ⟨hnumeric, hF⟩)
      · exact .inl hreserved
      · exact .inr ⟨hnumeric, .inr hF⟩
    · rintro (hreserved | ⟨hnumeric, rfl | hF⟩)
      · exact .inl hreserved
      · -- The name is no number, so it was known before.
        rw [hnumeric] at hname
        exact (h.vocabulary _).1 (hname.resolve_left (by simp))
      · exact .inr ⟨hnumeric, hF⟩
  · exact h.vars.trans (listedNames_concat_of_old hold).symm
  · exact h.words.trans (listedNames_concat_of_old hold).symm

theorem concat_of_new (h : ClosedForm reserved F index) (hseen : f ∉ index.seen)
    (hnumeric : isNumeric f.fragmentName = false)
    (hname : f.fragmentName ∉ index.vocabulary) :
    ClosedForm reserved (F ++ [f])
      { seen := f :: index.seen, vocabulary := f.fragmentName :: index.vocabulary,
        vars := index.vars ++ if f.hasSigil = true then [f.fragmentName] else [],
        words := index.words ++ if f.hasSigil = false then [f.fragmentName] else [] } := by
  rw [h.vocabulary, not_or, not_and] at hname
  have hreserved : f.fragmentName ∉ reserved := hname.1
  have hnew : f.fragmentName ∉ namesOf F := fun hold => hname.2 hnumeric (mem_namesOf.1 hold)
  refine ⟨h.mem_seen_concat, List.nodup_cons.2 ⟨hseen, h.seen_nodup⟩, fun w => ?_, ?_, ?_⟩
  · rw [exists_name_concat, List.mem_cons, h.vocabulary]
    constructor
    · rintro (rfl | hreserved | ⟨hnumeric, hF⟩)
      · exact .inr ⟨hnumeric, .inl rfl⟩
      · exact .inl hreserved
      · exact .inr ⟨hnumeric, .inr hF⟩
    · rintro (hreserved | ⟨hnumeric, rfl | hF⟩)
      · exact .inr (.inl hreserved)
      · exact .inl rfl
      · exact .inr (.inr ⟨hnumeric, hF⟩)
  · rw [listedNames_concat_of_new hnew hnumeric hreserved, h.vars]
  · rw [listedNames_concat_of_new hnew hnumeric hreserved, h.words]

/-- One fragment more. -/
theorem take {s : Index × Growth} (h : ClosedForm reserved F s.1) (f : Text) :
    ClosedForm reserved (F ++ [f]) (Index.take s f).1 := by
  -- The cases are those of the step: met before, known by its name, or new.
  by_cases hseen : f ∈ s.1.seen
  · rw [take_of_seen hseen]
    exact h.concat_of_seen hseen
  · by_cases hknown : isNumeric f.fragmentName = true ∨ f.fragmentName ∈ s.1.vocabulary
    · rw [take_of_known hseen hknown]
      exact h.concat_of_known hseen hknown
    · rw [not_or, Bool.not_eq_true] at hknown
      have hnew := h.concat_of_new hseen hknown.1 hknown.2
      rw [take_of_new hseen hknown.1 hknown.2]
      cases hsigil : f.hasSigil with
      | true => simpa [hsigil] using hnew
      | false => simpa [hsigil] using hnew

theorem foldl_take {s : Index × Growth} (h : ClosedForm reserved F s.1) (fs : List Text) :
    ClosedForm reserved (F ++ fs) (fs.foldl Index.take s).1 := by
  induction fs generalizing F s with
  | nil =>
    rw [List.append_nil]
    exact h
  | cons f fs ih =>
    have hrest := ih (h.take f)
    rw [List.append_assoc, List.singleton_append] at hrest
    exact hrest

end ClosedForm

/-! ### Texts -/

/-- The fragments of texts. An empty text has none. -/
def fragmentsOf (texts : List Text) : List Text :=
  (texts.filter fun t => !t.isEmpty).flatMap Text.fragments

/-- The index after texts. -/
def afterAll (reserved texts : List Text) : Index := texts.foldl after (reserving reserved)

theorem fragmentsOf_concat (texts : List Text) (t : Text) :
    fragmentsOf (texts ++ [t]) = fragmentsOf texts ++ fragmentsOf [t] := by
  simp [fragmentsOf]

theorem afterAll_concat (reserved texts : List Text) (t : Text) :
    afterAll reserved (texts ++ [t]) = (afterAll reserved texts).after t := by
  simp [afterAll]

/-- One text more. -/
theorem ClosedForm.after {index : Index} (h : ClosedForm reserved F index) (t : Text) :
    ClosedForm reserved (F ++ fragmentsOf [t]) (index.after t) := by
  unfold Index.after add fragmentsOf
  cases t with
  | nil => simpa using h
  | cons c rest => simpa using foldl_take (s := (index, {})) h (Text.fragments (c :: rest))

theorem closedForm_afterAll (reserved texts : List Text) :
    ClosedForm reserved (fragmentsOf texts) (afterAll reserved texts) := by
  induction texts using List.reverseRecOn with
  | nil => exact closedForm_reserving reserved
  | append_singleton texts t ih =>
    rw [afterAll_concat, fragmentsOf_concat]
    exact ih.after t

theorem growth_foldl_take (fs : List Text) (s : Index × Growth) :
    (fs.foldl take s).1.vars.length + s.2.vars =
        s.1.vars.length + (fs.foldl take s).2.vars ∧
      (fs.foldl take s).1.words.length + s.2.words =
        s.1.words.length + (fs.foldl take s).2.words := by
  induction fs generalizing s with
  | nil => exact ⟨rfl, rfl⟩
  | cons f fs ih =>
    -- The counts go on from those of the start, so both sides are sums.
    have hfirst := growth_take (s := s) (f := f)
    have hrest := ih (take s f)
    simp only [List.foldl_cons]
    omega

/-- A text makes the lists longer by its growth. -/
theorem growth_add (index : Index) (t : Text) :
    (index.add t).1.vars.length = index.vars.length + (index.add t).2.vars ∧
      (index.add t).1.words.length = index.words.length + (index.add t).2.words := by
  unfold add
  split
  · exact ⟨rfl, rfl⟩
  · exact growth_foldl_take t.fragments (index, {})

/-! ### What follows -/

namespace ClosedForm

variable {index : Index}

/-- The labels are the names that are no numbers and not reserved. -/
theorem mem_labels (h : ClosedForm reserved F index) (w : Text) :
    w ∈ index.vars ++ index.words ↔
      isNumeric w = false ∧ w ∉ reserved ∧ ∃ f ∈ F, f.fragmentName = w := by
  have hfirst : (∃ f ∈ F, f.fragmentName = w) ↔ ∃ f, firstFragment? F w = some f := by
    constructor
    · rintro ⟨f, hf, hname⟩
      apply Option.isSome_iff_exists.1
      rw [firstFragment?, List.find?_isSome]
      exact ⟨f, hf, by simpa using hname⟩
    · rintro ⟨f, hf⟩
      exact ⟨f, List.mem_of_find?_eq_some hf, by simpa using List.find?_some hf⟩
  rw [List.mem_append, h.vars, h.words, mem_listedNames, mem_listedNames, hfirst]
  constructor
  · rintro (⟨hnumeric, hreserved, f, hf, _⟩ | ⟨hnumeric, hreserved, f, hf, _⟩)
    · exact ⟨hnumeric, hreserved, f, hf⟩
    · exact ⟨hnumeric, hreserved, f, hf⟩
  · rintro ⟨hnumeric, hreserved, f, hf⟩
    cases hsigil : f.hasSigil with
    | true => exact .inl ⟨hnumeric, hreserved, f, hf, hsigil⟩
    | false => exact .inr ⟨hnumeric, hreserved, f, hf, hsigil⟩

/-- No label is listed twice. -/
theorem nodup_labels (h : ClosedForm reserved F index) :
    (index.vars ++ index.words).Nodup := by
  rw [h.vars, h.words]
  refine List.nodup_append.2 ⟨(nodup_namesOf F).filter _, (nodup_namesOf F).filter _, ?_⟩
  rintro w hvar _ hword rfl
  -- The first fragment of a name cannot both have the sigil and lack it.
  obtain ⟨_, _, f, hf, hsigil⟩ := mem_listedNames.1 hvar
  obtain ⟨_, _, f', hf', hplain⟩ := mem_listedNames.1 hword
  rw [hf] at hf'
  cases hf'
  rw [hsigil] at hplain
  cases hplain

end ClosedForm

theorem mem_fragmentsOf_of_perm {texts texts' : List Text} (h : texts.Perm texts') {f : Text}
    (hf : f ∈ fragmentsOf texts) : f ∈ fragmentsOf texts' := by
  obtain ⟨t, ht, hft⟩ := List.mem_flatMap.1 hf
  obtain ⟨ht, hne⟩ := List.mem_filter.1 ht
  exact List.mem_flatMap.2 ⟨t, List.mem_filter.2 ⟨h.mem_iff.1 ht, hne⟩, hft⟩

/-- **The identifier index in closed form.** Fragments are what the text is cut into at its gaps; the
index after any texts is told by the list of all their fragments. So its labels do not depend on the
order of the texts, none is listed twice, and each text makes the lists longer by what it is said to
add. -/
theorem index_after_texts (reserved texts : List Text) :
    (∀ t fs, Text.Cut t fs ↔ fs = t.fragments) ∧
      ClosedForm reserved (fragmentsOf texts) (afterAll reserved texts) ∧
      (∀ texts', texts.Perm texts' → ∀ w,
        w ∈ (afterAll reserved texts).vars ++ (afterAll reserved texts).words ↔
          w ∈ (afterAll reserved texts').vars ++ (afterAll reserved texts').words) ∧
      ((afterAll reserved texts).vars ++ (afterAll reserved texts).words).Nodup ∧
      ∀ t, afterAll reserved (texts ++ [t]) = ((afterAll reserved texts).add t).1 ∧
        (afterAll reserved (texts ++ [t])).vars.length =
          (afterAll reserved texts).vars.length + ((afterAll reserved texts).add t).2.vars ∧
        (afterAll reserved (texts ++ [t])).words.length =
          (afterAll reserved texts).words.length + ((afterAll reserved texts).add t).2.words := by
  have hform := closedForm_afterAll reserved texts
  refine ⟨fun t fs => Text.cut_iff, hform, ?_, hform.nodup_labels, ?_⟩
  · intro texts' hperm w
    have hF : (∃ f ∈ fragmentsOf texts, f.fragmentName = w) ↔
        ∃ f ∈ fragmentsOf texts', f.fragmentName = w := by
      constructor
      · rintro ⟨f, hf, hname⟩
        exact ⟨f, mem_fragmentsOf_of_perm hperm hf, hname⟩
      · rintro ⟨f, hf, hname⟩
        exact ⟨f, mem_fragmentsOf_of_perm hperm.symm hf, hname⟩
    rw [hform.mem_labels, (closedForm_afterAll reserved texts').mem_labels, hF]
  · intro t
    rw [afterAll_concat]
    exact ⟨rfl, growth_add _ t⟩

/-- A name is listed among the variables or among the words, depending on the text that comes first.
It is listed in any case. -/
theorem labels_of_swapped_texts :
    let reserved := ["if".toList]
    let texts := ["$a if".toList, "a $b 12".toList]
    let swapped := ["a $b 12".toList, "$a if".toList]
    texts.Perm swapped ∧ (afterAll reserved texts).vars = ["a".toList, "b".toList] ∧
      (afterAll reserved swapped).vars = ["b".toList] ∧
      ∀ w, w ∈ (afterAll reserved texts).vars ++ (afterAll reserved texts).words ↔
        w ∈ (afterAll reserved swapped).vars ++ (afterAll reserved swapped).words := by
  intro reserved texts swapped
  have hperm : texts.Perm swapped := .swap _ _ _
  obtain ⟨_, _, hlabels, _⟩ := index_after_texts reserved texts
  refine ⟨hperm, ?_, ?_, hlabels swapped hperm⟩
  · decide +kernel
  · decide +kernel

end Index

end MelScript
