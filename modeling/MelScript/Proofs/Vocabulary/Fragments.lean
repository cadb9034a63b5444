import MelScript.Proofs.Text.Stretches
import MelScript.Vocabulary.Fragment

/-! # How a text is cut into fragments

  `Text.Cut` says by itself what the fragments of a text are: they are what
  stands between its gaps, and a gap is a longest stretch of characters that
  cannot stand in a fragment. A text that begins or ends with a gap has an empty
  fragment there.

  There is one way to cut a text, and `Text.fragments` finds it (`cut_iff`).
-/

namespace MelScript.Text

/-- A text is cut into fragments at its gaps. -/
inductive Cut : Text → List Text → Prop where
  /-- A text without a gap is one fragment. -/
  | whole {f : Text} (inside : ∀ c ∈ f, isFragmentChar c = true) : Cut f [f]
  /-- A fragment ends where a gap begins, and the gap ends where the next fragment begins or the text
  ends. -/
  | gap {f g rest : Text} {fs : List Text} (inside : ∀ c ∈ f, isFragmentChar c = true)
      (nonempty : g ≠ []) (outside : ∀ c ∈ g, isFragmentChar c = false)
      (longest : ∀ c ∈ rest.head?, isFragmentChar c = true) (cut : Cut rest fs) :
      Cut (f ++ g ++ rest) (f :: fs)

theorem fragments_of_inside {f : Text} (inside : ∀ c ∈ f, isFragmentChar c = true) :
    f.fragments = [f] := by
  have htake : f.takeWhile isFragmentChar = f := List.takeWhile_eq_self_iff.2 inside
  have hdrop : f.dropWhile isFragmentChar = [] := List.dropWhile_eq_nil_iff.2 inside
  rw [fragments]
  split
  · rw [htake]
  · next h =>
    rw [hdrop] at h
    cases h

/-- The fragment before a gap comes first, and the fragments of what follows the gap come after
it. -/
theorem fragments_gap {f g rest : Text} (inside : ∀ c ∈ f, isFragmentChar c = true)
    (nonempty : g ≠ []) (outside : ∀ c ∈ g, isFragmentChar c = false)
    (longest : ∀ c ∈ rest.head?, isFragmentChar c = true) :
    (f ++ g ++ rest).fragments = f :: rest.fragments := by
  obtain ⟨c, g, rfl⟩ := List.exists_cons_of_ne_nil nonempty
  have hc : isFragmentChar c = false := outside c List.mem_cons_self
  have htext : f ++ c :: g ++ rest = f ++ (c :: (g ++ rest)) := by simp
  have htake : (f ++ c :: g ++ rest).takeWhile isFragmentChar = f := by
    rw [htext, List.takeWhile_append_of_pos inside]
    simp [hc]
  have hdrop : (f ++ c :: g ++ rest).dropWhile isFragmentChar = c :: (g ++ rest) := by
    rw [htext, List.dropWhile_append_of_pos inside]
    simp [hc]
  have hgap : (g ++ rest).dropWhile (fun c => !isFragmentChar c) = rest := by
    rw [List.dropWhile_append_of_pos]
    · -- What follows the gap begins with a character of a fragment.
      cases rest with
      | nil => rfl
      | cons d rest =>
        have hd : isFragmentChar d = true := longest d rfl
        simp [hd]
    · intro d hd
      simp [outside d (List.mem_cons_of_mem c hd)]
  rw [fragments]
  split
  · next h =>
    rw [hdrop] at h
    cases h
  · next h =>
    rw [hdrop] at h
    cases h
    rw [htake, hgap]

theorem cut_fragments (t : Text) : Cut t t.fragments := by
  fun_induction fragments t with
  | case1 t h =>
    have hinside := List.dropWhile_eq_nil_iff.1 h
    rw [List.takeWhile_eq_self_iff.2 hinside]
    exact .whole hinside
  | case2 t c rest h ih =>
    -- The gap is `c` and all that follows it up to the next fragment.
    have htext : t = t.takeWhile isFragmentChar ++
        (c :: rest.takeWhile fun c => !isFragmentChar c) ++
          rest.dropWhile fun c => !isFragmentChar c := by
      have hparts := List.takeWhile_append_dropWhile (p := isFragmentChar) (l := t)
      rw [h] at hparts
      rw [List.append_assoc, List.cons_append, List.takeWhile_append_dropWhile, hparts]
    have hc : isFragmentChar c = false := by
      apply not_of_mem_head?_dropWhile (t := t)
      rw [h]
      rfl
    have hcut := Cut.gap (f := t.takeWhile isFragmentChar)
      (g := c :: rest.takeWhile fun c => !isFragmentChar c)
      (fun d hd => List.mem_takeWhile_imp hd) (List.cons_ne_nil _ _) ?_ ?_ ih
    · rw [← htext] at hcut
      exact hcut
    · intro d hd
      rcases List.mem_cons.1 hd with rfl | hd
      · exact hc
      · simpa using List.mem_takeWhile_imp hd
    · intro d hd
      simpa using not_of_mem_head?_dropWhile hd

/-- There is one way to cut a text into fragments. -/
theorem cut_iff {t : Text} {fs : List Text} : Cut t fs ↔ fs = t.fragments := by
  constructor
  · intro h
    induction h with
    | whole inside => exact (fragments_of_inside inside).symm
    | gap inside nonempty outside longest _ ih =>
      rw [fragments_gap inside nonempty outside longest, ih]
  · rintro rfl
    exact cut_fragments t

end MelScript.Text
