import MelScript.Text.Basic

/-! # Fragments

  For completion a script is a sequence of fragments: what is left between
  stretches of characters that cannot stand in a name. Letters, the digits from
  one to nine and the sigil `$` can; the digit zero cannot.
-/

namespace MelScript

/-- Whether a character is one of a name without its sigil. -/
def isNameChar (c : Char) : Bool :=
  ('A' ≤ c && c ≤ 'Z') || ('a' ≤ c && c ≤ 'z') || ('1' ≤ c && c ≤ '9')

/-- Whether a character may stand in a fragment. -/
def isFragmentChar (c : Char) : Bool := isNameChar c || c == '$'

namespace Text

/-- The fragments of a text, in order. A text that starts or ends with other characters has an empty
fragment there. -/
def fragments (t : Text) : List Text :=
  match _h : t.dropWhile isFragmentChar with
  | [] => [t.takeWhile isFragmentChar]
  | _ :: rest =>
    t.takeWhile isFragmentChar :: fragments (rest.dropWhile fun c => !isFragmentChar c)
termination_by t.length
decreasing_by
  have h₁ := (List.dropWhile_sublist (p := isFragmentChar) (l := t)).length_le
  have h₂ := (List.dropWhile_sublist (p := fun c => !isFragmentChar c) (l := rest)).length_le
  rw [_h, List.length_cons] at h₁
  omega

end Text

end MelScript
