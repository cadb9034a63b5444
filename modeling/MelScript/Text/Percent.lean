import MelScript.Text.Basic

/-! # Percent encoding

  A character that may not stand in a place of a URI is written as the bytes of
  its UTF-8 form, each as a percent sign and two hexadecimal digits. Which
  characters these are depends on the place; a percent sign that is already
  there is never one of them, so that encoding a second time changes nothing.
-/

namespace MelScript.Text

/-- A byte as a percent sign and two hexadecimal digits with large letters. -/
def percentByte (b : UInt8) : Text :=
  ['%', (Nat.digitChar (b.toNat / 16)).toUpper, (Nat.digitChar (b.toNat % 16)).toUpper]

/-- The text with the characters that are `reserved` encoded. -/
def percentEncode (reserved : Char → Bool) (t : Text) : Text :=
  t.flatMap fun c => if reserved c then (String.utf8EncodeChar c).flatMap percentByte else [c]

@[simp] theorem percentEncode_nil (reserved : Char → Bool) : percentEncode reserved [] = [] := rfl

theorem percentEncode_append (reserved : Char → Bool) (s t : Text) :
    percentEncode reserved (s ++ t) = percentEncode reserved s ++ percentEncode reserved t := by
  simp [percentEncode]

/-- A text without reserved characters stays as it is. -/
theorem percentEncode_eq_self {reserved : Char → Bool} {t : Text}
    (h : ∀ c ∈ t, reserved c = false) : percentEncode reserved t = t := by
  induction t with
  | nil => rfl
  | cons c t ih =>
    have hc := h c List.mem_cons_self
    have ht := ih fun d hd => h d (List.mem_cons_of_mem _ hd)
    simp only [percentEncode, List.flatMap_cons, hc, Bool.false_eq_true, if_false,
      List.singleton_append, List.cons.injEq, true_and]
    exact ht

end MelScript.Text
