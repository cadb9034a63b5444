import Mathlib.Data.Nat.Basic
import MelScript.Json.Reader
import MelScript.Json.Writer

/-! # Strings and numbers that are read as they were written

  A string is written character by character. Every character stands for itself
  or is written as an escape, and reading undoes this one character at a time
  (`readString_escape`), so that a whole string comes back (`readString_quoted`).

  A natural number is written as its decimal digits. They are read back as this
  number, if the text behind them cannot go on with the number
  (`readNumber_ofNat`).
-/

namespace MelScript.Json

/-! ### Strings -/

theorem readString_mark (t : Text) : readString ('"' :: t) = .ok ([], t) := by
  rw [readString]
  rfl

theorem readString_backslash {t rest : Text} {d : Char} (h : readEscape t = .ok (d, rest)) :
    readString ('\\' :: t) = (readString rest).map fun p => (d :: p.1, p.2) := by
  rw [readString, if_neg (by decide), if_pos rfl]
  split
  · next e he =>
    rw [h] at he
    cases he
  · next d' rest' hd =>
    rw [h] at hd
    cases hd
    rfl

theorem readString_plain {c : Char} (hmark : c ≠ '"') (hbackslash : c ≠ '\\')
    (hcontrol : ¬ c.toNat < 0x20) (t : Text) :
    readString (c :: t) = (readString t).map fun p => (c :: p.1, p.2) := by
  rw [readString, if_neg hmark, if_neg hbackslash, if_neg hcontrol]

theorem hexValue?_hexDigit : ∀ n < 16, hexValue? (hexDigit n) = some n := by
  decide

/-- A control character comes back from the two digits in which it is written. -/
theorem readEscape_control {c : Char} (h : c.toNat < 0x20) (t : Text) :
    readEscape ('u' :: '0' :: '0' :: hexDigit (c.toNat / 16) :: hexDigit (c.toNat % 16) :: t) =
      .ok (c, t) := by
  have hzero : hexValue? '0' = some 0 := by decide
  have hhigh := hexValue?_hexDigit (c.toNat / 16) (by omega)
  have hlow := hexValue?_hexDigit (c.toNat % 16) (by omega)
  have hvalue : (((0 * 16 + 0) * 16 + c.toNat / 16) * 16 + c.toNat % 16) = c.toNat := by omega
  have hunit : readUnit ('0' :: '0' :: hexDigit (c.toNat / 16) :: hexDigit (c.toNat % 16) :: t) =
      .ok (c.toNat, t) := by
    simp only [readUnit, hzero, hhigh, hlow, hvalue]
  have hnotLow : isLowSurrogate c.toNat = false := by
    simp only [isLowSurrogate, Bool.and_eq_false_iff, decide_eq_false_iff_not]
    omega
  have hnotHigh : isHighSurrogate c.toNat = false := by
    simp only [isHighSurrogate, Bool.and_eq_false_iff, decide_eq_false_iff_not]
    omega
  show readUnicode _ = _
  unfold readUnicode
  rw [hunit]
  simp [bind, Except.bind, pure, Except.pure, hnotLow, hnotHigh, Char.ofNat_toNat]

/-- What is written for a character is read as this character. -/
theorem readString_escape (c : Char) (t : Text) :
    readString (escape c ++ t) = (readString t).map fun p => (c :: p.1, p.2) := by
  have hchar : ∀ d : Char, c.toNat = d.toNat → c = d := by
    intro d hd
    rw [← Char.ofNat_toNat c, hd, Char.ofNat_toNat]
  unfold escape
  split
  · next h =>
    subst h
    exact readString_backslash rfl
  split
  · next h =>
    subst h
    exact readString_backslash rfl
  split
  · next h =>
    obtain rfl := hchar '\x08' h
    exact readString_backslash rfl
  split
  · next h =>
    obtain rfl := hchar '\x0c' h
    exact readString_backslash rfl
  split
  · next h =>
    subst h
    exact readString_backslash rfl
  split
  · next h =>
    subst h
    exact readString_backslash rfl
  split
  · next h =>
    subst h
    exact readString_backslash rfl
  split
  · next h => exact readString_backslash (readEscape_control h t)
  · next hmark hbackslash _ _ _ _ _ hcontrol => exact readString_plain hmark hbackslash hcontrol t

/-- What is written for a text, up to the closing mark, is read as this text. -/
theorem readString_quoted (s t : Text) :
    readString (s.flatMap escape ++ '"' :: t) = .ok (s, t) := by
  induction s with
  | nil => exact readString_mark t
  | cons c s ih =>
    rw [List.flatMap_cons, List.append_assoc, readString_escape, ih]
    rfl

/-! ### Numbers -/

/-- Texts before which a number ends. -/
def EndsNumber (t : Text) : Prop :=
  ∀ c ∈ t.head?, isDigit c = false ∧ c ≠ '.' ∧ c ≠ 'e' ∧ c ≠ 'E'

theorem endsNumber_cons {c : Char} (h : isDigit c = false ∧ c ≠ '.' ∧ c ≠ 'e' ∧ c ≠ 'E')
    (t : Text) : EndsNumber (c :: t) := by
  intro d hd
  cases hd
  exact h

theorem isDigit_of_mem_ofNat {n : Nat} {c : Char} (h : c ∈ Text.ofNat n) : isDigit c = true := by
  have hdigit := Nat.isDigit_of_mem_toDigits (by decide) (by decide) h
  simp only [Char.isDigit, Bool.and_eq_true, decide_eq_true_eq] at hdigit
  simp only [isDigit, Bool.and_eq_true, decide_eq_true_eq]
  exact hdigit

theorem ofDigits_ofNat (n : Nat) : ofDigits (Text.ofNat n) = n :=
  Nat.ofDigitChars_toDigits (by decide) (by decide)

/-- Only the number zero is written with a zero in front. -/
theorem head?_ofNat {n : Nat} (h : 0 < n) : (Text.ofNat n).head? ≠ some '0' := by
  unfold Text.ofNat
  induction n using Nat.strongRecOn with
  | ind n ih =>
    rw [Nat.toDigits_eq_if (by decide)]
    split
    · next hsmall =>
      have hall : ∀ k < 10, 0 < k → some k.digitChar ≠ some '0' := by decide
      exact hall n hsmall h
    · next hlarge =>
      have hrest := ih (n / 10) (by omega) (by omega)
      cases hdigits : Nat.toDigits 10 (n / 10) with
      | nil => exact absurd hdigits Nat.toDigits_ne_nil
      | cons d ds =>
        rw [hdigits] at hrest
        exact hrest

theorem takeWhile_ofNat (n : Nat) {rest : Text} (h : EndsNumber rest) :
    (Text.ofNat n ++ rest).takeWhile isDigit = Text.ofNat n ∧
      (Text.ofNat n ++ rest).dropWhile isDigit = rest := by
  have hall : ∀ c ∈ Text.ofNat n, isDigit c = true := fun c hc => isDigit_of_mem_ofNat hc
  rw [List.takeWhile_append_of_pos hall, List.dropWhile_append_of_pos hall]
  cases rest with
  | nil => simp
  | cons c rest =>
    have hc := (h c rfl).1
    simp [hc]

theorem scanWhole_ofNat (n : Nat) {rest : Text} (h : EndsNumber rest) :
    Numeral.scanWhole (Text.ofNat n ++ rest) = .ok (Text.ofNat n, rest) := by
  obtain ⟨htake, hdrop⟩ := takeWhile_ofNat n h
  have hdigits : Numeral.digits (Text.ofNat n ++ rest) = .ok (Text.ofNat n, rest) := by
    cases hn : Text.ofNat n with
    | nil => exact absurd hn Nat.toDigits_ne_nil
    | cons d ds =>
      have hd : isDigit d = true := isDigit_of_mem_ofNat (hn ▸ List.mem_cons_self)
      rw [hn] at htake hdrop
      show (if isDigit d = true then _ else _) = _
      rw [if_pos hd, htake, hdrop]
  by_cases hzero : n = 0
  · subst hzero
    cases rest with
    | nil => rfl
    | cons c rest =>
      show (if isDigit c = true then _ else _) = _
      rw [(h c rfl).1]
      rfl
  · -- The digits do not start with a zero.
    have hhead := head?_ofNat (Nat.pos_of_ne_zero hzero)
    unfold Numeral.scanWhole
    split
    · next c t heq =>
      cases hn : Text.ofNat n with
      | nil => exact absurd hn Nat.toDigits_ne_nil
      | cons d ds =>
        rw [hn] at heq hhead
        have hd : d = '0' := (List.cons.inj heq).1
        rw [hd] at hhead
        exact absurd rfl hhead
    · exact hdigits

/-- Digits without fraction and exponent are scanned as what they are. -/
theorem scan_ofNat (n : Nat) {rest : Text} (h : EndsNumber rest) :
    Numeral.scan (Text.ofNat n ++ rest) = .ok (⟨false, Text.ofNat n, none, none⟩, rest) := by
  have hwhole := scanWhole_ofNat n h
  have hfraction : Numeral.scanFraction rest = .ok (none, rest) := by
    unfold Numeral.scanFraction
    split
    · exact absurd rfl (h '.' rfl).2.1
    · rfl
  have hexponent : Numeral.scanExponent rest = .ok (none, rest) := by
    unfold Numeral.scanExponent
    dsimp only
    split
    · exact absurd rfl (h 'e' rfl).2.2.1
    · exact absurd rfl (h 'E' rfl).2.2.2
    · rfl
  have hsign : ∀ t, Text.ofNat n ++ rest ≠ '-' :: t := by
    intro t heq
    cases hn : Text.ofNat n with
    | nil => exact absurd hn Nat.toDigits_ne_nil
    | cons d ds =>
      have hd : isDigit d = true := isDigit_of_mem_ofNat (hn ▸ List.mem_cons_self)
      rw [hn] at heq
      cases heq
      cases hd
  unfold Numeral.scan
  split
  next negative t heq =>
  split at heq
  · next t hminus => exact absurd hminus (hsign t)
  · cases heq
    simp [hwhole, hfraction, hexponent, bind, Except.bind, pure, Except.pure]

/-- A natural number of 64 bits is read from its digits. -/
theorem readNumber_ofNat {n : Nat} (hn : n ≤ Numeral.maxSignificand) {rest : Text}
    (h : EndsNumber rest) : readNumber (Text.ofNat n ++ rest) = .ok (.integer n, rest) := by
  have hinteger : (Numeral.mk false (Text.ofNat n) none none).integer? = some (n : Int) := by
    simp [Numeral.integer?, ofDigits_ofNat, hn]
  unfold readNumber
  rw [scan_ofNat n h]
  simp [hinteger, bind, Except.bind, pure, Except.pure]

end MelScript.Json
