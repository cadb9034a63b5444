import MelScript.Json.Value

/-! # JSON strings

  Inside a string every character stands for itself, except the quotation mark,
  the backslash and the control characters below `U+0020`. These are written as
  escapes: a backslash and a letter, or a backslash, `u` and four hexadecimal
  digits. A character above `U+FFFF` may be written as the two escapes of its
  surrogate pair; a surrogate on its own stands for nothing.
-/

namespace MelScript.Json

/-! ### Writing -/

/-- A hexadecimal digit below sixteen. -/
def hexDigit (n : Nat) : Char := "0123456789abcdef".toList.getD n '0'

/-- A character as it is written inside a string. -/
def escape (c : Char) : Text :=
  if c = '"' then ['\\', '"']
  else if c = '\\' then ['\\', '\\']
  else if c.toNat = 0x08 then ['\\', 'b']
  else if c.toNat = 0x0C then ['\\', 'f']
  else if c = '\n' then ['\\', 'n']
  else if c = '\r' then ['\\', 'r']
  else if c = '\t' then ['\\', 't']
  else if c.toNat < 0x20 then
    ['\\', 'u', '0', '0', hexDigit (c.toNat / 16), hexDigit (c.toNat % 16)]
  else [c]

/-- A text as a JSON string, in quotation marks. -/
def quote (t : Text) : Text := '"' :: (t.flatMap escape ++ ['"'])

/-! ### Reading -/

/-- The value of a hexadecimal digit of either case. -/
def hexValue? (c : Char) : Option Nat :=
  let n := c.toNat
  if 0x30 ≤ n && n ≤ 0x39 then some (n - 0x30)
  else if 0x41 ≤ n && n ≤ 0x46 then some (n - 0x41 + 10)
  else if 0x61 ≤ n && n ≤ 0x66 then some (n - 0x61 + 10)
  else none

/-- Four hexadecimal digits at the start of a text. A text of less than four bytes ends too
early. -/
def readUnit (t : Text) : Reading (Nat × Text) :=
  match t with
  | a :: b :: c :: d :: rest =>
    match hexValue? a, hexValue? b, hexValue? c, hexValue? d with
    | some a, some b, some c, some d => .ok (((a * 16 + b) * 16 + c) * 16 + d, rest)
    | _, _, _, _ => .error .malformed
  | _ => .error (if t.utf8Size < 4 then .truncated else .malformed)

/-- Whether a UTF-16 unit is the first of a surrogate pair. -/
def isHighSurrogate (u : Nat) : Bool := 0xD800 ≤ u && u ≤ 0xDBFF

/-- Whether a UTF-16 unit is the second of a surrogate pair. -/
def isLowSurrogate (u : Nat) : Bool := 0xDC00 ≤ u && u ≤ 0xDFFF

/-- The character of an escape with the letter `u`, from right after that letter. -/
def readUnicode (t : Text) : Reading (Char × Text) := do
  let (high, t) ← readUnit t
  if isLowSurrogate high then throw .malformed
  else if isHighSurrogate high then
    match t with
    | [] => throw .truncated
    | '\\' :: [] => throw .truncated
    | '\\' :: 'u' :: t =>
      let (low, t) ← readUnit t
      if isLowSurrogate low then
        return (Char.ofNat (0x10000 + (high - 0xD800) * 0x400 + (low - 0xDC00)), t)
      else throw .malformed
    | _ => throw .malformed
  else return (Char.ofNat high, t)

/-- The character of an escape, from right after its backslash. -/
def readEscape (t : Text) : Reading (Char × Text) :=
  match t with
  | [] => .error .truncated
  | 'u' :: rest => readUnicode rest
  | c :: rest =>
    if c = '"' || c = '\\' || c = '/' then .ok (c, rest)
    else if c = 'b' then .ok ('\x08', rest)
    else if c = 'f' then .ok ('\x0c', rest)
    else if c = 'n' then .ok ('\n', rest)
    else if c = 'r' then .ok ('\r', rest)
    else if c = 't' then .ok ('\t', rest)
    else .error .malformed

/-- Reading four digits takes four characters. -/
theorem readUnit_length {t rest : Text} {u : Nat} (h : readUnit t = .ok (u, rest)) :
    rest.length < t.length := by
  unfold readUnit at h
  split at h
  · split at h
    · simp only [Except.ok.injEq, Prod.mk.injEq] at h
      simp only [← h.2, List.length_cons]; omega
    · simp at h
  · simp at h

/-- Reading an escape of four digits, or a pair of them, shortens the text. -/
theorem readUnicode_length {t rest : Text} {c : Char} (h : readUnicode t = .ok (c, rest)) :
    rest.length < t.length := by
  unfold readUnicode at h
  cases hu : readUnit t with
  | error e => simp [hu, bind, Except.bind] at h
  | ok p =>
    obtain ⟨u, t₁⟩ := p
    have h₁ := readUnit_length hu
    simp only [hu, bind, Except.bind] at h
    split at h
    · simp [throw, throwThe, MonadExceptOf.throw] at h
    · split at h
      · split at h
        · simp [throw, throwThe, MonadExceptOf.throw] at h
        · simp [throw, throwThe, MonadExceptOf.throw] at h
        · rename_i t₂
          cases hv : readUnit t₂ with
          | error e => simp [hv] at h
          | ok q =>
            obtain ⟨v, t₃⟩ := q
            have h₂ := readUnit_length hv
            simp only [hv] at h
            split at h
            · simp only [pure, Except.pure, Except.ok.injEq, Prod.mk.injEq] at h
              simp only [List.length_cons] at h₁
              rw [← h.2]; omega
            · simp [throw, throwThe, MonadExceptOf.throw] at h
        · simp [throw, throwThe, MonadExceptOf.throw] at h
      · simp only [pure, Except.pure, Except.ok.injEq, Prod.mk.injEq] at h
        rw [← h.2]; exact h₁

/-- Reading an escape shortens the text. -/
theorem readEscape_length {t rest : Text} {c : Char} (h : readEscape t = .ok (c, rest)) :
    rest.length < t.length := by
  unfold readEscape at h
  split at h
  · simp at h
  · have := readUnicode_length h
    simp only [List.length_cons]; omega
  · repeat' split at h
    all_goals
      first
      | (simp only [Except.ok.injEq, Prod.mk.injEq] at h; simp [← h.2])
      | simp at h

/-- The rest of a string, from right after its opening quotation mark. -/
def readString (t : Text) : Reading (Text × Text) :=
  match t with
  | [] => .error .truncated
  | c :: rest =>
    if c = '"' then .ok ([], rest)
    else if c = '\\' then
      match h : readEscape rest with
      | .error e => .error e
      | .ok (d, rest') =>
        have := readEscape_length h
        (readString rest').map fun (s, r) => (d :: s, r)
    else if c.toNat < 0x20 then .error .malformed
    else (readString rest).map fun (s, r) => (c :: s, r)
termination_by t.length
decreasing_by
  · simp only [List.length_cons]; omega
  · simp

end MelScript.Json
