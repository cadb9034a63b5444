/-! # Text

  A text is the list of its Unicode scalar values. Editors and language
  clients count columns in UTF-16 units, so every text also has a *width*:

  - a character below `U+10000` is one unit wide, any other is two;
  - the width of a text is the sum of the widths of its characters.

  Columns, everywhere in this library, are widths of what stands before them.
-/

namespace MelScript

/-- A text is the list of its characters. -/
abbrev Text := List Char

/-- The number of UTF-16 units that a character takes. -/
def units (c : Char) : Nat := if c.toNat < 0x10000 then 1 else 2

theorem units_pos (c : Char) : 0 < units c := by
  unfold units; split <;> decide

namespace Text

/-! ### Width -/

/-- The number of UTF-16 units that a text takes. -/
def width : Text → Nat
  | [] => 0
  | c :: t => units c + width t

@[simp] theorem width_nil : width [] = 0 := rfl

@[simp] theorem width_cons (c : Char) (t : Text) : width (c :: t) = units c + width t := rfl

@[simp] theorem width_append (s t : Text) : width (s ++ t) = width s + width t := by
  induction s with
  | nil => simp
  | cons c s ih => simp [ih, Nat.add_assoc]

/-- The number of bytes that a text takes in UTF-8. -/
def utf8Size : Text → Nat
  | [] => 0
  | c :: t => c.utf8Size + utf8Size t

/-! ### Cutting -/

/-- The part of a text before the first `c`; all of it when there is none. -/
def before (c : Char) (t : Text) : Text := t.takeWhile (· != c)

/-- The part before the first `c`, and the part after it if there is a `c`. -/
def cut (c : Char) (t : Text) : Text × Option Text :=
  match t.dropWhile (· != c) with
  | [] => (t, none)
  | _ :: rest => (t.before c, some rest)

/-- The stretches between the characters `sep`, the empty ones included. -/
def split (sep : Char) : Text → List Text
  | [] => [[]]
  | c :: rest =>
    if c = sep then [] :: split sep rest
    else match split sep rest with
      | [] => [[c]]
      | first :: others => (c :: first) :: others

theorem split_ne_nil (sep : Char) (t : Text) : split sep t ≠ [] := by
  cases t with
  | nil => simp [split]
  | cons c rest =>
    unfold split
    split
    · simp
    · split <;> simp

/-- Putting the separator back between the stretches gives the text. -/
theorem intercalate_split (sep : Char) (t : Text) : [sep].intercalate (t.split sep) = t := by
  induction t with
  | nil => rfl
  | cons c rest ih =>
    rw [split]
    cases hs : split sep rest with
    | nil => exact absurd hs (split_ne_nil sep rest)
    | cons first others =>
      rw [hs] at ih
      by_cases hc : c = sep
      · rw [if_pos hc, hc, ← ih]
        simp [List.intercalate]
      · rw [if_neg hc, ← ih]
        cases others with
        | nil => simp [List.intercalate]
        | cons second more => simp [List.intercalate]

/-- The text without its longest tail of characters that satisfy `p`. -/
def dropTail (p : Char → Bool) (t : Text) : Text := (t.reverse.dropWhile p).reverse

/-- The text without one leading `c`, if it has one. -/
def dropOne (c : Char) : Text → Text
  | d :: rest => if d = c then rest else d :: rest
  | [] => []

/-- Every `c` of the text is replaced by `new`. -/
def replace (t : Text) (c : Char) (new : Text) : Text :=
  t.flatMap fun d => if d = c then new else [d]

/-- A natural number in decimal. -/
def ofNat (n : Nat) : Text := Nat.toDigits 10 n

end Text

end MelScript
