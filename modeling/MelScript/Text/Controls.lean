import MelScript.Text.Basic

/-! # Control sequences

  A terminal takes some characters for orders and does not show them. A text
  that is to be shown as it stands has them taken out:

  - control characters are dropped, except for white space;
  - an escape character starts a sequence, which is dropped to its end. A second
    escape character starts a new one, and a cancel or substitute character ends
    every sequence.

  White space inside of a short sequence is shown, and so is what follows it up
  to the next control character, where the sequence goes on.
-/

namespace MelScript.Text

/-- The escape character. -/
def escapeMark : Char := '\x1b'

/-- Whether a character ends every sequence. -/
def isCancel (c : Char) : Bool := c == '\x18' || c == '\x1a'

/-- Whether a control character is white space, which terminals show. -/
def isLayout (c : Char) : Bool := c == '\t' || c == '\n' || c == '\x0c' || c == '\r'

/-- Whether a character is shown outside of sequences. -/
def isShown (c : Char) : Bool := isLayout c || (0x20 ≤ c.toNat && c != '\x7f')

/-- Whether a character is one of ASCII that is no control character, from a given one on. -/
def isMark (first : Nat) (c : Char) : Bool := first ≤ c.toNat && c.toNat < 0x7f

/-- Whether the bytes of a character have the one that ends strings. -/
def endsString (c : Char) : Bool := (String.utf8EncodeChar c).contains 0x9c

/-- How a terminal takes the next character. -/
inductive Mode where
  /-- It is shown. -/
  | plain
  /-- It comes after an escape character. -/
  | escape
  /-- It comes after an escape character and further marks. -/
  | escapeMarks
  /-- It belongs to a control sequence. -/
  | command
  /-- It begins the head of a device string. -/
  | deviceHead
  /-- It follows a parameter in the head of a device string. -/
  | deviceParameters
  /-- It follows a further mark in the head of a device string. -/
  | deviceMarks
  /-- It belongs to a string that is not shown. -/
  | string
  /-- It belongs to an order for the system, such as a title. -/
  | title
  deriving DecidableEq, Repr

namespace Mode

/-- Whether white space is shown inside of a sequence. -/
def isShort : Mode → Bool
  | .escape | .escapeMarks | .command => true
  | _ => false

/-- The mode after an escape character and a mark. -/
def ofMark (c : Char) : Mode :=
  if c = '[' then .command
  else if c = ']' then .title
  else if c = 'P' then .deviceHead
  else if c = 'X' || c = '^' || c = '_' then .string
  else if isMark 0x30 c then .plain
  else .escapeMarks

/-- The mode after a mark in the head of a device string. The head is made of parameters, which end
before `limit`, and further marks after them; all else begins the string. -/
def ofDeviceMark (limit : Nat) (c : Char) : Mode :=
  if c.toNat < 0x30 then .deviceMarks
  else if c.toNat < limit then .deviceParameters
  else .string

/-- The mode after a character that is not shown. -/
def next (m : Mode) (c : Char) : Mode :=
  if c = escapeMark then .escape
  else if isCancel c then .plain
  else match m with
    | .plain => .plain
    | .escape => if isMark 0x20 c then ofMark c else .escape
    | .escapeMarks => if isMark 0x30 c then .plain else .escapeMarks
    | .command => if isMark 0x40 c then .plain else .command
    | .deviceHead => if isMark 0x20 c then ofDeviceMark 0x40 c else .deviceHead
    | .deviceParameters => if isMark 0x20 c then ofDeviceMark 0x3c c else .deviceParameters
    | .deviceMarks => if isMark 0x30 c then .string else .deviceMarks
    | .string => if endsString c then .plain else .string
    | .title => if c = '\x07' then .plain else .title

end Mode

/-- What is shown of a text, when the terminal is in a mode. While a sequence is suspended, text is
shown although the sequence has not ended. A character beyond ASCII that is shown ends it. -/
def shownFrom : Mode → (suspended : Bool) → Text → Text
  | _, _, [] => []
  | mode, suspended, c :: t =>
    if mode = .plain || suspended then
      if isShown c then c :: shownFrom (if c.toNat < 0x80 then mode else .plain) suspended t
      else shownFrom (mode.next c) false t
    else if mode.isShort && isLayout c then c :: shownFrom mode true t
    else shownFrom (mode.next c) false t

/-- What is shown of a text. -/
def shown (t : Text) : Text := shownFrom .plain false t

/-- A text without control characters is shown as it stands. -/
theorem shown_eq_self {t : Text} (h : ∀ c ∈ t, isShown c = true) : shown t = t := by
  unfold shown
  induction t with
  | nil => rfl
  | cons c t ih =>
    have hc := h c List.mem_cons_self
    have ht := ih fun d hd => h d (List.mem_cons_of_mem _ hd)
    simp [shownFrom, hc, ht]

end MelScript.Text
