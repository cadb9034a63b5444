import MelScript.Proofs.Document.Offsets

/-! # Editor and server hold the same text

  In an editor a text is changed by offsets: the characters between two of them
  are replaced. The server is told by positions. An editor turns the offsets
  into positions of the text that it has before the edit, and the server
  resolves them in the text that it has then.

  As long as no offset falls inside of a break, the server's text is the
  editor's text after every edit, however many there are: each edit may join or
  separate breaks, and the positions of the next one are counted anew.
-/

namespace MelScript

/-- An edit as it is made in an editor. -/
inductive LocalEdit where
  /-- The characters from offset `i` to offset `j` are replaced. -/
  | replace (i j : Nat) (new : Text)
  /-- The whole text is replaced. -/
  | whole (new : Text)

namespace LocalEdit

/-- The editor's text after an edit. -/
def apply (t : Text) : LocalEdit → Text
  | .replace i j new => t.take i ++ new ++ t.drop j
  | .whole new => new

/-- The edit as an editor with the given text tells it to the server. -/
def sent (t : Text) : LocalEdit → Edit
  | .replace i j new => ⟨some ⟨t.positionAt i, t.positionAt j⟩, new⟩
  | .whole new => ⟨none, new⟩

/-- The edit can be made in a text: its offsets lie in the text, in order and not inside of a
break. -/
def Fits (t : Text) : LocalEdit → Prop
  | .replace i j _ => i ≤ j ∧ j ≤ t.length ∧ ¬ t.SplitsBreak i ∧ ¬ t.SplitsBreak j
  | .whole _ => True

/-- Edits one after the other as an editor tells them, each by the positions of its own time. -/
def sentAll : Text → List LocalEdit → List Edit
  | _, [] => []
  | t, e :: es => e.sent t :: sentAll (e.apply t) es

/-- The edits can be made one after the other. -/
def AllFit : Text → List LocalEdit → Prop
  | _, [] => True
  | t, e :: es => e.Fits t ∧ AllFit (e.apply t) es

/-- One edit does the same to the server's text as to the editor's. -/
theorem edit_sent {t : Text} {e : LocalEdit} (h : e.Fits t) : t.edit (e.sent t) = e.apply t := by
  cases e with
  | whole new => rfl
  | replace i j new =>
    obtain ⟨hij, hj, hsplit_i, hsplit_j⟩ := h
    -- Both ends are resolved in the text in which they were counted.
    have hi : t.offset (t.positionAt i) = i :=
      Text.offset_positionAt (Nat.le_trans hij hj) hsplit_i
    have hj' : t.offset (t.positionAt j) = j := Text.offset_positionAt hj hsplit_j
    show t.take (min (t.offset _) (t.offset _)) ++ new ++ t.drop (max (t.offset _) (t.offset _)) = _
    rw [hi, hj', Nat.min_eq_left hij, Nat.max_eq_right hij]
    rfl

/-- **The server's text is the editor's text, from the first edit to the last.** -/
theorem server_text_follows_editor {t : Text} {es : List LocalEdit} (h : AllFit t es) :
    List.scanl Text.edit t (sentAll t es) = List.scanl apply t es := by
  induction es generalizing t with
  | nil => rfl
  | cons e es ih =>
    obtain ⟨hfit, hrest⟩ := h
    -- After the first edit both have the same text again, so `ih` speaks about the server's.
    rw [sentAll, List.scanl_cons, List.scanl_cons, edit_sent hfit, ih hrest]

/-- A pair of units, a break that is taken apart and put together again, and a new text. -/
theorem server_text_follows_editor_through_breaks :
    List.scanl Text.edit "😀\r\nb\rc".toList
      (sentAll "😀\r\nb\rc".toList
        [.replace 1 3 "\r".toList, .replace 2 2 "\n".toList, .whole "d".toList]) =
      ["😀\r\nb\rc".toList, "😀\rb\rc".toList, "😀\r\nb\rc".toList, "d".toList] := by
  have hfirst : Fits "😀\r\nb\rc".toList (.replace 1 3 "\r".toList) :=
    ⟨by decide, by decide, by decide, by decide⟩
  have hsecond : Fits "😀\rb\rc".toList (.replace 2 2 "\n".toList) :=
    ⟨by decide, by decide, by decide, by decide⟩
  have hall : AllFit "😀\r\nb\rc".toList
      [.replace 1 3 "\r".toList, .replace 2 2 "\n".toList, .whole "d".toList] :=
    ⟨hfirst, hsecond, trivial, trivial⟩
  rw [server_text_follows_editor hall]
  decide

end LocalEdit

end MelScript
