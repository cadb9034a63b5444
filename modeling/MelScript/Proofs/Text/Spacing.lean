import MelScript.Proofs.Text.Stretches

/-! # Lines taken apart

  A line is white space and tokens by turns. `Token.Spread` says so of a whole
  line, without going through it from left to right:

  - each token stands in a cell, behind the white space before it;
  - behind the last cell there is nothing but white space;
  - the white space between two tokens is not empty, while a line may start or
    end with a token;
  - a token starts at the width of all that stands before it, and ends at the
    width of all that stands up to its end.

  Every line can be taken apart in this way (`Token.exists_spread`), and
  whichever way that is, the scanner finds the tokens of the cells
  (`Token.Spread.scan_eq`). So a line has only one list of tokens.
-/

namespace MelScript

/-! ### Runs behind one another -/

namespace Text

variable {p : Char → Bool} {w v : Text}

/-- Characters that are no part of a run move the rest to the right. -/
theorem runsFrom_append_of_neg (h : ∀ c ∈ w, p c = false) (column : Nat) (t : Text) :
    runsFrom p column (w ++ t) = runsFrom p (column + w.width) t := by
  induction w generalizing column with
  | nil => simp
  | cons c w ih =>
    have hc : p c = false := h c List.mem_cons_self
    have hw : ∀ d ∈ w, p d = false := fun d hd => h d (List.mem_cons_of_mem c hd)
    rw [List.cons_append, runsFrom_cons_of_neg hc, ih hw, width_cons, Nat.add_assoc]

/-- A longest stretch at the start is the first run. -/
theorem Longest.runsFrom_eq (h : Longest p [] w v) (column : Nat) :
    runsFrom p column (w ++ v) = ⟨w, column⟩ :: runsFrom p (column + w.width) v := by
  have htake : (w ++ v).takeWhile p = w := h.takeWhile_eq
  have hdrop : (w ++ v).dropWhile p = v := by
    have hparts := List.takeWhile_append_dropWhile (p := p) (l := w ++ v)
    rw [htake] at hparts
    exact List.append_cancel_left hparts
  obtain ⟨c, w', rfl⟩ := List.exists_cons_of_ne_nil h.nonempty
  have hc : p c = true := h.inside c List.mem_cons_self
  rw [List.cons_append, List.takeWhile_cons_of_pos hc] at htake
  rw [List.cons_append, List.dropWhile_cons_of_pos hc] at hdrop
  rw [List.cons_append, runsFrom_cons_of_pos hc, htake, hdrop]

end Text

namespace Token

/-! ### Cells -/

/-- A token and the white space before it. -/
structure Cell where
  /-- The white space. -/
  gap : Text
  /-- The token. -/
  token : Token

/-- What cells one behind the other say. -/
def Cell.written (cells : List Cell) : Text := cells.flatMap fun cell => cell.gap ++ cell.token.text

theorem Cell.written_cons (cell : Cell) (cells : List Cell) :
    written (cell :: cells) = cell.gap ++ cell.token.text ++ written cells := by
  simp [written]

open Cell in
/-- A line that starts at a column, taken apart into cells and the white space behind them. -/
structure Spread (column : Nat) (line : Text) (cells : List Cell) (rest : Text) : Prop where
  parts : line = written cells ++ rest
  gaps : ∀ cell ∈ cells, ∀ c ∈ cell.gap, isBlank c = true
  ending : ∀ c ∈ rest, isBlank c = true
  apart : ∀ cell ∈ cells.tail, cell.gap ≠ []
  solid : ∀ cell ∈ cells, cell.token.text ≠ [] ∧ ∀ c ∈ cell.token.text, isBlank c = false
  columns : ∀ (i : Nat) (cell : Cell), cells[i]? = some cell →
    cell.token.column = column + (written (cells.take i) ++ cell.gap).width ∧
      cell.token.endColumn =
        column + (written (cells.take i) ++ cell.gap ++ cell.token.text).width

namespace Spread

variable {column : Nat} {line rest gap text : Text} {cell : Cell} {cells : List Cell}

theorem of_blank (column : Nat) (h : ∀ c ∈ line, isBlank c = true) :
    Spread column line [] line where
  parts := rfl
  gaps := by simp
  ending := h
  apart := by simp
  solid := by simp
  columns := by simp

/-- What is left behind the first cell is taken apart as well. -/
theorem behind (h : Spread column line (cell :: cells) rest) :
    Spread (column + cell.gap.width + cell.token.text.width) (Cell.written cells ++ rest) cells
      rest where
  parts := rfl
  gaps c hc := h.gaps c (List.mem_cons_of_mem cell hc)
  ending := h.ending
  apart c hc := h.apart c (List.mem_of_mem_tail hc)
  solid c hc := h.solid c (List.mem_cons_of_mem cell hc)
  columns := by
    -- Before a later cell stands the first one, whose width is now part of the column.
    intro i c hc
    obtain ⟨hstart, hstop⟩ := h.columns (i + 1) c hc
    simp only [List.take_succ_cons, Cell.written_cons, Text.width_append] at hstart hstop ⊢
    omega

/-- One more cell in front. All cells behind it have white space before them then, the first one
too. -/
theorem cons (h : Spread (column + gap.width + text.width) line cells rest)
    (hgap : ∀ c ∈ gap, isBlank c = true) (htext : text ≠ [])
    (hsolid : ∀ c ∈ text, isBlank c = false) (hapart : ∀ cell ∈ cells, cell.gap ≠ []) :
    Spread column (gap ++ text ++ line) (⟨gap, ⟨text, column + gap.width⟩⟩ :: cells) rest where
  parts := by
    rw [Cell.written_cons, h.parts]
    simp
  gaps := by
    intro c hc
    rcases List.mem_cons.1 hc with rfl | hc
    · exact hgap
    · exact h.gaps c hc
  ending := h.ending
  apart := hapart
  solid := by
    intro c hc
    rcases List.mem_cons.1 hc with rfl | hc
    · exact ⟨htext, hsolid⟩
    · exact h.solid c hc
  columns := by
    intro i c hc
    cases i with
    | zero =>
      cases hc
      simp [Cell.written, Run.endColumn, Nat.add_assoc]
    | succ i =>
      obtain ⟨hstart, hstop⟩ := h.columns i c hc
      simp only [List.take_succ_cons, Cell.written_cons, Text.width_append] at hstart hstop ⊢
      omega

/-- White space in front belongs to the first cell, or to the rest if there is no cell. -/
theorem exists_indent {c : Char} (h : Spread (column + units c) line cells rest)
    (hc : isBlank c = true) : ∃ cells' rest', Spread column (c :: line) cells' rest' := by
  cases cells with
  | nil =>
    have hline : line = rest := h.parts
    refine ⟨[], c :: line, of_blank column ?_⟩
    rw [hline]
    exact List.forall_mem_cons.2 ⟨hc, h.ending⟩
  | cons cell cells =>
    -- The first gap grows by `c`, and all that comes behind it stays at its column.
    have hline : c :: line = c :: cell.gap ++ cell.token.text ++ (Cell.written cells ++ rest) := by
      rw [h.parts, Cell.written_cons]
      simp
    have hgap : ∀ d ∈ c :: cell.gap, isBlank d = true :=
      List.forall_mem_cons.2 ⟨hc, h.gaps cell List.mem_cons_self⟩
    obtain ⟨htext, hsolid⟩ := h.solid cell List.mem_cons_self
    have hbehind := h.behind
    rw [Nat.add_assoc column, ← Text.width_cons] at hbehind
    rw [hline]
    exact ⟨_, rest, hbehind.cons hgap htext hsolid h.apart⟩

/-- If a line does not start with a token, all of its tokens have white space before them. -/
theorem gap_ne_nil (h : Spread column line cells rest)
    (hhead : ∀ c ∈ line.head?, isBlank c = true) : ∀ cell ∈ cells, cell.gap ≠ [] := by
  intro cell hcell hgap
  cases cells with
  | nil => cases hcell
  | cons first cells =>
    rcases List.mem_cons.1 hcell with rfl | hcell
    · -- Without white space the line starts with the first character of the token.
      obtain ⟨htext, hsolid⟩ := h.solid cell List.mem_cons_self
      obtain ⟨c, text, hcons⟩ := List.exists_cons_of_ne_nil htext
      have hblank : isBlank c = true := by
        apply hhead
        rw [h.parts, Cell.written_cons, hgap, hcons]
        simp
      have hnot : isBlank c = false := hsolid c (by rw [hcons]; exact List.mem_cons_self)
      rw [hblank] at hnot
      cases hnot
    · exact h.apart cell hcell hgap

/-- A line that goes on with white space has the same cells. -/
theorem append_blank (h : Spread column line cells rest) {w : Text}
    (hw : ∀ c ∈ w, isBlank c = true) : Spread column (line ++ w) cells (rest ++ w) where
  parts := by rw [h.parts, List.append_assoc]
  gaps := h.gaps
  ending := List.forall_mem_append.2 ⟨h.ending, hw⟩
  apart := h.apart
  solid := h.solid
  columns := h.columns

/-- Behind a token stands white space, or nothing. -/
theorem longest (h : Spread column line (cell :: cells) rest) :
    Text.Longest (fun c => !isBlank c) [] cell.token.text (Cell.written cells ++ rest) := by
  obtain ⟨htext, hsolid⟩ := h.solid cell List.mem_cons_self
  have hright : ∀ c ∈ (Cell.written cells ++ rest).head?, isBlank c = true := by
    intro c hc
    cases cells with
    | nil => exact h.ending c (List.mem_of_mem_head? hc)
    | cons next cells =>
      -- The next cell begins with its white space, which is not empty.
      have hgap : next.gap ≠ [] := h.apart next List.mem_cons_self
      rw [Cell.written_cons, List.append_assoc, List.append_assoc,
        List.head?_append_of_ne_nil _ hgap] at hc
      exact h.gaps next (List.mem_cons_of_mem cell List.mem_cons_self) c (List.mem_of_mem_head? hc)
  refine ⟨htext, ?_, by simp, ?_⟩
  · intro c hc
    simp [hsolid c hc]
  · intro c hc
    simp [hright c hc]

/-- The runs of a line that is taken apart are the tokens of its cells. The induction is on the
cells: the white space of the first one is passed over, and its token is the first run. -/
theorem runsFrom_eq (h : Spread column line cells rest) :
    line.runsFrom (fun c => !isBlank c) column = cells.map Cell.token := by
  induction cells generalizing column line with
  | nil =>
    have hline : line = rest := h.parts
    have hneg : ∀ c ∈ line, (!isBlank c) = false := by
      intro c hc
      simp [h.ending c (hline ▸ hc)]
    have hruns := Text.runsFrom_append_of_neg hneg column []
    simpa using hruns
  | cons cell cells ih =>
    have hneg : ∀ c ∈ cell.gap, (!isBlank c) = false := by
      intro c hc
      simp [h.gaps cell List.mem_cons_self c hc]
    have hcolumn : cell.token.column = column + cell.gap.width := by
      simpa [Cell.written] using (h.columns 0 cell rfl).1
    rw [h.parts, Cell.written_cons, List.append_assoc, List.append_assoc,
      Text.runsFrom_append_of_neg hneg, h.longest.runsFrom_eq, ih h.behind, ← hcolumn,
      List.map_cons]

theorem scan_eq (h : Spread 0 line cells rest) : scan line = cells.map Cell.token := h.runsFrom_eq

end Spread

/-- Every line can be taken apart. -/
theorem exists_spread (column : Nat) (line : Text) :
    ∃ cells rest, Spread column line cells rest := by
  fun_induction Text.runsFrom (fun c => !isBlank c) column line with
  | case1 column => exact ⟨[], [], .of_blank column (by simp)⟩
  | case2 column c rest hc word ih =>
    obtain ⟨cells, rest', h⟩ := ih
    have hline : c :: rest = [] ++ word ++ rest.dropWhile fun c => !isBlank c := by
      simp [word, List.takeWhile_append_dropWhile]
    have hsolid : ∀ d ∈ word, isBlank d = false := by
      intro d hd
      rcases List.mem_cons.1 hd with rfl | hd
      · simpa using hc
      · simpa using List.mem_takeWhile_imp hd
    -- What is left does not start with a token, for the token here goes as far as it can.
    have hapart : ∀ cell ∈ cells, cell.gap ≠ [] := by
      apply h.gap_ne_nil
      intro d hd
      simpa using Text.not_of_mem_head?_dropWhile hd
    rw [hline]
    exact ⟨_, rest', h.cons (by simp) (List.cons_ne_nil c _) hsolid hapart⟩
  | case3 column c rest hc ih =>
    obtain ⟨cells, rest', h⟩ := ih
    exact h.exists_indent (by simpa using hc)

/-- **The scanner is an exact tokenizer.** It finds some tokens exactly when the line can be taken
apart into white space and these tokens, with the columns at which they start and end. Every token
ends before the next one starts, and no later than the line. -/
theorem scan_is_exact (line : Text) (ts : List Token) :
    (scan line = ts ↔ ∃ cells rest, Spread 0 line cells rest ∧ cells.map Cell.token = ts) ∧
      (scan line).Pairwise (fun t t' => t.endColumn < t'.column) ∧
      ∀ t ∈ scan line, t.endColumn ≤ line.width := by
  refine ⟨⟨?_, ?_⟩, ?_, ?_⟩
  · intro hscan
    obtain ⟨cells, rest, h⟩ := exists_spread 0 line
    refine ⟨cells, rest, h, ?_⟩
    rw [← h.scan_eq, hscan]
  · intro hspread
    obtain ⟨cells, rest, h, hts⟩ := hspread
    rw [h.scan_eq, hts]
  · exact Text.pairwise_runsFrom _ 0 line
  · intro t ht
    obtain ⟨u, v, hline, hcolumn, _⟩ := Text.exists_of_mem_scan ht
    rw [hline]
    simp only [Run.endColumn, hcolumn, Text.width_append]
    omega

/-- An ideographic space, a pair of units, and nothing behind the last token. -/
example : scan "\u3000😀\x7b \t=".toList = [⟨"😀\x7b".toList, 1⟩, ⟨"=".toList, 6⟩] := by
  decide +kernel

end Token

end MelScript
