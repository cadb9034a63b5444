import MelScript.Document.State
import MelScript.Proofs.Outline.Occurrences

/-! # The outline of a text

  A text is cut into lines in two ways. An open document is scanned piece by
  piece, where a piece is all that stands between two line feeds; a file is
  scanned line by line, where one carriage return before a line feed is dropped
  and no empty line follows the last line feed. The two lists of lines differ

  - in carriage returns at the ends of lines, which the scanner drops itself;
  - in an empty last line, which has no tokens.

  So the outline is the same (`Outline.ofLines_pieces`).

  The scan of a document may be called off. It looks at a flag before each line
  and once more after the last one, and either goes through all lines or has no
  outline at all (`Outline.scanUnlessCancelled_eq`).
-/

namespace MelScript

/-! ### The ends of lines -/

namespace Text

theorem dropBreaks_concat_return (t : Text) : (t ++ ['\r']).dropBreaks = t.dropBreaks := by
  have hbreak : isBreak '\r' = true := by decide
  unfold dropBreaks dropTail
  rw [List.reverse_concat, List.dropWhile_cons_of_pos hbreak]

/-- The carriage return that belongs to a break is one of those that the scanner drops. -/
theorem dropBreaks_dropReturn (t : Text) : t.dropReturn.dropBreaks = t.dropBreaks := by
  unfold dropReturn
  split
  · next hlast =>
    obtain ⟨u, hu⟩ := List.getLast?_eq_some_iff.1 hlast
    rw [hu, List.dropLast_concat, dropBreaks_concat_return]
  · rfl

/-- The lines are the pieces with one carriage return dropped, except for the last piece: it stays
as it is, and it is no line if it is empty. -/
theorem exists_pieces_eq (t : Text) :
    ∃ closed last, t.pieces = closed ++ [last] ∧
      (last = [] ∧ t.lines = closed.map dropReturn ∨
        last ≠ [] ∧ t.lines = closed.map dropReturn ++ [last]) := by
  have hne : t.pieces ≠ [] := split_ne_nil '\n' t
  have hpieces : t.pieces = t.pieces.dropLast ++ [t.pieces.getLast hne] :=
    (List.dropLast_concat_getLast hne).symm
  refine ⟨t.pieces.dropLast, t.pieces.getLast hne, hpieces, ?_⟩
  unfold lines
  dsimp only
  rw [List.getLast?_eq_some_getLast hne]
  cases hlast : t.pieces.getLast hne with
  | nil => exact .inl ⟨rfl, rfl⟩
  | cons c rest => exact .inr ⟨List.cons_ne_nil c rest, rfl⟩

end Text

namespace Scanner

/-- The breaks at the end of a line do not count. -/
theorem feed_congr (s : Scanner) {line line' : Text} (h : line.dropBreaks = line'.dropBreaks) :
    s.feed line = s.feed line' := by
  unfold feed
  rw [h]

theorem foldl_feed_map_dropReturn (s : Scanner) (lines : List Text) :
    (lines.map Text.dropReturn).foldl feed s = lines.foldl feed s := by
  induction lines generalizing s with
  | nil => rfl
  | cons line lines ih =>
    have hline : s.feed line.dropReturn = s.feed line :=
      s.feed_congr line.dropBreaks_dropReturn
    rw [List.map_cons, List.foldl_cons, List.foldl_cons, hline]
    exact ih (s.feed line)

/-- An empty line counts as a line, but nothing is found on it. -/
theorem symbols_feed_nil (s : Scanner) : (s.feed []).symbols = s.symbols := by
  have hscan : Token.scan [] = [] := Text.runsFrom_nil _ 0
  show (({ s with nextLine := s.nextLine + 1 }).tokens s.nextLine 0 (Token.scan [])).symbols = _
  rw [hscan]
  rfl

end Scanner

namespace Outline

/-- Pieces and lines of a text have the same outline. -/
theorem ofLines_pieces (t : Text) : ofLines t.pieces = ofText t := by
  obtain ⟨closed, last, hpieces, hlines⟩ := t.exists_pieces_eq
  unfold ofText ofLines
  rw [hpieces, List.foldl_append]
  rcases hlines with ⟨hlast, hlines⟩ | ⟨_, hlines⟩
  · -- The text ends with a line feed: the piece behind it is fed, but no line.
    rw [hlast, hlines, Scanner.foldl_feed_map_dropReturn]
    exact Scanner.symbols_feed_nil _
  · rw [hlines, List.foldl_append, Scanner.foldl_feed_map_dropReturn]

/-! ### Scans that are called off -/

/-- A scan has as many flags to look at as there are lines, and one more. It finds all symbols if
none of them is raised, and nothing otherwise. The induction is on the lines that are left; a raised
flag ends the scan wherever it stands. -/
theorem scanUnlessCancelled_eq (s : Scanner) (flags : List Bool) (lines : List Text) :
    scanUnlessCancelled s flags lines =
      if true ∈ flags.take (lines.length + 1) then none
      else some (lines.foldl Scanner.feed s).symbols := by
  induction lines generalizing s flags with
  | nil =>
    match flags with
    | [] => rfl
    | true :: _ => simp [scanUnlessCancelled]
    | false :: _ => simp [scanUnlessCancelled]
  | cons line lines ih =>
    match flags with
    | [] =>
      have hrest := ih (s.feed line) []
      simpa [scanUnlessCancelled] using hrest
    | true :: _ => simp [scanUnlessCancelled]
    | false :: flags =>
      have hrest := ih (s.feed line) flags
      simpa [scanUnlessCancelled] using hrest

/-- **A document and a file with the same text have the same outline, unless the scan is called
off.** The scan of a document gives nothing when one of the flags at which it looks is raised, one
before each piece and one after the last, and otherwise the whole outline of the file. -/
theorem document_outline_eq_file_outline (flags : List Bool) (t : Text) :
    ofLinesUnlessCancelled flags t.pieces =
        (if true ∈ flags.take (t.pieces.length + 1) then none else some (ofText t)) ∧
      Document.computeOutline t = ofText t := by
  constructor
  · unfold ofLinesUnlessCancelled
    rw [scanUnlessCancelled_eq, ← ofLines_pieces]
    rfl
  · exact ofLines_pieces t

end Outline

end MelScript
