import MelScript.Proofs.Text.Spacing
import MelScript.Proofs.Vocabulary.ClosedForm
import MelScript.Vocabulary.Listing

/-! # Texts that are taken in pieces

  An index may take a text as a whole, or in two pieces with a separator between
  them. The fragments are not the same in both cases: a text that begins or ends
  outside of a name has an empty fragment there, and an empty text has none at
  all. What an editor is shown does not tell the difference.

  - The fragments that are not empty are the runs of the text
    (`Cut.filter_eq`), and a separator cuts a text into two without touching a run
    (`runsFrom_append_cons`).
  - The names that are shown depend on nothing but the fragments that have a name
    (`shown_listedNames`). The empty fragment has none, and neither has the bare
    sigil, with which it competes for the empty name.
-/

namespace MelScript

/-! ### Runs on both sides of a separator -/

namespace Text

/-- A character that is in no run parts the runs before it from those after it. -/
theorem runsFrom_append_cons {p : Char → Bool} {c : Char} (hc : p c = false) (column : Nat)
    (a b : Text) :
    runsFrom p column (a ++ c :: b) =
      runsFrom p column a ++ runsFrom p (column + a.width + units c) b := by
  fun_induction runsFrom p column a with
  | case1 column => simp [runsFrom_cons_of_neg hc]
  | case2 column d rest hd word ih =>
    -- The run that starts here ends at the separator at the latest.
    have htake : (rest ++ c :: b).takeWhile p = rest.takeWhile p := by
      rw [List.takeWhile_append]
      split
      · next hlength =>
        have hwhole := (List.takeWhile_sublist p).eq_of_length hlength
        rw [List.takeWhile_cons_of_neg (by simp [hc]), List.append_nil]
        exact hwhole.symm
      · rfl
    have hdrop : (rest ++ c :: b).dropWhile p = rest.dropWhile p ++ c :: b := by
      have hwhole := List.takeWhile_append_dropWhile (p := p) (l := rest ++ c :: b)
      rw [htake] at hwhole
      have hsame : rest.takeWhile p ++ (rest ++ c :: b).dropWhile p =
          rest.takeWhile p ++ (rest.dropWhile p ++ c :: b) := by
        rw [hwhole, ← List.append_assoc, List.takeWhile_append_dropWhile]
      exact List.append_cancel_left hsame
    have hwidth : width (d :: rest) = word.width + width (rest.dropWhile p) := by
      rw [← width_append]
      show _ = width (d :: (rest.takeWhile p ++ rest.dropWhile p))
      rw [List.takeWhile_append_dropWhile]
    rw [List.cons_append, runsFrom_cons_of_pos hd, htake, hdrop, ih, hwidth, Nat.add_assoc column]
    rfl
  | case3 column d rest hd ih =>
    rw [List.cons_append, runsFrom_cons_of_neg (by simpa using hd), ih, width_cons,
      Nat.add_assoc column]

/-- The fragments of a text that are not empty are the texts of its runs. -/
theorem Cut.filter_eq {t : Text} {fs : List Text} (h : Cut t fs) (column : Nat) :
    fs.filter (fun f => !f.isEmpty) = (runsFrom isFragmentChar column t).map (·.text) := by
  induction h generalizing column with
  | @whole f inside =>
    by_cases hf : f = []
    · subst hf
      simp
    · have hlongest : Longest isFragmentChar [] f [] := ⟨hf, inside, by simp, by simp⟩
      have hruns := hlongest.runsFrom_eq column
      rw [List.append_nil] at hruns
      simp [hruns, hf]
  | @gap f g rest fs inside nonempty outside longest cut ih =>
    by_cases hf : f = []
    · -- The text begins with a gap: there is an empty fragment and no run.
      subst hf
      rw [List.nil_append, runsFrom_append_of_neg outside, ← ih]
      rfl
    · have hlongest : Longest isFragmentChar [] f (g ++ rest) := by
        refine ⟨hf, inside, by simp, ?_⟩
        intro c hc
        rw [List.head?_append_of_ne_nil _ nonempty] at hc
        exact outside c (List.mem_of_mem_head? hc)
      rw [List.append_assoc, hlongest.runsFrom_eq, runsFrom_append_of_neg outside, List.map_cons,
        ← ih]
      simp [hf]

end Text

/-! ### Fragments with a name -/

/-- The fragments that have a name: all but the empty one and the bare sigil. -/
def named (F : List Text) : List Text := F.filter fun f => !f.fragmentName.isEmpty

theorem named_append (F F' : List Text) : named (F ++ F') = named F ++ named F' :=
  List.filter_append _ _

/-- What has a name is not empty. -/
theorem named_filter (F : List Text) : named (F.filter fun f => !f.isEmpty) = named F := by
  unfold named
  rw [List.filter_filter]
  apply List.filter_congr
  intro f _
  cases f with
  | nil => rfl
  | cons c f => simp

/-- The names of the fragments that have one are those that are shown. -/
theorem namesOf_named (F : List Text) : namesOf (named F) = Index.shown (namesOf F) := by
  induction F using List.reverseRecOn with
  | nil => rfl
  | append_singleton F f ih =>
    rw [named_append]
    by_cases hf : f.fragmentName = []
    · -- Without a name the fragment is left out, and the empty name is not shown.
      have hnone : named [f] = [] := by simp [named, hf]
      rw [hnone, List.append_nil, ih, namesOf_concat, hf]
      unfold Index.shown
      rw [List.filter_append]
      split <;> simp
    · have hsame : named [f] = [f] := by simp [named, hf]
      have hmem : f.fragmentName ∈ namesOf (named F) ↔ f.fragmentName ∈ namesOf F := by
        rw [ih]
        unfold Index.shown
        rw [List.mem_filter]
        simp [hf]
      rw [hsame, namesOf_concat, namesOf_concat, ih]
      unfold Index.shown at ih ⊢
      rw [List.filter_append, ← ih]
      -- Whether the name is known does not depend on the fragments without one.
      by_cases hold : f.fragmentName ∈ namesOf F
      · rw [if_pos hold, if_pos (hmem.2 hold), List.filter_nil]
      · rw [if_neg hold, if_neg (mt hmem.1 hold)]
        simp [hf]

/-- The first fragment that stands for a name which is not empty has a name. -/
theorem firstFragment?_named (F : List Text) {w : Text} (hw : w ≠ []) :
    firstFragment? (named F) w = firstFragment? F w := by
  unfold firstFragment? named
  rw [List.find?_filter]
  congr 1
  funext f
  by_cases hf : f.fragmentName = w
  · simp [hf, hw]
  · simp [hf]

/-- **What is shown depends on the fragments with a name only.** -/
theorem shown_listedNames (reserved F : List Text) (sigil : Bool) :
    Index.shown (listedNames reserved F sigil) = listedNames reserved (named F) sigil := by
  unfold listedNames
  rw [namesOf_named]
  unfold Index.shown
  rw [List.filter_filter, List.filter_filter]
  apply List.filter_congr
  intro w _
  by_cases hw : w = []
  · -- The empty name is kept on neither side.
    simp [hw]
  · simp [isListed, firstFragment?_named F hw, Bool.and_comm]

namespace Index

/-! ### Two pieces -/

/-- The fragments of a text that have a name are runs of the text. -/
theorem named_fragmentsOf (t : Text) :
    named (fragmentsOf [t]) = named ((t.runs isFragmentChar).map (·.text)) := by
  have hruns : named t.fragments = named ((t.runs isFragmentChar).map (·.text)) := by
    unfold Text.runs
    rw [← (Text.cut_fragments t).filter_eq 0, named_filter]
  cases t with
  | nil => simp [fragmentsOf, Text.runs]
  | cons c t =>
    rw [← hruns]
    simp [fragmentsOf]

/-- At a separator the fragments with a name are parted like the text. -/
theorem named_fragmentsOf_append_cons {c : Char} (hc : isFragmentChar c = false) (a b : Text) :
    named (fragmentsOf [a ++ c :: b]) = named (fragmentsOf [a]) ++ named (fragmentsOf [b]) := by
  have hcut : ∀ column, (Text.runsFrom isFragmentChar column b).map (·.text) =
      b.fragments.filter fun f => !f.isEmpty :=
    fun column => ((Text.cut_fragments b).filter_eq column).symm
  rw [named_fragmentsOf, named_fragmentsOf, named_fragmentsOf, ← named_append]
  unfold Text.runs
  -- The runs of the second piece stand further to the right in the whole, with the same texts.
  rw [Text.runsFrom_append_cons hc, List.map_append, hcut, hcut]

theorem ClosedForm.shown_eq {reserved F : List Text} {index : Index}
    (h : ClosedForm reserved F index) :
    shown index.vars = listedNames reserved (named F) true ∧
      shown index.words = listedNames reserved (named F) false := by
  rw [h.vars, h.words]
  exact ⟨shown_listedNames reserved F true, shown_listedNames reserved F false⟩

/-- **Pieces are shown as the whole.** From any index that texts can lead to, taking a text in two
pieces shows the same variables and the same words, in the same order, as taking it as a whole with
a separator between them. -/
theorem pieces_shown_as_whole (reserved texts : List Text) (a b : Text) {c : Char}
    (hc : isFragmentChar c = false) :
    let index := afterAll reserved texts
    shown ((index.after a).after b).vars = shown (index.after (a ++ c :: b)).vars ∧
      shown ((index.after a).after b).words = shown (index.after (a ++ c :: b)).words := by
  intro index
  have hindex : ClosedForm reserved (fragmentsOf texts) index := closedForm_afterAll reserved texts
  have hpieces := ((hindex.after a).after b).shown_eq
  have hwhole := (hindex.after (a ++ c :: b)).shown_eq
  have hnamed : named (fragmentsOf texts ++ fragmentsOf [a] ++ fragmentsOf [b]) =
      named (fragmentsOf texts ++ fragmentsOf [a ++ c :: b]) := by
    rw [named_append, named_append, named_append, named_fragmentsOf_append_cons hc,
      List.append_assoc]
  rw [hpieces.1, hpieces.2, hwhole.1, hwhole.2, hnamed]
  exact ⟨rfl, rfl⟩

/-- The empty fragment before the separator takes the empty name away from the bare sigil after it.
Neither is shown. -/
theorem pieces_around_bare_sigil :
    let index := afterAll ["if".toList] ["$y".toList]
    let pieces := (index.after []).after "$ x if".toList
    let whole := index.after ([] ++ '0' :: "$ x if".toList)
    isFragmentChar '0' = false ∧ pieces.vars ≠ whole.vars ∧ pieces.words ≠ whole.words ∧
      shown pieces.vars = shown whole.vars ∧ shown pieces.words = shown whole.words ∧
      shown whole.words = ["x".toList] := by
  intro index pieces whole
  obtain ⟨hvars, hwords⟩ :=
    pieces_shown_as_whole ["if".toList] ["$y".toList] [] "$ x if".toList (c := '0') (by decide)
  exact ⟨by decide, by decide +kernel, by decide +kernel, hvars, hwords, by decide +kernel⟩

end Index

end MelScript
