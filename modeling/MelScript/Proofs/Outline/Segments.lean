import MelScript.Proofs.Outline.Occurrences

/-! # The outline by segments

  The scanner keeps a level and an open procedure. What it finds can be said
  without either of them, about the script as a whole:

  - An occurrence is a *closing point* when it closes a block and, up to and
    including it, as many tokens open blocks as close them.
  - The script falls into *segments*, each of which ends with a closing point;
    the last one ends with the script. A variable that a closing point declares
    belongs to the segment after it.
  - In each segment the symbols before the first procedure stand by themselves,
    and this procedure takes in all symbols after it. Its body ends with the
    line of the closing point, or it is its own line when there is none.

  `ofLines_eq_bySegments` says that this is the outline. The invariant behind it
  is `Scanner.Holds`: the scanner has in its hands the symbols of the segments
  that have ended, and those of the present segment nested in this way.
-/

namespace MelScript

/-! ### Closing points -/

namespace Occurrence

/-- Opening less closing tokens. -/
def balance (os : List Occurrence) : Int :=
  os.countP (·.token.opensBlock) - os.countP (·.token.closesBlock)

/-- The occurrences, each with the mark whether it is a closing point. -/
def marked (os : List Occurrence) : List (Occurrence × Bool) :=
  os.zipIdx.map fun (o, i) => (o, o.token.closesBlock && balance (os.take (i + 1)) == 0)

/-- What an occurrence adds to the balance. -/
def rise (o : Occurrence) : Int := balance [o]

theorem balance_append (os os' : List Occurrence) :
    balance (os ++ os') = balance os + balance os' := by
  simp only [balance, List.countP_append]
  omega

/-- The marks of occurrences after others that had some balance. -/
def markedFrom (level : Int) : List Occurrence → List (Occurrence × Bool)
  | [] => []
  | o :: os =>
    (o, o.token.closesBlock && level + o.rise == 0) :: markedFrom (level + o.rise) os

theorem map_zipIdx_eq_markedFrom (read os : List Occurrence) :
    (os.zipIdx read.length).map (fun (o, i) =>
      (o, o.token.closesBlock && balance ((read ++ os).take (i + 1)) == 0)) =
      markedFrom (balance read) os := by
  induction os generalizing read with
  | nil => rfl
  | cons o os ih =>
    have htail := ih (read ++ [o])
    have hhead : (read ++ o :: os).take (read.length + 1) = read ++ [o] := by
      simp [List.take_length_add_append]
    rw [List.length_append, balance_append, List.append_assoc] at htail
    rw [List.zipIdx_cons, List.map_cons, markedFrom]
    simp only [hhead, balance_append]
    exact congrArg _ htail

/-- Counting from the start of the script and keeping a running balance give the same marks. -/
theorem marked_eq_markedFrom (os : List Occurrence) : marked os = markedFrom 0 os :=
  map_zipIdx_eq_markedFrom [] os

end Occurrence

/-! ### Segments -/

/-- A stretch of a script between two closing points. -/
structure Segment where
  /-- The closing point before it, if it is not the first one. -/
  before : Option Occurrence
  /-- Its occurrences except for the closing point. -/
  inner : List Occurrence
  /-- The closing point with which it ends, if it is not the last one. -/
  closing : Option Occurrence

namespace Segment

/-- The segment with more occurrences in front. -/
def prepend (os : List Occurrence) (g : Segment) : Segment := { g with inner := os ++ g.inner }

/-- The segments of marked occurrences, when `before` is the closing point before them. -/
def cut (before : Option Occurrence) : List (Occurrence × Bool) → List Segment
  | [] => [⟨before, [], none⟩]
  | (o, true) :: rest => ⟨before, [], some o⟩ :: cut (some o) rest
  | (o, false) :: rest => (cut before rest).modifyHead (prepend [o])

/-- The symbols that belong to a segment, in order. -/
def symbols (g : Segment) : List Symbol :=
  (g.before.toList ++ g.inner).filterMap Occurrence.declared?

/-- The symbols before the first procedure. -/
def loose (xs : List Symbol) : List Symbol := xs.takeWhile fun x => !x.isProcedure

/-- The first procedure, with all symbols after it as its children. -/
def owner? (xs : List Symbol) : Option Symbol :=
  match xs.dropWhile fun x => !x.isProcedure with
  | [] => none
  | p :: inner => some { p with children := inner }

/-- A procedure with its body up to the closing point, if there is one. -/
def close (closing : Option Occurrence) (p : Symbol) : Symbol :=
  match closing with
  | none => p
  | some c => p.endAt c.line c.width

@[simp] theorem close_none : close none = id := rfl

@[simp] theorem close_some (c : Occurrence) : close (some c) = (·.endAt c.line c.width) := rfl

/-- The outline of a segment. -/
def outline (g : Segment) : List Symbol :=
  loose g.symbols ++ ((owner? g.symbols).map (close g.closing)).toList

theorem modifyHead_prepend_nil (gs : List Segment) : gs.modifyHead (prepend []) = gs := by
  cases gs <;> rfl

theorem modifyHead_prepend_prepend (os os' : List Occurrence) (gs : List Segment) :
    (gs.modifyHead (prepend os')).modifyHead (prepend os) =
      gs.modifyHead (prepend (os ++ os')) := by
  cases gs <;> simp [prepend]

end Segment

/-- The outline of lines, segment by segment. -/
def Outline.bySegments (lines : List Text) : List Symbol :=
  (Segment.cut none (Occurrence.marked (Occurrence.ofLines lines))).flatMap Segment.outline

/-! ### Nesting symbol by symbol -/

namespace Segment

theorem dropWhile_of_owner?_eq_none {xs : List Symbol} (h : owner? xs = none) :
    xs.dropWhile (fun x => !x.isProcedure) = [] := by
  unfold owner? at h
  split at h
  · assumption
  · cases h

/-- Without a procedure so far, a variable stands by itself and a procedure becomes the owner. -/
theorem concat_of_owner?_eq_none {xs : List Symbol} (h : owner? xs = none) (x : Symbol) :
    loose (xs ++ [x]) = loose xs ++ loose [x] ∧ owner? (xs ++ [x]) = owner? [x] := by
  have hdrop := dropWhile_of_owner?_eq_none h
  have htake := List.takeWhile_append_dropWhile (p := fun x : Symbol => !x.isProcedure) (l := xs)
  rw [hdrop, List.append_nil] at htake
  constructor
  · unfold loose
    rw [List.takeWhile_append, htake, if_pos rfl]
  · unfold owner?
    rw [List.dropWhile_append, hdrop]
    rfl

theorem owner?_singleton {x : Symbol} (hx : x.isProcedure = true) (hchildren : x.children = []) :
    owner? [x] = some x := by
  cases x
  simp_all [owner?]

/-- After the first procedure every symbol becomes its child. -/
theorem concat_of_owner?_eq_some {xs : List Symbol} {p : Symbol} (h : owner? xs = some p)
    (x : Symbol) :
    loose (xs ++ [x]) = loose xs ∧ owner? (xs ++ [x]) = some (p.addChild x) := by
  unfold owner? at h
  split at h
  · cases h
  · next q inner hdrop =>
    cases h
    have hshort : (xs.takeWhile fun x => !x.isProcedure).length ≠ xs.length := by
      have hlen := congrArg List.length
        (List.takeWhile_append_dropWhile (p := fun x : Symbol => !x.isProcedure) (l := xs))
      rw [hdrop] at hlen
      simp only [List.length_append, List.length_cons] at hlen
      omega
    constructor
    · unfold loose
      rw [List.takeWhile_append, if_neg hshort]
    · unfold owner?
      rw [List.dropWhile_append, hdrop]
      rfl

end Segment

/-! ### What the scanner holds -/

namespace Scanner

/-- The scanner has found the symbols `ended` in segments that have ended, and `xs` in the present
one. -/
structure Holds (s : Scanner) (ended xs : List Symbol) : Prop where
  finished : s.finished = ended ++ Segment.loose xs
  current : s.current = Segment.owner? xs

theorem holds_start : Holds .start [] [] := ⟨rfl, rfl⟩

theorem Holds.add_var {s : Scanner} {ended xs : List Symbol} (h : Holds s ended xs) {x : Symbol}
    (hx : x.isProcedure = false) : Holds (s.add x) ended (xs ++ [x]) := by
  unfold add
  cases hcurrent : s.current with
  | none =>
    have howner : Segment.owner? xs = none := h.current.symm.trans hcurrent
    obtain ⟨hloose, howner'⟩ := Segment.concat_of_owner?_eq_none howner x
    -- No procedure yet: the variable is finished at once.
    constructor
    · rw [hloose]
      simp [h.finished, Segment.loose, hx]
    · rw [howner']
      simp [Segment.owner?, hx]
  | some p =>
    have howner : Segment.owner? xs = some p := h.current.symm.trans hcurrent
    obtain ⟨hloose, howner'⟩ := Segment.concat_of_owner?_eq_some howner x
    constructor
    · rw [hloose]
      exact h.finished
    · rw [howner']

theorem Holds.add_procedure {s : Scanner} {ended xs : List Symbol} (h : Holds s ended xs)
    {x : Symbol} (hx : x.isProcedure = true) (hchildren : x.children = []) :
    Holds (if s.insideProcedure then s.add x else { s with current := some x }) ended
      (xs ++ [x]) := by
  unfold insideProcedure add
  cases hcurrent : s.current with
  | none =>
    have howner : Segment.owner? xs = none := h.current.symm.trans hcurrent
    obtain ⟨hloose, howner'⟩ := Segment.concat_of_owner?_eq_none howner x
    -- No procedure yet: this one becomes the owner.
    constructor
    · rw [hloose]
      simp [h.finished, Segment.loose, hx]
    · rw [howner']
      simp [Segment.owner?_singleton hx hchildren]
  | some p =>
    have howner : Segment.owner? xs = some p := h.current.symm.trans hcurrent
    obtain ⟨hloose, howner'⟩ := Segment.concat_of_owner?_eq_some howner x
    constructor
    · rw [hloose]
      exact h.finished
    · rw [howner']
      rfl

/-! ### One token -/

theorem Holds.openBlock {s : Scanner} {ended xs : List Symbol} (h : Holds s ended xs)
    (t : Token) : Holds (s.openBlock t) ended xs := by
  unfold Scanner.openBlock
  split
  · exact ⟨h.finished, h.current⟩
  · exact h

theorem level_openBlock (s : Scanner) (t : Token) :
    (s.openBlock t).level = s.level + if t.opensBlock then 1 else 0 := by
  unfold openBlock
  split
  · rfl
  · exact (Int.add_zero s.level).symm

theorem level_add (s : Scanner) (x : Symbol) : (s.add x).level = s.level := by
  unfold add
  split <;> rfl

theorem level_declareProcedure (s : Scanner) (line width : Nat) (t : Token)
    (following : List Token) :
    (s.declareProcedure line width t following).level = s.level := by
  unfold declareProcedure
  split
  · split
    · rfl
    · split
      · exact s.level_add _
      · rfl
  · rfl

theorem level_closeBlock (s : Scanner) (line width : Nat) (t : Token) :
    (s.closeBlock line width t).level = s.level - if t.closesBlock then 1 else 0 := by
  rw [closeBlock_eq]
  split
  · split <;> rfl
  · exact (Int.sub_zero s.level).symm

theorem level_declareVariable (s : Scanner) (line : Nat) (t : Token) (following : List Token) :
    (s.declareVariable line t following).level = s.level := by
  unfold declareVariable
  split
  · exact s.level_add _
  · rfl

theorem rise_eq (o : Occurrence) :
    o.rise = (if o.token.opensBlock then 1 else 0) - if o.token.closesBlock then 1 else 0 := by
  unfold Occurrence.rise Occurrence.balance
  simp only [List.countP_singleton]
  cases o.token.opensBlock <;> cases o.token.closesBlock <;> rfl

/-- The level is the balance of what was read. -/
theorem level_visit (s : Scanner) (o : Occurrence) :
    (s.visit o).level = s.level + o.rise := by
  unfold visit token
  rw [level_declareVariable, level_closeBlock, level_declareProcedure, level_openBlock, rise_eq]
  omega

theorem declaredProcedure?_shape {line width : Nat} {following : List Token} {x : Symbol}
    (h : declaredProcedure? line width following = some x) :
    x.isProcedure = true ∧ x.children = [] := by
  unfold declaredProcedure? at h
  cases hname : nameToken? following with
  | none => simp [hname] at h
  | some t =>
    simp only [hname, Option.bind_eq_bind, Option.bind_some] at h
    split at h
    · cases h
    · cases h
      exact ⟨rfl, rfl⟩

theorem declaredVariable?_shape {line : Nat} {t : Token} {following : List Token} {x : Symbol}
    (h : declaredVariable? line t following = some x) :
    x.isProcedure = false ∧ x.children = [] := by
  unfold declaredVariable? at h
  split at h
  · dsimp only at h
    split at h
    · cases h
    · cases h
      exact ⟨rfl, rfl⟩
  · cases h

theorem Holds.declareVariable {s : Scanner} {ended xs : List Symbol} (h : Holds s ended xs)
    (line : Nat) (t : Token) (following : List Token) :
    Holds (s.declareVariable line t following) ended
      (xs ++ (declaredVariable? line t following).toList) := by
  unfold Scanner.declareVariable
  split
  · next v hv =>
    rw [hv]
    exact h.add_var (declaredVariable?_shape hv).1
  · next hnone =>
    rw [hnone, Option.toList_none, List.append_nil]
    exact h

theorem Holds.declareProcedure {s : Scanner} {ended xs : List Symbol} (h : Holds s ended xs)
    (line width : Nat) {t : Token} (following : List Token) (ht : t.text = procKeyword) :
    Holds (s.declareProcedure line width t following) ended
      (xs ++ (declaredProcedure? line width following).toList) := by
  unfold Scanner.declareProcedure
  rw [if_pos ht]
  split
  · next hnone =>
    rw [hnone, Option.toList_none, List.append_nil]
    exact h
  · next p hp =>
    rw [hp]
    obtain ⟨hproc, hchildren⟩ := declaredProcedure?_shape hp
    exact h.add_procedure hproc hchildren

/-- The keyword opens no block and closes none. -/
theorem braceless_of_keyword {t : Token} (h : t.text = procKeyword) :
    t.opensBlock = false ∧ t.closesBlock = false := by
  unfold Token.opensBlock Token.closesBlock
  rw [h]
  decide

/-- The keyword holds no brace and no sigil: it can do nothing but declare a procedure. -/
theorem visit_of_keyword (s : Scanner) {o : Occurrence} (h : o.token.text = procKeyword) :
    s.visit o = s.declareProcedure o.line o.width o.token o.following := by
  obtain ⟨hopens, hcloses⟩ := braceless_of_keyword h
  have hvar : declaredVariable? o.line o.token o.following = none := by
    unfold declaredVariable?
    rw [h]
    rfl
  unfold visit token
  simp only [openBlock, hopens, closeBlock_eq, hcloses, Scanner.declareVariable, hvar,
    Bool.false_eq_true, if_false]

theorem visit_of_not_keyword (s : Scanner) {o : Occurrence} (h : o.token.text ≠ procKeyword) :
    s.visit o = ((s.openBlock o.token).closeBlock o.line o.width o.token).declareVariable
      o.line o.token o.following := by
  unfold visit token
  simp only [Scanner.declareProcedure, if_neg h]

/-- The level that decides whether a closing brace is a closing point. -/
theorem level_openBlock_sub (s : Scanner) {o : Occurrence} (h : o.token.closesBlock = true) :
    (s.openBlock o.token).level - 1 = s.level + o.rise := by
  rw [level_openBlock, rise_eq, h, if_pos rfl]
  omega

/-- A token that is no closing point adds what it declares to the present segment. -/
theorem Holds.visit_inner {s : Scanner} {ended xs : List Symbol} (h : Holds s ended xs)
    {o : Occurrence} (hno : (o.token.closesBlock && s.level + o.rise == 0) = false) :
    Holds (s.visit o) ended (xs ++ o.declared?.toList) := by
  unfold Occurrence.declared?
  split
  · next hkey =>
    rw [visit_of_keyword s hkey]
    exact h.declareProcedure o.line o.width o.following hkey
  · next hkey =>
    rw [visit_of_not_keyword s hkey]
    apply Holds.declareVariable
    have hopen := h.openBlock o.token
    rw [closeBlock_eq]
    split
    · next hcloses =>
      -- A brace closes, but some other block stays open (or too many were closed).
      have hlevel : (s.openBlock o.token).level - 1 ≠ 0 := by
        rw [level_openBlock_sub s hcloses]
        simpa [hcloses] using hno
      rw [if_neg hlevel]
      exact ⟨hopen.finished, hopen.current⟩
    · exact hopen

/-- A closing point ends the present segment; what it declares belongs to the next one. -/
theorem Holds.visit_closing {s : Scanner} {ended xs : List Symbol} (h : Holds s ended xs)
    {o : Occurrence} (hyes : (o.token.closesBlock && s.level + o.rise == 0) = true) :
    Holds (s.visit o)
      (ended ++ (Segment.loose xs ++ ((Segment.owner? xs).map (Segment.close (some o))).toList))
      o.declared?.toList := by
  rw [Bool.and_eq_true] at hyes
  obtain ⟨hcloses, hzero⟩ := hyes
  -- A closing point holds a brace, which the keyword does not.
  have hkey : o.token.text ≠ procKeyword := by
    intro hkey
    rw [(braceless_of_keyword hkey).2] at hcloses
    cases hcloses
  have hlevel : (s.openBlock o.token).level - 1 = 0 := by
    rw [level_openBlock_sub s hcloses]
    simpa using hzero
  have hopen := h.openBlock o.token
  have hend : Holds ((s.openBlock o.token).closeBlock o.line o.width o.token)
      (ended ++ (Segment.loose xs ++ ((Segment.owner? xs).map (Segment.close (some o))).toList))
      [] := by
    rw [closeBlock_eq, if_pos hcloses, if_pos hlevel]
    constructor
    · show (s.openBlock o.token).finished ++ _ = _
      rw [hopen.finished, hopen.current]
      simp [Segment.loose]
    · rfl
  unfold Occurrence.declared?
  rw [if_neg hkey, visit_of_not_keyword s hkey]
  exact hend.declareVariable o.line o.token o.following

/-! ### All tokens -/

theorem Holds.symbols_eq {s : Scanner} {ended xs : List Symbol} (h : Holds s ended xs) :
    s.symbols = ended ++ (Segment.loose xs ++ (Segment.owner? xs).toList) := by
  unfold symbols
  rw [h.finished, h.current, List.append_assoc]

/-- What is found in the end, when the present segment has the occurrences `inner` so far. The
induction is on the occurrences to come; at a closing point the present segment moves to those that
have ended. -/
theorem symbols_foldl_visit {s : Scanner} {ended : List Symbol} {before : Option Occurrence}
    {inner : List Occurrence} (os : List Occurrence)
    (h : Holds s ended ((before.toList ++ inner).filterMap Occurrence.declared?)) :
    (os.foldl visit s).symbols = ended ++ ((Segment.cut before
      (Occurrence.markedFrom s.level os)).modifyHead (Segment.prepend inner)).flatMap
        Segment.outline := by
  induction os generalizing s ended before inner with
  | nil =>
    rw [List.foldl_nil, h.symbols_eq]
    simp [Occurrence.markedFrom, Segment.cut, Segment.prepend, Segment.outline, Segment.symbols]
  | cons o os ih =>
    rw [List.foldl_cons, Occurrence.markedFrom]
    cases hmark : (o.token.closesBlock && s.level + o.rise == 0) with
    | true =>
      -- The present segment ends; the next one has `o` before it and is empty so far.
      have hnext := h.visit_closing hmark
      have hdeclared : o.declared?.toList =
          ((some o).toList ++ []).filterMap Occurrence.declared? := by
        cases hd : o.declared? <;> simp [hd]
      rw [hdeclared] at hnext
      rw [ih hnext, level_visit, Segment.modifyHead_prepend_nil]
      simp [Segment.cut, Segment.prepend, Segment.outline, Segment.symbols]
    | false =>
      -- The present segment gets longer by `o`.
      have hnext := h.visit_inner hmark
      have hdeclared : (before.toList ++ inner).filterMap Occurrence.declared? ++
          o.declared?.toList =
          (before.toList ++ (inner ++ [o])).filterMap Occurrence.declared? := by
        cases hd : o.declared? <;> simp [hd]
      rw [hdeclared] at hnext
      rw [ih hnext, level_visit, Segment.cut, Segment.modifyHead_prepend_prepend]

end Scanner

/-- The scanner finds the outline by segments. -/
theorem Outline.ofLines_eq_bySegments (lines : List Text) :
    Outline.ofLines lines = Outline.bySegments lines := by
  unfold Outline.bySegments
  rw [Outline.ofLines_eq_foldl_visit, Occurrence.marked_eq_markedFrom,
    Scanner.symbols_foldl_visit _ (Scanner.holds_start : Scanner.Holds _ _
      (((none : Option Occurrence).toList ++ []).filterMap Occurrence.declared?)),
    Segment.modifyHead_prepend_nil]
  rfl

/-! ### Main results -/

/-- Every occurrence is in one segment, in its place. -/
theorem Segment.flatMap_cut (before : Option Occurrence) (ms : List (Occurrence × Bool)) :
    (cut before ms).flatMap (fun g => g.inner ++ g.closing.toList) = ms.map (·.1) := by
  have hprepend : ∀ (o : Occurrence) (gs : List Segment), gs ≠ [] →
      (gs.modifyHead (prepend [o])).flatMap (fun g => g.inner ++ g.closing.toList) =
        o :: gs.flatMap fun g => g.inner ++ g.closing.toList := by
    intro o gs hgs
    cases gs with
    | nil => exact absurd rfl hgs
    | cons g gs => simp [prepend]
  have hne : ∀ before (ms : List (Occurrence × Bool)), cut before ms ≠ [] := by
    intro before ms
    fun_induction cut before ms <;> simp_all
  fun_induction cut before ms with
  | case1 before => rfl
  | case2 before o rest ih => simp [ih]
  | case3 before o rest ih => rw [hprepend o _ (hne before rest), ih, List.map_cons]

theorem Occurrence.map_fst_marked (os : List Occurrence) : (marked os).map (·.1) = os := by
  simp [marked, Function.comp_def]

/-- **The scanner finds the outline that the script as a whole declares.** It finds at each
occurrence what that declares, the segments make up the script, and the outline is that of the
segments one after the other. -/
theorem scan_finds_declared_outline (lines : List Text) :
    (∀ o s, Occurrence.declared? o = some s ↔ o.Declares s) ∧
      (Segment.cut none (Occurrence.marked (Occurrence.ofLines lines))).flatMap
        (fun g => g.inner ++ g.closing.toList) = Occurrence.ofLines lines ∧
      Outline.ofLines lines = Outline.bySegments lines := by
  refine ⟨Occurrence.declared?_eq_some_iff, ?_, Outline.ofLines_eq_bySegments lines⟩
  rw [Segment.flatMap_cut, Occurrence.map_fst_marked]

/-- The last token closes the procedure before it assigns. -/
example :
    (Outline.bySegments ["proc a()".toList, "\x7b $x=1".toList, "$y=\x7d".toList]).map
      (fun s => (s.name, s.children.map Symbol.name)) =
      [("a".toList, ["x".toList]), ("y".toList, [])] := by
  decide +kernel

end MelScript
