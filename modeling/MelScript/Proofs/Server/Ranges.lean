import MelScript.Proofs.Document.Offsets
import MelScript.Proofs.Outline.Names
import MelScript.Proofs.Server.OutlineCache

/-! # The ranges of an answered outline

  The outline of a document is taken from its pieces, which end at line feeds
  only. The positions in it go to an editor, for which a carriage return ends a
  row as well. So a name stands where its range says as long as no lone carriage
  return comes before it; after one, the range lies on an earlier row, and all of
  it before the name.

  `feedOffset` is where a position lies in the count of line feeds, `offset`
  where it lies for an editor. The main result compares the two for all symbols
  of an answer.
-/

namespace MelScript

namespace Text

/-- The offset of a position when only line feeds end a line. -/
def feedOffset (t : Text) (p : Position) : Nat :=
  piecesLength (t.pieces.take p.line) + ((t.pieces[p.line]?).getD []).reach p.column

/-- The stretch between two offsets. -/
def between (t : Text) (i j : Nat) : Text := (t.take j).drop i

/-- The stretch that a span stands for in a document. -/
def cutOut (t : Text) (s : Span) : Text := t.between (t.offset s.start) (t.offset s.stop)

theorem reach_width (u v : Text) : (u ++ v).reach u.width = u.length := by
  induction u with
  | nil =>
    cases v with
    | nil => rfl
    | cons c v =>
      have hpos := units_pos c
      show reach 0 (c :: v) = 0
      rw [reach, if_neg (by omega)]
  | cons c u ih =>
    rw [List.cons_append, width_cons, reach, if_pos (Nat.le_add_right _ _),
      Nat.add_sub_cancel_left, ih, List.length_cons]

theorem between_append (u v w : Text) :
    (u ++ v ++ w).between u.length (u ++ v).length = v := by
  unfold between
  rw [List.take_left, List.drop_left]

/-- The offset of a place in a piece. -/
theorem feedOffset_piece {t piece pre u v : Text} {n : Nat} (h : t.pieces[n]? = some piece)
    (hpre : pre.length = piecesLength (t.pieces.take n)) (hpiece : piece = u ++ v) :
    t.feedOffset ⟨n, u.width⟩ = (pre ++ u).length := by
  unfold feedOffset
  rw [h, Option.getD_some, ← hpre, hpiece, reach_width, List.length_append]

end Text

/-! ### Symbols -/

/-- The places around the name of a symbol: what stands before its line, before it on its line, and
after it. -/
structure Symbol.Placed (x : Symbol) (t pre u rest : Text) : Prop where
  text : t = pre ++ u ++ x.spelling ++ rest
  opened : pre = [] ∨ pre.getLast? = some '\n'
  feeds : '\n' ∉ u
  unbroken : ∀ c ∈ x.spelling, isBlank c = false
  declaration : x.declaration = .onLine (pre.count '\n') u.width (u.width + x.spelling.width)
  first : t.feedOffset x.declaration.start = (pre ++ u).length
  last : t.feedOffset x.declaration.stop = (pre ++ u ++ x.spelling).length

theorem Symbol.StandsIn.exists_placed {x : Symbol} {t : Text} (h : x.StandsIn t.pieces) :
    ∃ pre u rest, x.Placed t pre u rest := by
  obtain ⟨n, line, u, v, hline, hcut, hdeclaration, hblank⟩ := h
  obtain ⟨pre, post, htext, hlength, hcount, hopened, hfeeds⟩ :=
    Text.exists_of_getElem?_pieces hline
  refine ⟨pre, u, v ++ post, ?_, hopened, ?_, hblank, ?_, ?_, ?_⟩
  · rw [htext, hcut]
    simp
  · intro hmem
    apply hfeeds
    rw [hcut, List.append_assoc]
    exact List.mem_append_left _ hmem
  · rw [hcount]
    exact hdeclaration
  · rw [hdeclaration]
    exact Text.feedOffset_piece hline hlength (by rw [hcut, List.append_assoc])
  · rw [hdeclaration, List.append_assoc]
    show t.feedOffset ⟨n, u.width + x.spelling.width⟩ = _
    rw [← Text.width_append]
    exact Text.feedOffset_piece hline hlength hcut

namespace Symbol.Placed

variable {x : Symbol} {t pre u rest : Text}

theorem take_first (h : x.Placed t pre u rest) :
    t.take (t.feedOffset x.declaration.start) = pre ++ u := by
  rw [h.first, h.text, List.append_assoc (pre ++ u), List.take_left]

theorem between_eq (h : x.Placed t pre u rest) :
    t.between (t.feedOffset x.declaration.start) (t.feedOffset x.declaration.stop) =
      x.spelling := by
  rw [h.first, h.last, h.text]
  exact Text.between_append (pre ++ u) x.spelling rest

theorem not_mem_of_isBlank (h : x.Placed t pre u rest) {c : Char} (hc : isBlank c = true) :
    c ∉ x.spelling := by
  intro hmem
  rw [h.unbroken c hmem] at hc
  cases hc

theorem offset_start (h : x.Placed t pre u rest) (hlone : (pre ++ u).loneReturns = 0) :
    t.offset x.declaration.start = (pre ++ u).length := by
  rw [h.declaration, h.text, List.append_assoc (pre ++ u)]
  exact Text.offset_of_loneReturns_eq_zero _ h.opened h.feeds hlone

/-- The name itself has no break in it, so it does not matter where lone carriage returns are
counted. -/
theorem offset_stop (h : x.Placed t pre u rest) (hlone : (pre ++ u).loneReturns = 0) :
    t.offset x.declaration.stop = (pre ++ u ++ x.spelling).length := by
  have hspelling : x.spelling.loneReturns = 0 :=
    Text.loneReturns_eq_zero_of_not_mem (h.not_mem_of_isBlank (by decide))
  have hlone' : (pre ++ (u ++ x.spelling)).loneReturns = 0 := by
    have hle := Text.loneReturns_append_le (pre ++ u) x.spelling
    rw [List.append_assoc] at hle
    omega
  have hfeeds : '\n' ∉ u ++ x.spelling := by
    intro hmem
    rcases List.mem_append.1 hmem with hmem | hmem
    · exact h.feeds hmem
    · exact h.not_mem_of_isBlank (by decide) hmem
  rw [h.declaration, h.text, List.append_assoc pre]
  show Text.offset _ ⟨_, u.width + x.spelling.width⟩ = _
  rw [← Text.width_append]
  exact Text.offset_of_loneReturns_eq_zero rest h.opened hfeeds hlone'

/-- After a lone carriage return the number of a line is too low for the rows of an editor. -/
theorem offset_lt (h : x.Placed t pre u rest) (hlone : (pre ++ u).loneReturns ≠ 0)
    {p : Position} (hp : p.line = pre.count '\n') : t.offset p < (pre ++ u).length := by
  have hline : p.line < (pre ++ u).breaks := by
    unfold Text.breaks
    rw [hp, List.count_append]
    omega
  rw [h.text, List.append_assoc (pre ++ u)]
  exact Text.offset_lt_of_line_lt _ hline

end Symbol.Placed

/-! ### Answers -/

/-- The answer to a request for the outline of a document that keeps no wrong outline. -/
theorem Service.outline_answer {s : Service} {uri : FileUri} {d : Document}
    {symbols : List Symbol} (hd : s.server.document? uri = some d) (hfresh : d.OutlineFresh)
    (hanswer : (s.handle (.outline uri)).2.answer = .outline (some symbols)) :
    symbols = Document.computeOutline d.text := by
  have hsymbols : (s.server.finishOutline uri (s.server.startOutline uri)).2 = some symbols := by
    injection hanswer
  unfold Server.startOutline at hsymbols
  rw [hd] at hsymbols
  cases houtline : d.outline with
  | some kept =>
    -- A kept outline is answered as it is.
    simp only [houtline, Server.finishOutline] at hsymbols
    cases hsymbols
    exact hfresh symbols houtline
  | none =>
    cases hlimiter : s.server.limiter with
    | broken =>
      simp only [houtline, hlimiter, Server.finishOutline] at hsymbols
      cases hsymbols
    | permits n =>
      simp only [houtline, hlimiter, Server.finishOutline] at hsymbols
      cases hsymbols
      rfl

/-- **The range of a symbol addresses its name exactly when no lone carriage return comes before
it.** The declaration of a symbol is sent as its selection range. In the count of line feeds the name
stands where it says. Without lone carriage returns before the name an editor finds it at this place;
with one, all that the range stands for lies before the name. -/
theorem Service.ranges_address_names_iff {s : Service} {uri : FileUri} {d : Document}
    {symbols : List Symbol} {depth : Nat} {x : Symbol}
    (hd : s.server.document? uri = some d) (hfresh : d.OutlineFresh)
    (hanswer : (s.handle (.outline uri)).2.answer = .outline (some symbols))
    (hx : (depth, x) ∈ Symbol.walkAll 0 symbols) :
    let i := d.text.feedOffset x.declaration.start
    let j := d.text.feedOffset x.declaration.stop
    d.text.between i j = x.spelling ∧
      (d.text.offset x.declaration.start = i ∧ d.text.offset x.declaration.stop = j ↔
        Text.loneReturns (d.text.take i) = 0) ∧
      (Text.loneReturns (d.text.take i) = 0 → d.text.cutOut x.declaration = x.spelling) ∧
      (Text.loneReturns (d.text.take i) ≠ 0 → d.text.offset x.declaration.stop < i) := by
  intro i j
  rw [Service.outline_answer hd hfresh hanswer] at hx
  obtain ⟨pre, u, rest, hplaced⟩ := (Outline.standsIn_of_mem_walkAll hx).exists_placed
  have htake : d.text.take i = pre ++ u := hplaced.take_first
  have hi : i = (pre ++ u).length := hplaced.first
  have hj : j = (pre ++ u ++ x.spelling).length := hplaced.last
  have hbetween : d.text.between i j = x.spelling := hplaced.between_eq
  have hresolved : (pre ++ u).loneReturns = 0 →
      d.text.offset x.declaration.start = i ∧ d.text.offset x.declaration.stop = j := by
    intro hlone
    rw [hi, hj]
    exact ⟨hplaced.offset_start hlone, hplaced.offset_stop hlone⟩
  have hearlier : (pre ++ u).loneReturns ≠ 0 → ∀ p : Position, p.line = pre.count '\n' →
      d.text.offset p < i := by
    intro hlone p hp
    rw [hi]
    exact hplaced.offset_lt hlone hp
  rw [htake]
  refine ⟨hbetween, ⟨?_, hresolved⟩, ?_, ?_⟩
  · -- After a lone carriage return the range would start too early.
    rintro ⟨hstart, _⟩
    by_contra hlone
    have hlt := hearlier hlone x.declaration.start (by rw [hplaced.declaration]; rfl)
    omega
  · intro hlone
    obtain ⟨hstart, hstop⟩ := hresolved hlone
    unfold Text.cutOut
    rw [hstart, hstop, hbetween]
  · intro hlone
    exact hearlier hlone x.declaration.stop (by rw [hplaced.declaration]; rfl)

/-- The service after a document was opened in it. -/
def Service.opened (uri : FileUri) (text : Text) : Service :=
  after {} [.receive 0 .handshake, .receive 0 (.didOpen uri text 1)]

/-- Two variables with a lone carriage return between them: the first one is found by its range, the
second one is not. -/
theorem Service.ranges_around_lone_return :
    let t : Text := "$ä = 1\r$b = 2".toList
    ∃ p ∈ Symbol.walkAll 0 (Document.computeOutline t),
    ∃ q ∈ Symbol.walkAll 0 (Document.computeOutline t),
      p.2.spelling = "$ä".toList ∧ t.cutOut p.2.declaration = p.2.spelling ∧
      q.2.spelling = "$b".toList ∧
      t.offset q.2.declaration.stop < t.feedOffset q.2.declaration.start := by
  intro t
  let uri : FileUri := ⟨"/w/a.mel".toList, none, none⟩
  let s := opened uri t
  have hd : s.server.document? uri = some (.fresh t 1 s.server.table) := rfl
  have hfresh : (Document.fresh t 1 s.server.table).OutlineFresh :=
    Document.outlineFresh_of_eq_none rfl
  have hanswer : (s.handle (.outline uri)).2.answer =
      .outline (some (Document.computeOutline t)) := rfl
  have hfirst : ("$ä".toList, Span.onLine 0 0 2) ∈
      (Symbol.walkAll 0 (Document.computeOutline t)).map
        fun p => (p.2.spelling, p.2.declaration) := by decide +kernel
  have hsecond : ("$b".toList, Span.onLine 0 7 9) ∈
      (Symbol.walkAll 0 (Document.computeOutline t)).map
        fun p => (p.2.spelling, p.2.declaration) := by decide +kernel
  obtain ⟨⟨_, x⟩, hx, hxeq⟩ := List.mem_map.1 hfirst
  obtain ⟨⟨_, y⟩, hy, hyeq⟩ := List.mem_map.1 hsecond
  obtain ⟨hxname, hxspan⟩ := Prod.mk.inj hxeq
  obtain ⟨hyname, hyspan⟩ := Prod.mk.inj hyeq
  obtain ⟨_, _, hfound, _⟩ := ranges_address_names_iff hd hfresh hanswer hx
  obtain ⟨_, _, _, hmissed⟩ := ranges_address_names_iff hd hfresh hanswer hy
  refine ⟨_, hx, _, hy, hxname, hfound ?_, hyname, hmissed ?_⟩
  · rw [hxspan]
    decide +kernel
  · rw [hyspan]
    decide +kernel

/-- The range of a variable on the second row, when a carriage return ends the first one. -/
theorem Service.range_misses_name_after_lone_return :
    ¬ ∀ symbols depth x,
      ((opened ⟨"/w/a.mel".toList, none, none⟩ "\r$x = 1".toList).handle
        (.outline ⟨"/w/a.mel".toList, none, none⟩)).2.answer = .outline (some symbols) →
      (depth, x) ∈ Symbol.walkAll 0 symbols →
      Text.cutOut "\r$x = 1".toList x.declaration = x.spelling := by
  intro hall
  have hvariable : ("$x".toList, Span.onLine 0 1 3) ∈
      (Symbol.walkAll 0 (Document.computeOutline "\r$x = 1".toList)).map
        fun p => (p.2.spelling, p.2.declaration) := by decide +kernel
  obtain ⟨⟨_, x⟩, hx, hxeq⟩ := List.mem_map.1 hvariable
  obtain ⟨hname, hspan⟩ := Prod.mk.inj hxeq
  have hcut := hall _ _ x rfl hx
  rw [hname, hspan] at hcut
  revert hcut
  decide +kernel

end MelScript
