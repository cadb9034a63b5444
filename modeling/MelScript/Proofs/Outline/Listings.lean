import MelScript.Outline.Listing
import MelScript.Proofs.Json.Lexemes
import MelScript.Proofs.Outline.Geometry
import MelScript.Proofs.Outline.Spelling

/-! # Listings tell outlines apart

  A listing is a single text, and nothing in it says how long its parts are. It
  can be taken apart from the front all the same:

  - What does not contain a mark can be read up to the mark
    (`Text.append_cons_inj`). A number ends at anything but a digit, and a name
    ends at a space, because names have no white space in them.
  - A line then tells everything of its symbol but the children
    (`listingLine_append_inj`). This takes that the symbol is `Legible`: shown
    numbers begin again at zero after the last one of 32 bits, and of a variable
    only one of the two spans is shown.
  - The depths of the lines tell which symbols are children (`rows_append_inj`).

  The symbols of an outline are legible, so its listing determines the outline.
-/

namespace MelScript

/-! ### Marks and numbers -/

namespace Text

variable {u v r s : Text} {c : Char}

/-- Two parts that do not contain a mark are read up to it alike. -/
theorem append_cons_inj (hu : c ∉ u) (hv : c ∉ v) (h : u ++ c :: r = v ++ c :: s) :
    u = v ∧ r = s := by
  induction u generalizing v with
  | nil =>
    cases v with
    | nil => exact ⟨rfl, (List.cons.inj h).2⟩
    | cons d v =>
      have hd : c = d := (List.cons.inj h).1
      exact absurd (hd ▸ List.mem_cons_self) hv
  | cons d u ih =>
    cases v with
    | nil =>
      have hd : d = c := (List.cons.inj h).1
      exact absurd (hd ▸ List.mem_cons_self) hu
    | cons e v =>
      obtain ⟨hhead, hrest⟩ := List.cons.inj h
      obtain ⟨htail, hr⟩ := ih (fun hc => hu (List.mem_cons_of_mem d hc))
        (fun hc => hv (List.mem_cons_of_mem e hc)) hrest
      exact ⟨by rw [hhead, htail], hr⟩

/-- A number is read up to a mark that is no digit. -/
theorem ofNat_append_cons_inj {m n : Nat} (hc : Json.isDigit c = false)
    (h : ofNat m ++ c :: r = ofNat n ++ c :: s) : m = n ∧ r = s := by
  have hmark : ∀ k, c ∉ ofNat k := by
    intro k hmem
    rw [Json.isDigit_of_mem_ofNat hmem] at hc
    cases hc
  obtain ⟨hdigits, hrest⟩ := append_cons_inj (hmark m) (hmark n) h
  have hvalue := congrArg Json.ofDigits hdigits
  rw [Json.ofDigits_ofNat, Json.ofDigits_ofNat] at hvalue
  exact ⟨hvalue, hrest⟩

/-- Spaces in front of something else are counted alike. -/
theorem replicate_space_append_inj {m n : Nat} (hr : r.head? ≠ some ' ') (hs : s.head? ≠ some ' ')
    (h : List.replicate m ' ' ++ r = List.replicate n ' ' ++ s) : m = n ∧ r = s := by
  induction m generalizing n with
  | zero =>
    cases n with
    | zero => exact ⟨rfl, h⟩
    | succ n =>
      have hspaces : r = ' ' :: (List.replicate n ' ' ++ s) := h
      exact absurd (by rw [hspaces]; rfl) hr
  | succ m ih =>
    cases n with
    | zero =>
      have hspaces : s = ' ' :: (List.replicate m ' ' ++ r) := h.symm
      exact absurd (by rw [hspaces]; rfl) hs
    | succ n =>
      obtain ⟨hmn, hrs⟩ := ih (List.cons.inj h).2
      exact ⟨by rw [hmn], hrs⟩

end Text

/-- Below the last number of 32 bits, numbers that are shown alike are the same. -/
theorem eq_of_shown_eq {m n : Nat} (hm : m < 0xffffffff) (hn : n < 0xffffffff)
    (h : shown m = shown n) : m = n := by
  unfold shown at h
  omega

section

variable {c : Char} {r s : Text}

theorem Position.label_append_cons_inj {p q : Position} (hp : p.Below 0xffffffff)
    (hq : q.Below 0xffffffff) (hc : Json.isDigit c = false)
    (h : p.label ++ c :: r = q.label ++ c :: s) : p = q ∧ r = s := by
  unfold label at h
  rw [List.append_assoc, List.append_assoc, List.cons_append, List.cons_append] at h
  obtain ⟨hline, h⟩ := Text.ofNat_append_cons_inj (by decide) h
  obtain ⟨hcolumn, h⟩ := Text.ofNat_append_cons_inj hc h
  have hline := eq_of_shown_eq hp.1 hq.1 hline
  have hcolumn := eq_of_shown_eq hp.2 hq.2 hcolumn
  refine ⟨?_, h⟩
  cases p
  cases q
  exact congrArg₂ Position.mk hline hcolumn

theorem Span.label_append_cons_inj {a b : Span} (ha : a.Below 0xffffffff)
    (hb : b.Below 0xffffffff) (hc : Json.isDigit c = false)
    (h : a.label ++ c :: r = b.label ++ c :: s) : a = b ∧ r = s := by
  unfold label at h
  rw [List.append_assoc, List.append_assoc, List.cons_append, List.cons_append] at h
  obtain ⟨hstart, h⟩ := Position.label_append_cons_inj ha.1 hb.1 (by decide) h
  obtain ⟨hstop, h⟩ := Position.label_append_cons_inj ha.2 hb.2 hc h
  refine ⟨?_, h⟩
  cases a
  cases b
  exact congrArg₂ Span.mk hstart hstop

end

/-! ### One line -/

/-- The line of a symbol can be read: its name has no white space in it, its positions are shown as
different numbers, and a variable has one span only. -/
structure Symbol.Legible (x : Symbol) : Prop where
  name : ∀ c ∈ x.name, isBlank c = false
  below : x.Below 0xffffffff
  of_var : x.kind = .var → x.body = x.declaration

/-- The symbol without its children. -/
def Symbol.bare (x : Symbol) : Symbol := { x with children := [] }

theorem Symbol.bare_eq {x y : Symbol} (hname : x.name = y.name) (hkind : x.kind = y.kind)
    (hdeclaration : x.declaration = y.declaration) (hbody : x.body = y.body) :
    x.bare = y.bare := by
  unfold bare
  rw [hname, hkind, hdeclaration, hbody]

theorem Symbol.eq_of_bare {x y : Symbol} (hbare : x.bare = y.bare)
    (hchildren : x.children = y.children) : x = y := by
  cases x
  cases y
  simp only [bare, mk.injEq] at hbare hchildren ⊢
  exact ⟨hbare.1, hbare.2.1, hbare.2.2.1, hbare.2.2.2.1, hchildren⟩

namespace Outline

variable {x y : Symbol} {r s : Text} {depth depth' : Nat}

/-- What a line says behind its indentation. -/
def entry (x : Symbol) : Text :=
  match x.kind with
  | .procedure =>
    'p' :: "roc ".toList ++ x.name ++ ' ' :: x.declaration.label ++ ' ' :: "(body ".toList ++
      x.body.label ++ ')' :: ['\n']
  | .var => '$' :: x.name ++ ' ' :: x.declaration.label ++ ['\n']

theorem listingLine_eq (depth : Nat) (x : Symbol) :
    listingLine depth x = List.replicate (2 * depth) ' ' ++ entry x := by
  unfold listingLine entry
  cases x.kind <;> rfl

theorem head?_entry_append (x : Symbol) (r : Text) : (entry x ++ r).head? ≠ some ' ' := by
  unfold entry
  cases x.kind <;> simp

theorem entry_append_inj (hx : x.Legible) (hy : y.Legible) (h : entry x ++ r = entry y ++ s) :
    x.bare = y.bare ∧ r = s := by
  have hspace : ∀ z : Symbol, z.Legible → ' ' ∉ z.name := by
    intro z hz hmem
    have hblank := hz.name ' ' hmem
    exact absurd hblank (by decide)
  unfold entry at h
  cases hkind : x.kind with
  | procedure =>
    cases hkind' : y.kind with
    | procedure =>
      simp only [hkind, hkind', List.append_assoc, List.cons_append, List.cons.injEq, true_and,
        List.append_cancel_left_eq] at h
      obtain ⟨hname, h⟩ := Text.append_cons_inj (hspace x hx) (hspace y hy) h
      obtain ⟨hdeclaration, h⟩ :=
        Span.label_append_cons_inj hx.below.1 hy.below.1 (by decide) h
      rw [List.append_cancel_left_eq] at h
      obtain ⟨hbody, h⟩ := Span.label_append_cons_inj hx.below.2 hy.below.2 (by decide) h
      exact ⟨Symbol.bare_eq hname (by rw [hkind, hkind']) hdeclaration hbody, (List.cons.inj h).2⟩
    | var =>
      rw [hkind, hkind'] at h
      exact absurd (List.cons.inj h).1 (by decide)
  | var =>
    cases hkind' : y.kind with
    | procedure =>
      rw [hkind, hkind'] at h
      exact absurd (List.cons.inj h).1 (by decide)
    | var =>
      simp only [hkind, hkind', List.append_assoc, List.cons_append, List.cons.injEq,
        true_and] at h
      obtain ⟨hname, h⟩ := Text.append_cons_inj (hspace x hx) (hspace y hy) h
      obtain ⟨hdeclaration, h⟩ :=
        Span.label_append_cons_inj hx.below.1 hy.below.1 (by decide) h
      -- The body is not shown, but it is the declaration.
      have hbody : x.body = y.body := by
        rw [hx.of_var hkind, hy.of_var hkind', hdeclaration]
      exact ⟨Symbol.bare_eq hname (by rw [hkind, hkind']) hdeclaration hbody, h⟩

/-- A line tells its depth and all of its symbol but the children, whatever follows it. -/
theorem listingLine_append_inj (hx : x.Legible) (hy : y.Legible)
    (h : listingLine depth x ++ r = listingLine depth' y ++ s) :
    depth = depth' ∧ x.bare = y.bare ∧ r = s := by
  rw [listingLine_eq, listingLine_eq, List.append_assoc, List.append_assoc] at h
  obtain ⟨hdepth, h⟩ :=
    Text.replicate_space_append_inj (head?_entry_append x r) (head?_entry_append y s) h
  exact ⟨by omega, entry_append_inj hx hy h⟩

end Outline

/-! ### Trees from rows -/

namespace Symbol

/-- The symbols of a walk without their children, each with its depth. -/
def rows (depth : Nat) (ss : List Symbol) : List (Nat × Symbol) :=
  (walkAll depth ss).map fun e => (e.1, e.2.bare)

@[simp] theorem rows_nil (depth : Nat) : rows depth [] = [] := by
  simp [rows]

@[simp] theorem rows_cons (depth : Nat) (x : Symbol) (ss : List Symbol) :
    rows depth (x :: ss) =
      (depth, x.bare) :: (rows (depth + 1) x.children ++ rows depth ss) := by
  simp [rows]

/-- Rows that go on at a smaller depth, if they go on at all. -/
def Ascends (depth : Nat) (rest : List (Nat × Symbol)) : Prop := ∀ e ∈ rest.head?, e.1 < depth

/-- Behind the rows of children come those of the next symbol, which is less deep. -/
theorem Ascends.rows_append {depth : Nat} {rest : List (Nat × Symbol)} (h : Ascends depth rest)
    (ss : List Symbol) : Ascends (depth + 1) (rows depth ss ++ rest) := by
  intro e he
  cases ss with
  | nil =>
    rw [rows_nil, List.nil_append] at he
    exact Nat.lt_succ_of_lt (h e he)
  | cons x ss =>
    rw [rows_cons] at he
    cases he
    exact Nat.lt_succ_self depth

/-- The rows of symbols end where the depth gets smaller, and they tell the symbols. The induction is
on the number of rows: those of the children are fewer, and so are those of the symbols behind. -/
theorem rows_append_inj {depth : Nat} {ss ss' : List Symbol} {rest rest' : List (Nat × Symbol)}
    (hrest : Ascends depth rest) (hrest' : Ascends depth rest')
    (h : rows depth ss ++ rest = rows depth ss' ++ rest') : ss = ss' ∧ rest = rest' := by
  induction hn : (rows depth ss).length using Nat.strongRecOn
    generalizing depth ss ss' rest rest' with
  | ind n ih =>
    cases ss with
    | nil =>
      cases ss' with
      | nil => exact ⟨rfl, by simpa using h⟩
      | cons y ss' =>
        -- The rest would begin at the depth of the symbol.
        rw [rows_nil, List.nil_append, rows_cons] at h
        have hlt := hrest (depth, y.bare) (by rw [h]; rfl)
        exact absurd hlt (Nat.lt_irrefl depth)
    | cons x ss =>
      cases ss' with
      | nil =>
        rw [rows_nil, List.nil_append, rows_cons] at h
        have hlt := hrest' (depth, x.bare) (by rw [← h]; rfl)
        exact absurd hlt (Nat.lt_irrefl depth)
      | cons y ss' =>
        rw [rows_cons, rows_cons, List.cons_append, List.cons_append, List.append_assoc,
          List.append_assoc] at h
        rw [rows_cons, List.length_cons, List.length_append] at hn
        obtain ⟨hfirst, h⟩ := List.cons.inj h
        -- The children end where the rows come back to the depth of their parent.
        obtain ⟨hchildren, h⟩ := ih (rows (depth + 1) x.children).length (by omega)
          (hrest.rows_append ss) (hrest'.rows_append ss') h rfl
        obtain ⟨hss, h⟩ := ih (rows depth ss).length (by omega) hrest hrest' h rfl
        have hxy : x = y := eq_of_bare (Prod.mk.inj hfirst).2 hchildren
        exact ⟨by rw [hxy, hss], h⟩

/-- The rows of a forest tell the forest. -/
theorem rows_injective {depth : Nat} {ss ss' : List Symbol} (h : rows depth ss = rows depth ss') :
    ss = ss' := by
  have hend : Ascends depth [] := by
    intro e he
    cases he
  have hrows : rows depth ss ++ [] = rows depth ss' ++ [] := by rw [h]
  exact (rows_append_inj hend hend hrows).1

end Symbol

/-! ### Listings -/

namespace Outline

/-- A line is never empty, so that a listing has as many lines as it has symbols. -/
theorem listingLine_append_ne_nil (depth : Nat) (x : Symbol) (r : Text) :
    listingLine depth x ++ r ≠ [] := by
  intro hnil
  rw [listingLine_eq] at hnil
  unfold entry at hnil
  cases hkind : x.kind <;> simp [hkind] at hnil

/-- Lines that are the same text one behind the other are the same rows. -/
theorem rows_eq_of_lines_eq {es es' : List (Nat × Symbol)} (hes : ∀ e ∈ es, e.2.Legible)
    (hes' : ∀ e ∈ es', e.2.Legible)
    (h : (es.flatMap fun (depth, x) => listingLine depth x) =
      es'.flatMap fun (depth, x) => listingLine depth x) :
    es.map (fun e => (e.1, e.2.bare)) = es'.map fun e => (e.1, e.2.bare) := by
  induction es generalizing es' with
  | nil =>
    cases es' with
    | nil => rfl
    | cons e es' => exact absurd h.symm (listingLine_append_ne_nil e.1 e.2 _)
  | cons e es ih =>
    cases es' with
    | nil => exact absurd h (listingLine_append_ne_nil e.1 e.2 _)
    | cons e' es' =>
      -- The first lines are the same, and so are the texts behind them.
      rw [List.flatMap_cons, List.flatMap_cons] at h
      obtain ⟨hdepth, hbare, h⟩ := listingLine_append_inj (hes e List.mem_cons_self)
        (hes' e' List.mem_cons_self) h
      have hrest := ih (fun d hd => hes d (List.mem_cons_of_mem e hd))
        (fun d hd => hes' d (List.mem_cons_of_mem e' hd)) h
      rw [List.map_cons, List.map_cons, hdepth, hbare, hrest]

/-- Legible symbols are told by their listing. -/
theorem eq_of_listing_eq {symbols symbols' : List Symbol}
    (hlegible : ∀ e ∈ Symbol.walkAll 0 symbols, e.2.Legible)
    (hlegible' : ∀ e ∈ Symbol.walkAll 0 symbols', e.2.Legible)
    (h : listing symbols = listing symbols') : symbols = symbols' :=
  Symbol.rows_injective (rows_eq_of_lines_eq hlegible hlegible' h)

/-- The symbols of an outline are legible. -/
theorem legible_of_mem_walkAll {lines : List Text} (hcount : lines.length < 0xffffffff)
    (hwidth : ∀ line ∈ lines, line.width < 0xffffffff) {e : Nat × Symbol}
    (he : e ∈ Symbol.walkAll 0 (ofLines lines)) : e.2.Legible := by
  have hstands := standsIn_of_mem_walkAll he
  have hplaced := wellPlaced_of_mem_walkAll he
  refine ⟨?_, Symbol.below_of_placed hstands hplaced (Nat.le_of_lt hcount) hwidth, ?_⟩
  · intro c hc
    obtain ⟨_, _, _, _, _, _, _, hblank⟩ := hstands
    exact hblank c (Symbol.mem_spelling_of_mem_name hc)
  · intro hkind
    exact (hplaced.of_var hkind).1

/-- **A listing loses nothing of an outline.** Two scripts with less than `2^32 - 1` lines, each of
them narrower than `2^32 - 1`, that have the same listing have the same outline: names, kinds, both
spans and children of all symbols. -/
theorem listing_determines_outline {lines lines' : List Text}
    (hcount : lines.length < 0xffffffff) (hcount' : lines'.length < 0xffffffff)
    (hwidth : ∀ line ∈ lines, line.width < 0xffffffff)
    (hwidth' : ∀ line ∈ lines', line.width < 0xffffffff)
    (h : listing (ofLines lines) = listing (ofLines lines')) : ofLines lines = ofLines lines' :=
  eq_of_listing_eq (fun _ he => legible_of_mem_walkAll hcount hwidth he)
    (fun _ he => legible_of_mem_walkAll hcount' hwidth' he) h

/-- Two scripts that differ behind their declarations only, one of which goes on with an empty
line. -/
theorem listing_determines_nested_outline :
    let lines : List Text := ["proc string é() \x7b".toList, "\u3000$😀=1;".toList, "\x7d".toList]
    let lines' : List Text :=
      ["proc string é(int $a) \x7b".toList, "\u3000$😀=22;".toList, "\x7d".toList, []]
    lines ≠ lines' ∧ listing (ofLines lines) = listing (ofLines lines') ∧
      ofLines lines = ofLines lines' := by
  intro lines lines'
  have hlisting : listing (ofLines lines) = listing (ofLines lines') := by decide +kernel
  exact ⟨by decide, hlisting,
    listing_determines_outline (by decide) (by decide) (by decide) (by decide) hlisting⟩

end Outline

end MelScript
