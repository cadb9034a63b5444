import Mathlib.Data.List.Forall2
import MelScript.Proofs.Json.Lexemes

/-! # Values that are read as they were laid out

  `Reads read v a` says that a reader gives `a` wherever the value `v` is laid out
  over several lines. The items of an array are read if each of them is
  (`sequence_prettyItems`). For the members of an object (`record_prettyMembers`)
  the relation `Takes` follows what the reader of members knows after each of
  them.

  Readers go round by round and are given enough rounds for all characters of the
  text. As every item and every member has a character, there are enough rounds
  for all items and members.
-/

namespace MelScript.Json

/-! ### White space -/

/-- Texts of nothing but white space. -/
def Spaces (t : Text) : Prop := ∀ c ∈ t, isSpace c = true

theorem spaces_nil : Spaces [] := by
  intro c hc
  cases hc

theorem spaces_newline (depth : Nat) : Spaces (newline depth) := by
  intro c hc
  rcases List.mem_cons.1 hc with rfl | hc
  · rfl
  · rw [List.eq_of_mem_replicate hc]
    rfl

theorem skipSpace_append {space : Text} (h : Spaces space) (t : Text) :
    skipSpace (space ++ t) = skipSpace t :=
  List.dropWhile_append_of_pos h

theorem skipSpace_cons {c : Char} (h : isSpace c = false) (t : Text) :
    skipSpace (c :: t) = c :: t :=
  List.dropWhile_cons_of_neg (by simp [h])

theorem endsNumber_newline (depth : Nat) (t : Text) : EndsNumber (newline depth ++ t) :=
  endsNumber_cons (by decide) _

theorem endsNumber_comma (t : Text) : EndsNumber (',' :: t) := endsNumber_cons (by decide) t

/-- A reader gives `a` for a value wherever it is laid out: behind any white space, inside of any
number of arrays and objects, and before any text that does not go on with a number. -/
def Reads {α : Type} (read : Text → Reading (α × Text)) (v : Value) (a : α) : Prop :=
  ∀ space depth rest, Spaces space → EndsNumber rest →
    read (space ++ (v.prettyAt depth ++ rest)) = .ok (a, rest)

/-- A string, from its opening mark. -/
theorem skipSpace_quote {space : Text} (hspace : Spaces space) (t rest : Text) :
    skipSpace (space ++ (quote t ++ rest)) = '"' :: (t.flatMap escape ++ '"' :: rest) := by
  have htext : quote t ++ rest = '"' :: (t.flatMap escape ++ '"' :: rest) := by simp [quote]
  rw [skipSpace_append hspace, htext, skipSpace_cons (by decide)]

/-! ### Arrays -/

/-- An object is laid out from its opening brace on. -/
theorem exists_prettyAt_object (members : List (Text × Value)) (depth : Nat) :
    ∃ t, (Value.object members).prettyAt depth = '\x7b' :: t := by
  cases members with
  | nil => exact ⟨_, rfl⟩
  | cons m ms => exact ⟨_, rfl⟩

theorem exists_prettyItems_object {vs : List Value} (hne : vs ≠ [])
    (hobjects : ∀ v ∈ vs, ∃ members, v = .object members) (depth : Nat) :
    ∃ t, prettyItems depth vs = '\x7b' :: t := by
  cases vs with
  | nil => exact absurd rfl hne
  | cons v vs =>
    obtain ⟨members, rfl⟩ := hobjects v List.mem_cons_self
    obtain ⟨t, ht⟩ := exists_prettyAt_object members depth
    cases vs with
    | nil => exact ⟨t, ht⟩
    | cons w vs => exact ⟨t ++ ',' :: (newline depth ++ prettyItems depth (w :: vs)), by
        rw [prettyItems, ht]
        rfl⟩

theorem length_le_length_prettyItems (depth : Nat) (vs : List Value)
    (hobjects : ∀ v ∈ vs, ∃ members, v = .object members) :
    vs.length ≤ (prettyItems depth vs).length := by
  induction vs with
  | nil => exact Nat.zero_le _
  | cons v vs ih =>
    obtain ⟨members, rfl⟩ := hobjects v List.mem_cons_self
    obtain ⟨t, ht⟩ := exists_prettyAt_object members depth
    have hrest := ih fun w hw => hobjects w (List.mem_cons_of_mem _ hw)
    cases vs with
    | nil =>
      rw [prettyItems, ht]
      simp
    | cons w vs =>
      rw [prettyItems, ht]
      simp only [List.length_cons, List.length_append] at hrest ⊢
      omega

variable {α : Type} {read : Text → Reading (α × Text)}

/-- The items of an array, with as many rounds as there are items. The induction is on the items; a
comma or the closing bracket follows each of them. -/
theorem sequenceFrom_prettyItems {vs : List Value} {as : List α}
    (h : List.Forall₂ (Reads read) vs as) (hne : vs ≠ []) {rounds : Nat}
    (hrounds : vs.length ≤ rounds) (space : Text) (hspace : Spaces space) (depth outer : Nat)
    (rest : Text) :
    sequenceFrom read rounds
        (space ++ (prettyItems depth vs ++ (newline outer ++ ']' :: rest))) = .ok (as, rest) := by
  induction h generalizing rounds space with
  | nil => exact absurd rfl hne
  | @cons v a vs as hv hvs ih =>
    obtain ⟨rounds, rfl⟩ : ∃ k, rounds = k + 1 := ⟨rounds - 1, by
      simp only [List.length_cons] at hrounds
      omega⟩
    have hrounds' : vs.length ≤ rounds := by simpa using hrounds
    rw [sequenceFrom]
    cases vs with
    | nil =>
      cases hvs
      have hfirst := hv space depth _ hspace (endsNumber_newline outer (']' :: rest))
      rw [prettyItems, hfirst]
      have hend : skipSpace (newline outer ++ ']' :: rest) = ']' :: rest := by
        rw [skipSpace_append (spaces_newline outer), skipSpace_cons (by decide)]
      simp [bind, Except.bind, pure, Except.pure, hend]
    | cons w vs =>
      have hothers := ih (List.cons_ne_nil w vs) hrounds' _ (spaces_newline depth)
      have hfirst := hv space depth
        (',' :: (newline depth ++ (prettyItems depth (w :: vs) ++ (newline outer ++ ']' :: rest))))
        hspace (endsNumber_comma _)
      have htext : prettyItems depth (v :: w :: vs) ++ (newline outer ++ ']' :: rest) =
          v.prettyAt depth ++ ',' :: (newline depth ++
            (prettyItems depth (w :: vs) ++ (newline outer ++ ']' :: rest))) := by
        rw [prettyItems]
        simp
      rw [htext, hfirst]
      simp only [bind, Except.bind, pure, Except.pure]
      rw [skipSpace_cons (by decide)]
      simp only [hothers]

/-- The layout of an array that is not empty, from its opening bracket. -/
theorem skipSpace_array {space : Text} (hspace : Spaces space) (v : Value) (vs : List Value)
    (depth : Nat) (rest : Text) :
    skipSpace (space ++ ((Value.array (v :: vs)).prettyAt depth ++ rest)) =
      '[' :: (newline (depth + 1) ++
        (prettyItems (depth + 1) (v :: vs) ++ (newline depth ++ ']' :: rest))) := by
  have htext : (Value.array (v :: vs)).prettyAt depth ++ rest =
      '[' :: (newline (depth + 1) ++
        (prettyItems (depth + 1) (v :: vs) ++ (newline depth ++ ']' :: rest))) := by
    show between '[' ']' depth (prettyItems (depth + 1) (v :: vs)) ++ rest = _
    simp [between]
  rw [skipSpace_append hspace, htext, skipSpace_cons (by decide)]

/-- The items of an array of objects are read one by one. -/
theorem sequence_prettyItems {v : Value} {vs : List Value} {as : List α}
    (h : List.Forall₂ (Reads read) (v :: vs) as)
    (hobjects : ∀ w ∈ v :: vs, ∃ members, w = .object members) (depth : Nat) (rest : Text) :
    sequence read (newline (depth + 1) ++
        (prettyItems (depth + 1) (v :: vs) ++ (newline depth ++ ']' :: rest))) =
      .ok (as, rest) := by
  have hne : v :: vs ≠ [] := List.cons_ne_nil v vs
  obtain ⟨t, ht⟩ := exists_prettyItems_object hne hobjects (depth + 1)
  -- The first item starts with a brace, so that the array does not end there.
  have hfirst : skipSpace (newline (depth + 1) ++
      (prettyItems (depth + 1) (v :: vs) ++ (newline depth ++ ']' :: rest))) =
      prettyItems (depth + 1) (v :: vs) ++ (newline depth ++ ']' :: rest) := by
    rw [skipSpace_append (spaces_newline _), ht, List.cons_append, skipSpace_cons (by decide)]
  unfold sequence
  rw [hfirst]
  split
  · next t' heq =>
    rw [ht] at heq
    have hbrace := (List.cons.inj heq).1
    cases hbrace
  · have hlength := length_le_length_prettyItems (depth + 1) (v :: vs) hobjects
    refine sequenceFrom_prettyItems h hne ?_ [] spaces_nil _ _ rest
    rw [List.length_append]
    omega

/-! ### Objects -/

variable {σ : Type} {member : σ → Text → Text → Reading (σ × Text)}

/-- The reader of members goes from one state to another through members of an object. -/
inductive Takes (member : σ → Text → Text → Reading (σ × Text)) :
    σ → List (Text × Value) → σ → Prop where
  | nil {s : σ} : Takes member s [] s
  | cons {s s'' : σ} {name : Text} {v : Value} {ms : List (Text × Value)} (s' : σ)
      (first : ∀ depth rest, EndsNumber rest →
        member s name (':' :: ' ' :: (v.prettyAt depth ++ rest)) = .ok (s', rest))
      (others : Takes member s' ms s'') : Takes member s ((name, v) :: ms) s''

theorem readName_quote {space : Text} (hspace : Spaces space) (name rest : Text) :
    readName (space ++ (quote name ++ rest)) = .ok (name, rest) := by
  unfold readName
  rw [skipSpace_quote hspace]
  exact readString_quoted name rest

theorem length_le_length_prettyMembers (depth : Nat) (ms : List (Text × Value)) :
    ms.length ≤ (prettyMembers depth ms).length := by
  induction ms with
  | nil => exact Nat.zero_le _
  | cons m ms ih =>
    obtain ⟨name, v⟩ := m
    cases ms with
    | nil => simp [prettyMembers, quote]
    | cons m' ms =>
      rw [prettyMembers]
      simp only [List.length_cons, List.length_append] at ih ⊢
      omega

/-- The members of an object, with as many rounds as there are members. -/
theorem recordFrom_prettyMembers {s s' : σ} {ms : List (Text × Value)} (h : Takes member s ms s')
    (hne : ms ≠ []) {rounds : Nat} (hrounds : ms.length ≤ rounds) (space : Text)
    (hspace : Spaces space) (depth outer : Nat) (rest : Text) :
    recordFrom member rounds s
        (space ++ (prettyMembers depth ms ++ (newline outer ++ '\x7d' :: rest))) =
      .ok (s', rest) := by
  induction h generalizing rounds space with
  | nil => exact absurd rfl hne
  | @cons s s'' name v ms s' first others ih =>
    obtain ⟨rounds, rfl⟩ : ∃ k, rounds = k + 1 := ⟨rounds - 1, by
      simp only [List.length_cons] at hrounds
      omega⟩
    have hrounds' : ms.length ≤ rounds := by simpa using hrounds
    rw [recordFrom]
    cases ms with
    | nil =>
      cases others
      have htext : prettyMembers depth [(name, v)] ++ (newline outer ++ '\x7d' :: rest) =
          quote name ++
            ':' :: ' ' :: (v.prettyAt depth ++ (newline outer ++ '\x7d' :: rest)) := by
        rw [prettyMembers]
        simp
      have hend : skipSpace (newline outer ++ '\x7d' :: rest) = '\x7d' :: rest := by
        rw [skipSpace_append (spaces_newline outer), skipSpace_cons (by decide)]
      rw [htext, readName_quote hspace]
      simp only [bind, Except.bind, pure, Except.pure]
      rw [first depth _ (endsNumber_newline outer _)]
      simp only [hend]
    | cons m ms =>
      have hothers := ih (List.cons_ne_nil m ms) hrounds' _ (spaces_newline depth)
      have htext : prettyMembers depth ((name, v) :: m :: ms) ++ (newline outer ++ '\x7d' :: rest) =
          quote name ++ ':' :: ' ' :: (v.prettyAt depth ++ ',' :: (newline depth ++
            (prettyMembers depth (m :: ms) ++ (newline outer ++ '\x7d' :: rest)))) := by
        rw [prettyMembers]
        simp
      rw [htext, readName_quote hspace]
      simp only [bind, Except.bind, pure, Except.pure]
      rw [first depth _ (endsNumber_comma _)]
      simp only [skipSpace_cons (by decide : isSpace ',' = false)]
      exact hothers

/-- The layout of an object that is not empty, from its opening brace. -/
theorem skipSpace_object {space : Text} (hspace : Spaces space) (m : Text × Value)
    (ms : List (Text × Value)) (depth : Nat) (rest : Text) :
    skipSpace (space ++ ((Value.object (m :: ms)).prettyAt depth ++ rest)) =
      '\x7b' :: (newline (depth + 1) ++
        (prettyMembers (depth + 1) (m :: ms) ++ (newline depth ++ '\x7d' :: rest))) := by
  have htext : (Value.object (m :: ms)).prettyAt depth ++ rest =
      '\x7b' :: (newline (depth + 1) ++
        (prettyMembers (depth + 1) (m :: ms) ++ (newline depth ++ '\x7d' :: rest))) := by
    show between '\x7b' '\x7d' depth (prettyMembers (depth + 1) (m :: ms)) ++ rest = _
    simp [between]
  rw [skipSpace_append hspace, htext, skipSpace_cons (by decide)]

/-- The members of an object are taken one by one. -/
theorem record_prettyMembers (s s' : σ) {m : Text × Value} {ms : List (Text × Value)}
    (h : Takes member s (m :: ms) s') (depth : Nat) (rest : Text) :
    record member s (newline (depth + 1) ++
        (prettyMembers (depth + 1) (m :: ms) ++ (newline depth ++ '\x7d' :: rest))) =
      .ok (s', rest) := by
  have hne : m :: ms ≠ [] := List.cons_ne_nil m ms
  obtain ⟨name, v⟩ := m
  obtain ⟨t, ht⟩ : ∃ t, prettyMembers (depth + 1) ((name, v) :: ms) = '"' :: t := by
    cases ms with
    | nil => exact ⟨_, rfl⟩
    | cons m' ms => exact ⟨_, rfl⟩
  have hfirst : skipSpace (newline (depth + 1) ++
      (prettyMembers (depth + 1) ((name, v) :: ms) ++ (newline depth ++ '\x7d' :: rest))) =
      prettyMembers (depth + 1) ((name, v) :: ms) ++ (newline depth ++ '\x7d' :: rest) := by
    rw [skipSpace_append (spaces_newline _), ht, List.cons_append, skipSpace_cons (by decide)]
  unfold record
  rw [hfirst]
  split
  · next t' heq =>
    rw [ht] at heq
    have hmark := (List.cons.inj heq).1
    cases hmark
  · have hlength := length_le_length_prettyMembers (depth + 1) ((name, v) :: ms)
    refine recordFrom_prettyMembers h hne ?_ [] spaces_nil _ _ rest
    rw [List.length_append]
    omega

end MelScript.Json
