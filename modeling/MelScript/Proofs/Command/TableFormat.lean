import Mathlib.Data.List.Forall2
import MelScript.Command.Format

/-! # The format of command tables

  What a table is written as, said apart from how it is read: `IsRecord` for one
  record and `Lists` for all of them. A name that matters stands at one member
  (`HasOnly`) or at none (`Lacks`); about all other members nothing is said.

  The reader accepts exactly this format (`ofJson?_eq_some_iff`). It has a rule of
  its own for blank texts, which are no JSON, so that the rule does not get in the
  way of any table.
-/

namespace MelScript.CommandTable

open Json

/-! ### The format -/

/-- Exactly one member has the name, and this one has the value. -/
def HasOnly (name : Text) (v : Value) (members : List (Text × Value)) : Prop :=
  ∃ before after, members = before ++ (name, v) :: after ∧ ∀ m ∈ before ++ after, m.1 ≠ name

/-- No member has the name. -/
def Lacks (name : Text) (members : List (Text × Value)) : Prop := ∀ m ∈ members, m.1 ≠ name

instance (name : Text) (members : List (Text × Value)) : Decidable (Lacks name members) :=
  inferInstanceAs (Decidable (∀ m ∈ members, m.1 ≠ name))

/-- A value is written for a record: as an object with or without a comment, or as an array with or
without one. -/
inductive IsRecord : Value → Command → Prop where
  | object {members : List (Text × Value)} {trigger : Text}
      (once : HasOnly "trigger".toList (.string trigger) members)
      (without : Lacks "comment".toList members) :
      IsRecord (.object members) ⟨trigger, []⟩
  | commentedObject {members : List (Text × Value)} {trigger comment : Text}
      (once : HasOnly "trigger".toList (.string trigger) members)
      (commented : HasOnly "comment".toList (.string comment) members) :
      IsRecord (.object members) ⟨trigger, comment⟩
  | array {trigger : Text} : IsRecord (.array [.string trigger]) ⟨trigger, []⟩
  | commentedArray {trigger comment : Text} :
      IsRecord (.array [.string trigger, .string comment]) ⟨trigger, comment⟩

/-- A value is written for records, bare or as the completions of an object. -/
inductive Lists : Value → List Command → Prop where
  | bare {items : List Value} {records : List Command}
      (each : List.Forall₂ IsRecord items records) : Lists (.array items) records
  | wrapped {members : List (Text × Value)} {items : List Value} {records : List Command}
      (once : HasOnly "completions".toList (.array items) members)
      (each : List.Forall₂ IsRecord items records) : Lists (.object members) records

/-! ### Members -/

variable {name : Text} {members : List (Text × Value)} {v : Value}

theorem filter_eq_nil_iff_lacks :
    (members.filter fun m => m.1 == name) = [] ↔ Lacks name members := by
  simp [Lacks, List.filter_eq_nil_iff]

theorem filter_eq_singleton_iff_hasOnly :
    (members.filter fun m => m.1 == name) = [(name, v)] ↔ HasOnly name v members := by
  constructor
  · intro h
    obtain ⟨before, after, hcut, hbefore, _, hafter⟩ := List.filter_eq_cons_iff.1 h
    refine ⟨before, after, hcut, ?_⟩
    intro m hm
    rcases List.mem_append.1 hm with hm | hm
    · simpa using hbefore m hm
    · exact filter_eq_nil_iff_lacks.1 hafter m hm
  · rintro ⟨before, after, rfl, hothers⟩
    have hbefore := filter_eq_nil_iff_lacks.2 fun m hm => hothers m (List.mem_append_left after hm)
    have hafter := filter_eq_nil_iff_lacks.2 fun m hm => hothers m (List.mem_append_right before hm)
    simp [List.filter_append, hbefore, hafter]

theorem only?_eq_none_iff : only? name members = some none ↔ Lacks name members := by
  rw [← filter_eq_nil_iff_lacks]
  unfold only?
  split
  · next h => exact ⟨fun _ => h, fun _ => rfl⟩
  · next h => simp [h]
  · next h _ => exact ⟨nofun, fun hnil => absurd hnil h⟩

theorem only?_eq_some_iff : only? name members = some (some v) ↔ HasOnly name v members := by
  rw [← filter_eq_singleton_iff_hasOnly]
  unfold only?
  split
  · next h => simp [h]
  · next w u h =>
    -- The member that is found has the name.
    have hmem : (w, u) ∈ members.filter fun m => m.1 == name := by simp [h]
    have hname : w = name := by simpa using (List.mem_filter.1 hmem).2
    simp [h, hname]
  · next _ h => exact ⟨nofun, fun hone => absurd hone (h _ _)⟩

/-! ### Records -/

/-- A record is read from a value exactly if the value is written for it. -/
theorem record?_eq_some_iff {c : Command} : record? v = some c ↔ IsRecord v c := by
  constructor
  · intro h
    unfold record? at h
    split at h
    · next members =>
      simp only [Option.bind_eq_bind, Option.bind_eq_some_iff] at h
      obtain ⟨trigger?, htrigger, comment?, hcomment, h⟩ := h
      split at h
      · cases h
        exact .object (only?_eq_some_iff.1 htrigger) (only?_eq_none_iff.1 hcomment)
      · cases h
        exact .commentedObject (only?_eq_some_iff.1 htrigger) (only?_eq_some_iff.1 hcomment)
      · cases h
    · cases h
      exact .array
    · cases h
      exact .commentedArray
    · cases h
  · intro h
    cases h with
    | object once without =>
      rw [record?, only?_eq_some_iff.2 once, only?_eq_none_iff.2 without]
      rfl
    | commentedObject once commented =>
      rw [record?, only?_eq_some_iff.2 once, only?_eq_some_iff.2 commented]
      rfl
    | array => rfl
    | commentedArray => rfl

theorem mapM_record?_eq_some_iff {items : List Value} {records : List Command} :
    items.mapM record? = some records ↔ List.Forall₂ IsRecord items records := by
  induction items generalizing records with
  | nil => rw [List.mapM_nil, List.forall₂_nil_left_iff, Option.pure_def, Option.some_inj, eq_comm]
  | cons v items ih =>
    simp only [List.mapM_cons, Option.bind_eq_bind, Option.bind_eq_some_iff, record?_eq_some_iff,
      ih, List.forall₂_cons_left_iff, Option.pure_def, Option.some_inj]
    constructor
    · rintro ⟨c, hc, cs, hcs, rfl⟩
      exact ⟨c, cs, hc, hcs, rfl⟩
    · rintro ⟨c, cs, hc, hcs, rfl⟩
      exact ⟨c, hc, cs, hcs, rfl⟩

/-- A table is read from a value exactly if the value is written for its records. -/
theorem ofJson?_eq_some_iff {table : CommandTable} :
    ofJson? v = some table ↔ Lists v table.records := by
  constructor
  · intro h
    unfold ofJson? at h
    split at h
    · next members =>
      simp only [Option.bind_eq_bind, Option.bind_eq_some_iff, Option.some_inj] at h
      -- A member that is missing or repeated has been ruled out here.
      obtain ⟨completions, hcompletions, records, ⟨w, rfl, hrecords⟩, rfl⟩ := h
      unfold records? at hrecords
      split at hrecords
      · exact .wrapped (only?_eq_some_iff.1 hcompletions) (mapM_record?_eq_some_iff.1 hrecords)
      · cases hrecords
    · obtain ⟨records, hrecords, rfl⟩ := Option.map_eq_some_iff.1 h
      unfold records? at hrecords
      split at hrecords
      · exact .bare (mapM_record?_eq_some_iff.1 hrecords)
      · cases hrecords
  · intro h
    obtain ⟨records⟩ := table
    cases h with
    | bare each =>
      show Option.map _ (List.mapM record? _) = _
      rw [mapM_record?_eq_some_iff.2 each]
      rfl
    | wrapped once each =>
      rw [ofJson?, only?_eq_some_iff.2 once]
      show Option.bind (List.mapM record? _) _ = _
      rw [mapM_record?_eq_some_iff.2 each]
      rfl

/-! ### Texts -/

theorem isDigit_of_isBlank {c : Char} (h : isBlank c = true) : isDigit c = false := by
  have hzero : '0'.toNat = 48 := rfl
  have hnine : '9'.toNat = 57 := rfl
  simp only [isBlank, Bool.or_eq_true, Bool.and_eq_true, decide_eq_true_eq, beq_iff_eq] at h
  simp only [isDigit, Bool.and_eq_false_iff, decide_eq_false_iff_not]
  omega

theorem readScalar_of_blank {t : Text} (h : ∀ c ∈ t, isBlank c = true) :
    ∃ fault, readScalar t = .error fault := by
  unfold readScalar
  split
  · exact ⟨_, rfl⟩
  · exact absurd (h '"' List.mem_cons_self) (by decide)
  · exact absurd (h 'n' List.mem_cons_self) (by decide)
  · exact absurd (h 't' List.mem_cons_self) (by decide)
  · exact absurd (h 'f' List.mem_cons_self) (by decide)
  · next c _ _ _ _ _ =>
    have hblank := h c List.mem_cons_self
    have hminus : c ≠ '-' := by
      intro heq
      subst heq
      exact absurd hblank (by decide)
    simp [hminus, isDigit_of_isBlank hblank]

/-- A blank text is no value: no value starts with a blank character. -/
theorem readValue_of_allBlank {t : Text} (h : t.allBlank = true) (depth : Nat) :
    ∃ fault, readValue depth t = .error fault := by
  -- What JSON skips is blank, but more is: a no-break space may be left.
  have hskipped : ∀ c ∈ skipSpace t, isBlank c = true := by
    intro c hc
    exact List.all_eq_true.1 h c ((List.dropWhile_suffix isSpace).subset hc)
  unfold readValue
  split
  · exact ⟨_, rfl⟩
  · exact ⟨_, rfl⟩
  · next heq => exact absurd (hskipped '[' (heq ▸ List.mem_cons_self)) (by decide)
  · next heq => exact absurd (hskipped '\x7b' (heq ▸ List.mem_cons_self)) (by decide)
  · exact readScalar_of_blank hskipped

/-- A text is a value if a value is read from it and nothing but white space is left. -/
theorem valueParse_eq_ok_iff {t : Text} :
    Value.parse t = .ok v ↔ ∃ rest, readValue maxDepth t = .ok (v, rest) ∧ atEnd rest = true := by
  unfold Value.parse
  cases hread : readValue maxDepth t with
  | error fault => exact ⟨nofun, fun ⟨_, h, _⟩ => nomatch h⟩
  | ok p =>
    obtain ⟨w, rest⟩ := p
    show (if atEnd rest = true then Except.ok w else Except.error Fault.malformed) = .ok v ↔ _
    by_cases hend : atEnd rest = true
    · rw [if_pos hend]
      constructor
      · rintro ⟨⟩
        exact ⟨rest, rfl, hend⟩
      · rintro ⟨_, ⟨⟩, _⟩
        rfl
    · rw [if_neg hend]
      refine ⟨nofun, ?_⟩
      rintro ⟨_, ⟨⟩, h⟩
      exact absurd h hend

/-- A text that is a value is read as a table by its value alone. -/
theorem parse_of_valueParse {t : Text} (h : Value.parse t = .ok v) :
    parse t = (ofJson? v).elim (.error .mismatched) .ok := by
  obtain ⟨rest, hread, hend⟩ := valueParse_eq_ok_iff.1 h
  -- The rule for blank texts does not apply.
  have hblank : ¬ t.allBlank = true := by
    intro hblank
    obtain ⟨fault, hfault⟩ := readValue_of_allBlank hblank maxDepth
    rw [hread] at hfault
    cases hfault
  unfold parse
  rw [if_neg hblank, hread]
  simp only [bind, Except.bind]
  cases ofJson? v with
  | none => rfl
  | some table => exact if_pos hend

/-- A text that is not blank is read as a table only if it is a value. -/
theorem exists_valueParse_of_parse {t : Text} {table : CommandTable} (h : parse t = .ok table)
    (hblank : ¬ t.allBlank = true) : ∃ v, Value.parse t = .ok v := by
  unfold parse at h
  rw [if_neg hblank] at h
  cases hread : readValue maxDepth t with
  | error fault =>
    rw [hread] at h
    cases h
  | ok p =>
    obtain ⟨v, rest⟩ := p
    rw [hread] at h
    refine ⟨v, valueParse_eq_ok_iff.2 ⟨rest, hread, ?_⟩⟩
    simp only [bind, Except.bind] at h
    split at h
    · cases h
    · by_contra hend
      rw [if_neg hend] at h
      cases h

/-- The object around an array changes nothing. -/
theorem ofJson?_wrapped {items : List Value}
    (h : HasOnly "completions".toList (.array items) members) :
    ofJson? (.object members) = ofJson? (.array items) := by
  rw [ofJson?, only?_eq_some_iff.2 h]
  show Option.bind (records? (.array items)) _ = Option.map _ (records? (.array items))
  cases records? (.array items) <;> rfl

/-- **The reader of command tables accepts exactly their format.** A text that is a value is read as
a table exactly if the value lists the table's records in order; the bare and the wrapped form of
the same items are read alike. A blank text is the empty table, and no other text is a table. -/
theorem reads_exactly_table_format :
    (∀ t v, Value.parse t = .ok v → ∀ table, parse t = .ok table ↔ Lists v table.records) ∧
      (∀ t t' items members, Value.parse t = .ok (.array items) →
        Value.parse t' = .ok (.object members) →
        HasOnly "completions".toList (.array items) members → parse t = parse t') ∧
      (∀ t : Text, t.allBlank = true → parse t = .ok .empty) ∧
      ∀ t : Text, t.allBlank = false → (∀ v, Value.parse t ≠ .ok v) →
        ∀ table, parse t ≠ .ok table := by
  refine ⟨?_, ?_, ?_, ?_⟩
  · intro t v hv table
    rw [parse_of_valueParse hv, ← ofJson?_eq_some_iff]
    cases ofJson? v with
    | none => exact ⟨nofun, nofun⟩
    | some table' => simp
  · intro t t' items members ht ht' hwrapped
    rw [parse_of_valueParse ht, parse_of_valueParse ht', ofJson?_wrapped hwrapped]
  · intro t hblank
    exact if_pos hblank
  · intro t hblank hvalue table h
    obtain ⟨v, hv⟩ := exists_valueParse_of_parse h (by simp [hblank])
    exact hvalue v hv

/-- A wrapped table with a member that nobody knows, repeated. With `trigger` repeated instead, it is
no table. -/
theorem repeated_trigger_is_no_table :
    parse "\x7b\"x\":[],\"completions\":[[\"a\"]],\"x\":[]\x7d".toList = .ok ⟨[⟨"a".toList, []⟩]⟩ ∧
      ∀ table, parse "[\x7b\"trigger\":\"\",\"trigger\":\"\"\x7d]".toList ≠ .ok table := by
  obtain ⟨hformat, _, _, _⟩ := reads_exactly_table_format
  constructor
  · have hvalue : Value.parse "\x7b\"x\":[],\"completions\":[[\"a\"]],\"x\":[]\x7d".toList =
        .ok (.object [("x".toList, .array []),
          ("completions".toList, .array [.array [.string "a".toList]]),
          ("x".toList, .array [])]) := by with_unfolding_all rfl
    exact (hformat _ _ hvalue _).2 (.wrapped ⟨[_], [_], rfl, by decide⟩ (.cons .array .nil))
  · have hvalue : Value.parse "[\x7b\"trigger\":\"\",\"trigger\":\"\"\x7d]".toList =
        .ok (.array [.object [("trigger".toList, .string []), ("trigger".toList, .string [])]]) := by
      with_unfolding_all rfl
    intro table h
    have hlists := (hformat _ _ hvalue table).1 h
    rw [← ofJson?_eq_some_iff] at hlists
    cases hlists

end MelScript.CommandTable
