import Mathlib.Data.List.Basic
import Mathlib.Data.List.Induction
import MelScript.Vocabulary.Session

/-! # What a catalogue says of its records

  The catalogue of a table is made record by record, and it treats a repeated
  trigger in two opposite ways: the place of the trigger becomes that of the new
  record, while its rank among the triggers stays that of the first one.

  `Catalogue.Lists` tells both from the whole list of records, together with the
  fact that ties them: the triggers that have a place are those that are listed.
  One record more keeps it true (`Lists.enter`), and so it holds of every
  catalogue (`lists_ofRecords`).

  The main result is that the views of a table agree with each other and with
  its records.
-/

namespace MelScript

namespace Catalogue

/-- At this place of a list stands the last record with a trigger. -/
def LastAt (records : List Command) (trigger : Text) (place : Nat) : Prop :=
  ∃ before record after, records = before ++ record :: after ∧ before.length = place ∧
    record.trigger = trigger ∧ ∀ r ∈ after, r.trigger ≠ trigger

/-- The rank of a trigger: how many records stand before its first one. -/
def rank (records : List Command) (trigger : Text) : Nat :=
  (records.map (·.trigger)).idxOf trigger

/-- What a catalogue is after a list of records. -/
structure Lists (records : List Command) (c : Catalogue) : Prop where
  place : ∀ trigger i, c.place? trigger = some i ↔ LastAt records trigger i
  listed : ∀ trigger, trigger ∈ c.triggers ↔ ∃ r ∈ records, r.trigger = trigger
  placed : ∀ trigger, (c.place? trigger).isSome = true ↔ trigger ∈ c.triggers
  ranked : c.triggers.Pairwise fun s t => rank records s < rank records t

/-! ### One record -/

section

variable {records : List Command} {record : Command} {c : Catalogue} {trigger : Text}

/-- The last record is the last one with its own trigger; for any other trigger it does not
count. -/
theorem lastAt_concat (i : Nat) :
    LastAt (records ++ [record]) trigger i ↔
      if record.trigger = trigger then i = records.length else LastAt records trigger i := by
  unfold LastAt
  constructor
  · rintro ⟨before, r, after, hrecords, hplace, htrigger, hafter⟩
    rcases List.eq_nil_or_concat' after with rfl | ⟨after, last, rfl⟩
    · -- Nothing stands behind the record that is meant, so it is the last one.
      obtain ⟨rfl, hr⟩ := List.append_inj' hrecords rfl
      cases hr
      rw [if_pos htrigger]
      exact hplace.symm
    · -- It stands before the last one, which has another trigger then.
      rw [← List.cons_append, ← List.append_assoc] at hrecords
      obtain ⟨hfront, hlast⟩ := List.append_inj' hrecords rfl
      cases hlast
      rw [if_neg (hafter record (by simp))]
      exact ⟨before, r, after, hfront, hplace, htrigger,
        fun r' hr' => hafter r' (List.mem_append_left _ hr')⟩
  · intro h
    by_cases heq : record.trigger = trigger
    · rw [if_pos heq] at h
      refine ⟨records, record, [], rfl, h.symm, heq, ?_⟩
      intro r hr
      cases hr
    · rw [if_neg heq] at h
      obtain ⟨before, r, after, hrecords, hplace, htrigger, hafter⟩ := h
      refine ⟨before, r, after ++ [record], by rw [hrecords]; simp, hplace, htrigger, ?_⟩
      intro r' hr'
      rcases List.mem_append.1 hr' with hr' | hr'
      · exact hafter r' hr'
      · rw [List.mem_singleton.1 hr']
        exact heq

/-- A record at the end changes no rank that a trigger has. -/
theorem rank_concat_of_mem (h : ∃ r ∈ records, r.trigger = trigger) :
    rank (records ++ [record]) trigger = rank records trigger := by
  have hmem : trigger ∈ records.map (·.trigger) := List.mem_map.2 h
  unfold rank
  rw [List.map_append, List.idxOf_append_of_mem hmem]

/-- A new trigger ranks behind all others. -/
theorem rank_lt_rank_concat (h : ∃ r ∈ records, r.trigger = trigger)
    (hnew : ¬ ∃ r ∈ records, r.trigger = record.trigger) :
    rank (records ++ [record]) trigger < rank (records ++ [record]) record.trigger := by
  have hmem : trigger ∈ records.map (·.trigger) := List.mem_map.2 h
  have hnot : record.trigger ∉ records.map (·.trigger) := fun hold => hnew (List.mem_map.1 hold)
  have hlast : rank (records ++ [record]) record.trigger = records.length := by
    unfold rank
    rw [List.map_append, List.idxOf_append_of_notMem hnot]
    simp
  have hfirst : rank records trigger < records.length := by
    have hlt := List.idxOf_lt_length_of_mem hmem
    rw [List.length_map] at hlt
    exact hlt
  rw [rank_concat_of_mem h, hlast]
  exact hfirst

theorem place?_enter (i : Nat) :
    (c.enter record i).place? trigger =
      if record.trigger = trigger then some i else c.place? trigger := by
  unfold place? enter
  dsimp only
  rw [List.lookup_cons]
  by_cases h : record.trigger = trigger
  · subst h
    simp
  · have hne : (trigger == record.trigger) = false := by simpa using fun heq => h heq.symm
    rw [hne, if_neg h]

/-- A trigger is listed when it is entered for the first time. -/
theorem triggers_enter (h : Lists records c) (i : Nat) :
    (c.enter record i).triggers =
      if record.trigger ∈ c.triggers then c.triggers else c.triggers ++ [record.trigger] := by
  unfold enter
  dsimp only
  by_cases hold : record.trigger ∈ c.triggers
  · rw [if_pos hold, if_pos ((h.placed _).2 hold)]
  · rw [if_neg hold, if_neg fun hsome => hold ((h.placed _).1 hsome)]

theorem mem_triggers_enter (h : Lists records c) (i : Nat) :
    trigger ∈ (c.enter record i).triggers ↔ record.trigger = trigger ∨ trigger ∈ c.triggers := by
  rw [triggers_enter h]
  by_cases hold : record.trigger ∈ c.triggers
  · rw [if_pos hold, or_iff_right_of_imp]
    rintro rfl
    exact hold
  · rw [if_neg hold, List.mem_append, List.mem_singleton, or_comm, eq_comm]

/-- One record more. -/
theorem Lists.enter (h : Lists records c) (record : Command) :
    Lists (records ++ [record]) (c.enter record records.length) where
  place := by
    intro trigger i
    rw [place?_enter, lastAt_concat]
    split
    · rw [Option.some.injEq, eq_comm]
    · exact h.place trigger i
  listed := by
    intro trigger
    rw [mem_triggers_enter h, h.listed]
    constructor
    · rintro (rfl | ⟨r, hr, htrigger⟩)
      · exact ⟨record, by simp, rfl⟩
      · exact ⟨r, List.mem_append_left _ hr, htrigger⟩
    · rintro ⟨r, hr, htrigger⟩
      rcases List.mem_append.1 hr with hr | hr
      · exact .inr ⟨r, hr, htrigger⟩
      · rw [List.mem_singleton.1 hr] at htrigger
        exact .inl htrigger
  placed := by
    intro trigger
    rw [place?_enter, mem_triggers_enter h]
    by_cases heq : record.trigger = trigger
    · simp [heq]
    · rw [if_neg heq, h.placed, or_iff_right heq]
  ranked := by
    -- The triggers that are listed keep their ranks, and a new one comes behind all of them.
    have hold : c.triggers.Pairwise fun s t =>
        rank (records ++ [record]) s < rank (records ++ [record]) t := by
      refine h.ranked.imp_of_mem ?_
      intro s t hs ht hlt
      rw [rank_concat_of_mem ((h.listed s).1 hs), rank_concat_of_mem ((h.listed t).1 ht)]
      exact hlt
    rw [triggers_enter h]
    by_cases hmem : record.trigger ∈ c.triggers
    · rw [if_pos hmem]
      exact hold
    · rw [if_neg hmem, List.pairwise_append]
      refine ⟨hold, List.pairwise_singleton _ _, ?_⟩
      intro s hs t ht
      rw [List.mem_singleton.1 ht]
      exact rank_lt_rank_concat ((h.listed s).1 hs) fun hnew => hmem ((h.listed _).2 hnew)

end

/-! ### All records -/

theorem lists_empty : Lists [] {} where
  place := by
    intro trigger i
    constructor
    · intro h
      cases h
    · rintro ⟨before, record, after, hrecords, _⟩
      simp at hrecords
  listed := by simp
  placed := by simp [place?]
  ranked := List.Pairwise.nil

theorem ofRecords_concat (records : List Command) (record : Command) :
    ofRecords (records ++ [record]) = (ofRecords records).enter record records.length := by
  simp [ofRecords, List.zipIdx_append]

/-- The catalogue of records tells what it should. -/
theorem lists_ofRecords (records : List Command) : Lists records (ofRecords records) := by
  induction records using List.reverseRecOn with
  | nil => exact lists_empty
  | append_singleton records record ih =>
    rw [ofRecords_concat]
    exact ih.enter record

end Catalogue

/-! ### Tables -/

/-- A record of a table after which no other record has its trigger. -/
def CommandTable.IsLast (table : CommandTable) (record : Command) : Prop :=
  ∃ before after, table.records = before ++ record :: after ∧
    ∀ r ∈ after, r.trigger ≠ record.trigger

namespace CommandTable

variable {table : CommandTable} {word : Text} {record : Command}

theorem lists_catalogue (table : CommandTable) : table.catalogue.Lists table.records :=
  Catalogue.lists_ofRecords table.records

/-- The place that is looked up is the place of a record, which is the last one with the trigger. -/
theorem lookup?_of_place {i : Nat} (h : table.catalogue.place? word = some i) :
    ∃ record, table.records[i]? = some record ∧ table.lookup? word = some record ∧
      record.trigger = word ∧ table.IsLast record := by
  obtain ⟨before, record, after, hrecords, hplace, htrigger, hafter⟩ :=
    (table.lists_catalogue.place word i).1 h
  have hget : table.records[i]? = some record := by
    rw [hrecords, ← hplace]
    simp
  refine ⟨record, hget, ?_, htrigger, before, after, hrecords, ?_⟩
  · unfold lookup?
    rw [h, Option.bind_some, hget]
  · rw [htrigger]
    exact hafter

theorem lookup?_eq_some_iff :
    table.lookup? word = some record ↔ record.trigger = word ∧ table.IsLast record := by
  constructor
  · intro h
    obtain ⟨i, hi, _⟩ := Option.bind_eq_some_iff.1 h
    obtain ⟨found, _, hlookup, hlast⟩ := lookup?_of_place hi
    have hsame : found = record := Option.some.inj (hlookup.symm.trans h)
    exact hsame ▸ hlast
  · rintro ⟨htrigger, before, after, hrecords, hafter⟩
    -- The record stands at the place that is looked up.
    have hplace : table.catalogue.place? word = some before.length :=
      (table.lists_catalogue.place word _).2
        ⟨before, record, after, hrecords, rfl, htrigger, htrigger ▸ hafter⟩
    obtain ⟨found, hfound, hlookup, _⟩ := lookup?_of_place hplace
    have hget : table.records[before.length]? = some record := by
      rw [hrecords]
      simp
    rw [hlookup, ← hfound, hget]

theorem mem_triggers : word ∈ table.triggers ↔ ∃ r ∈ table.records, r.trigger = word :=
  table.lists_catalogue.listed word

theorem contains_iff_mem_triggers : table.contains word = true ↔ word ∈ table.triggers :=
  table.lists_catalogue.placed word

/-- A word has a record exactly when it is a trigger. -/
theorem exists_lookup?_iff :
    (∃ record, table.lookup? word = some record) ↔ ∃ r ∈ table.records, r.trigger = word := by
  rw [← mem_triggers, ← contains_iff_mem_triggers]
  constructor
  · rintro ⟨record, h⟩
    obtain ⟨i, hi, _⟩ := Option.bind_eq_some_iff.1 h
    unfold contains
    rw [hi]
    rfl
  · intro h
    obtain ⟨i, hi⟩ := Option.isSome_iff_exists.1 h
    obtain ⟨record, _, hlookup, _⟩ := lookup?_of_place hi
    exact ⟨record, hlookup⟩

/-- **The views of a table agree.** A word is looked up as its last record, and it has one exactly
when the table contains it; every place that is looked up is the place of a record. The triggers are
listed once each, in the order of their first records. Records and completions are those that the
table was made of, in order and repetitions included. -/
theorem views_agree (records : List Command) :
    let table : CommandTable := ⟨records⟩
    (∀ word record, table.lookup? word = some record ↔
        record.trigger = word ∧ table.IsLast record) ∧
      (∀ word, table.lookup? word = none ↔ ∀ r ∈ records, r.trigger ≠ word) ∧
      (∀ word, table.contains word = true ↔ ∃ record, table.lookup? word = some record) ∧
      (∀ word i, table.catalogue.place? word = some i →
        ∃ record, records[i]? = some record ∧ table.lookup? word = some record) ∧
      (∀ word, word ∈ table.triggers ↔ ∃ r ∈ records, r.trigger = word) ∧
      table.triggers.Nodup ∧
      (table.triggers.Pairwise fun s t =>
        (records.map (·.trigger)).idxOf s < (records.map (·.trigger)).idxOf t) ∧
      table.records = records ∧
      table.completions = records.map .command := by
  intro table
  have hranked := table.lists_catalogue.ranked
  refine ⟨fun word record => lookup?_eq_some_iff, ?_, ?_, ?_, fun word => mem_triggers, ?_,
    hranked, rfl, rfl⟩
  · intro word
    have hsome : (table.lookup? word).isSome = true ↔ ∃ r ∈ records, r.trigger = word := by
      rw [Option.isSome_iff_exists]
      exact exists_lookup?_iff
    rw [← Option.not_isSome_iff_eq_none, hsome]
    simp
  · intro word
    rw [contains_iff_mem_triggers, mem_triggers, exists_lookup?_iff]
  · intro word i h
    obtain ⟨record, hget, hlookup, _⟩ := lookup?_of_place h
    exact ⟨record, hget, hlookup⟩
  · -- No trigger ranks before itself.
    refine hranked.imp ?_
    rintro s t hlt rfl
    exact Nat.lt_irrefl _ hlt

/-- A trigger with two records: the second one is looked up, at the last place, and the trigger is
listed before the one in between. -/
theorem views_of_repeated_trigger :
    let a : Command := ⟨"a".toList, "1".toList⟩
    let b : Command := ⟨"b".toList, "2".toList⟩
    let a' : Command := ⟨"a".toList, "3".toList⟩
    let table : CommandTable := ⟨[a, b, a']⟩
    table.catalogue.place? "a".toList = some 2 ∧ table.lookup? "a".toList = some a' ∧
      table.triggers = ["a".toList, "b".toList] ∧ table.lookup? "c".toList = none := by
  intro a b a' table
  obtain ⟨hlookup, hnone, _⟩ := views_agree [a, b, a']
  refine ⟨by decide, (hlookup _ _).2 ⟨rfl, [a, b], [], rfl, ?_⟩, by decide, (hnone _).2 (by decide)⟩
  intro r hr
  cases hr

end CommandTable

end MelScript
