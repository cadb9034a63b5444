import MelScript.Text.Basic

/-! # Command tables

  A command table is a list of records, each with the word that triggers it and
  a documentation. A trigger may be repeated: all its records stay in the table,
  and the last one is the one that is looked up.

  Records are found through a catalogue, which is made by entering them one by
  one. A later record of a trigger replaces the earlier one, while a trigger is
  listed when it is entered for the first time.
-/

namespace MelScript

/-- The documentation of one command. -/
structure Command where
  /-- The command's name. -/
  trigger : Text
  /-- What it does. -/
  documentation : Text
  deriving DecidableEq, Repr

/-- The commands that are known. -/
structure CommandTable where
  /-- The records, in order. -/
  records : List Command := []
  deriving DecidableEq, Repr

/-! ### Catalogues -/

/-- Where the records of a table stand. -/
structure Catalogue where
  /-- Triggers and the places of their records; the first entry of a trigger counts. -/
  places : List (Text × Nat) := []
  /-- The triggers, in the order in which they were entered. -/
  triggers : List Text := []
  deriving DecidableEq, Repr

namespace Catalogue

/-- The place of the record of a trigger. -/
def place? (c : Catalogue) (trigger : Text) : Option Nat := c.places.lookup trigger

/-- Enters the record that stands at a place. A trigger that has no place yet is listed. -/
def enter (c : Catalogue) (record : Command) (place : Nat) : Catalogue where
  places := (record.trigger, place) :: c.places
  triggers :=
    if (c.place? record.trigger).isSome then c.triggers else c.triggers ++ [record.trigger]

/-- The catalogue of records, entered in order. -/
def ofRecords (records : List Command) : Catalogue :=
  records.zipIdx.foldl (fun c (record, place) => c.enter record place) {}

end Catalogue

/-! ### Tables -/

namespace CommandTable

/-- The table without records. -/
def empty : CommandTable := {}

/-- The catalogue of the table's records. -/
def catalogue (table : CommandTable) : Catalogue := .ofRecords table.records

/-- The last record with a trigger. -/
def lookup? (table : CommandTable) (trigger : Text) : Option Command :=
  (table.catalogue.place? trigger).bind fun place => table.records[place]?

/-- Whether some record has a trigger. -/
def contains (table : CommandTable) (trigger : Text) : Bool :=
  (table.catalogue.place? trigger).isSome

/-- Every trigger once, in the order of their first records. -/
def triggers (table : CommandTable) : List Text := table.catalogue.triggers

/-- The number of records. -/
def size (table : CommandTable) : Nat := table.records.length

end CommandTable

end MelScript
