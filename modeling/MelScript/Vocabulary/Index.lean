import MelScript.Vocabulary.Fragment

/-! # The identifier index

  The index collects the names that occur in the texts given to it. A fragment
  is looked at only when it is met for the first time. Its name is the fragment
  without one leading `$`; a name that is new, no number and not reserved is
  listed, as a variable if the fragment had the `$` and as a word otherwise.
  Variables and words share one vocabulary, so that a name is listed once.
-/

namespace MelScript

/-- The names found so far. -/
structure Index where
  /-- The fragments that were met, the latest first. -/
  seen : List Text := []
  /-- The names that are known, the latest first; the reserved ones last. -/
  vocabulary : List Text := []
  /-- The variables, in the order in which they were found. -/
  vars : List Text := []
  /-- The other words, in the order in which they were found. -/
  words : List Text := []
  deriving DecidableEq, Repr

/-- How many names were added to an index. -/
structure Growth where
  /-- The number of new variables. -/
  vars : Nat := 0
  /-- The number of new words. -/
  words : Nat := 0
  deriving DecidableEq, Repr

/-- Whether nothing was added. -/
def Growth.isEmpty (g : Growth) : Bool := g.vars == 0 && g.words == 0

/-- Whether a name is a number: digits, perhaps after a minus sign. -/
def isNumeric (name : Text) : Bool :=
  let digits := Text.dropOne '-' name
  !digits.isEmpty && digits.all Char.isDigit

namespace Index

/-- The index in which nothing was found, with names that are never listed. -/
def reserving (reserved : List Text) : Index := { vocabulary := reserved }

/-- Whether a name is known. -/
def contains (index : Index) (name : Text) : Bool := index.vocabulary.contains name

/-- The number of names listed. -/
def size (index : Index) : Nat := index.vars.length + index.words.length

/-- Takes one fragment, and counts what it adds. -/
def take : Index × Growth → Text → Index × Growth
  | (index, growth), fragment =>
    if index.seen.contains fragment then (index, growth)
    else
      let index := { index with seen := fragment :: index.seen }
      let isVariable := fragment.head? == some '$'
      let name := Text.dropOne '$' fragment
      if isNumeric name || index.contains name then (index, growth)
      else
        let index := { index with vocabulary := name :: index.vocabulary }
        if isVariable then
          ({ index with vars := index.vars ++ [name] },
            { growth with vars := growth.vars + 1 })
        else
          ({ index with words := index.words ++ [name] },
            { growth with words := growth.words + 1 })

/-- Takes all fragments of a text, and counts what they add. An empty text has none. -/
def add (index : Index) (t : Text) : Index × Growth :=
  if t.isEmpty then (index, {}) else t.fragments.foldl take (index, {})

/-- The index after a text. -/
def after (index : Index) (t : Text) : Index := (index.add t).1

end Index

end MelScript
