import MelScript.Vocabulary.Index

/-! # The index as a listing

  The variables, then the words, each with their number in front. The empty
  name, which a script that starts or ends outside of a name puts into the
  index, is not shown.
-/

namespace MelScript.Index

/-- The names that are shown of a list of names. -/
def shown (names : List Text) : List Text := names.filter fun name => !name.isEmpty

/-- A title with the number of names shown, and the names below it. -/
def listingSection (title : Text) (names : List Text) : Text :=
  title ++ " (".toList ++ Text.ofNat names.length ++ "):\n".toList ++
    names.flatMap fun name => "  ".toList ++ name ++ ['\n']

/-- The listing of an index. -/
def listing (index : Index) : Text :=
  listingSection "variables".toList (shown index.vars) ++
    listingSection "words".toList (shown index.words)

end MelScript.Index
