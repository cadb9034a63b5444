import MelScript.Outline.Symbol

/-! # The outline as a listing

  One line for every symbol of an outline, in the order of the walk, indented by
  two spaces for each procedure around it. A procedure is listed with the
  spans of its name and its body, a variable with the span of its name.
-/

namespace MelScript.Outline

/-- The line of one symbol. -/
def listingLine (depth : Nat) (s : Symbol) : Text :=
  List.replicate (2 * depth) ' ' ++
    match s.kind with
    | .procedure =>
      "proc ".toList ++ s.name ++ ' ' :: s.declaration.label ++ " (body ".toList ++ s.body.label ++
        ")\n".toList
    | .var => '$' :: s.name ++ ' ' :: s.declaration.label ++ ['\n']

/-- The listing of an outline. -/
def listing (symbols : List Symbol) : Text :=
  (Symbol.walkAll 0 symbols).flatMap fun (depth, s) => listingLine depth s

end MelScript.Outline
