import MelScript.Command.Hover
import MelScript.Json.Value
import MelScript.Outline.Symbol
import MelScript.Vocabulary.Session

/-! # What editors are sent

  The forms in which outlines, hovers and completions are sent to an editor.
  Kinds are numbers there: a procedure is 12 and a variable 13 in an outline; a
  command is 3, a variable 6 and a word 1 in a list of completions.
-/

namespace MelScript

open Json

/-- A position for an editor. -/
def Position.toEditor (p : Position) : Value :=
  .object [("line".toList, .nat p.line), ("character".toList, .nat p.column)]

/-- A span for an editor. -/
def Span.toEditor (s : Span) : Value :=
  .object [("start".toList, s.start.toEditor), ("end".toList, s.stop.toEditor)]

/-- The number of a kind of symbol. -/
def SymbolKind.editorCode : SymbolKind → Nat
  | .procedure => 12
  | .var => 13

namespace Symbol

mutual

/-- A symbol for an editor. -/
def toEditor : Symbol → Value
  | ⟨name, kind, declaration, body, children⟩ =>
    .object <|
      [("name".toList, .string name), ("kind".toList, .nat kind.editorCode),
        ("range".toList, body.toEditor), ("selectionRange".toList, declaration.toEditor)] ++
      match children with
      | [] => []
      | c :: cs => [("children".toList, .array (listToEditor (c :: cs)))]

/-- Symbols for an editor. -/
def listToEditor : List Symbol → List Value
  | [] => []
  | s :: ss => s.toEditor :: listToEditor ss

end

end Symbol

/-- An outline for an editor. -/
def Outline.toEditor (symbols : List Symbol) : Value := .array (Symbol.listToEditor symbols)

/-- A completion for an editor. -/
def Completion.toEditor : Completion → Value
  | .command record => .object
    [("label".toList, .string record.trigger), ("kind".toList, .nat 3),
      ("detail".toList, .string record.trigger),
      ("documentation".toList, .string record.documentation)]
  | .var name => .object [("label".toList, .string name), ("kind".toList, .nat 6)]
  | .word name => .object [("label".toList, .string name), ("kind".toList, .nat 1)]

/-- A hover for an editor. -/
def Hover.toEditor (h : Hover) : Value :=
  .object
    [("contents".toList, .object
        [("kind".toList, .string "markdown".toList), ("value".toList, .string h.markdown)]),
      ("range".toList, h.span.toEditor)]

end MelScript
