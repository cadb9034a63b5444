import MelScript.Editor.Wire
import MelScript.Server.Message

/-! # Answers on the wire

  Answers, and the messages that the server sends on its own, in the form in
  which an editor gets them.
-/

namespace MelScript

open Json

/-- The name and the version by which the server introduces itself. -/
def serverInfo : Value :=
  .object
    [("name".toList, .string "MEL Language Server".toList),
      ("version".toList, .string "0.1.0".toList)]

/-- What the server can do. Documents are synchronised by edits, which is kind 2. -/
def capabilities : Value :=
  .object
    [("textDocumentSync".toList, .nat 2),
      ("hoverProvider".toList, .bool true),
      ("completionProvider".toList, .object
        [("resolveProvider".toList, .bool false),
          ("triggerCharacters".toList, .array [.string ['$']])]),
      ("documentSymbolProvider".toList, .bool true)]

/-- The result that an editor gets, unless the request was refused or the server failed. -/
def Answer.result? : Answer → Option Value
  | .nothing | .underWay => some .null
  | .capabilities =>
    some <| .object
      [("capabilities".toList, MelScript.capabilities), ("serverInfo".toList, serverInfo)]
  | .outline symbols => some ((symbols.map Outline.toEditor).getD .null)
  | .hover h => some ((h.map Hover.toEditor).getD .null)
  | .completions offered =>
    some ((offered.map fun cs => .array (cs.map Completion.toEditor)).getD .null)
  | .refused _ => none
  | .failed => none

namespace Outgoing

/-- The method of a message of the server. -/
def method : Outgoing → Text
  | .log _ => "window/logMessage".toList
  | .askSettings => "workspace/configuration".toList

/-- The parameters of a message of the server. A notice in the log is of type 3. -/
def parameters : Outgoing → Value
  | .log text => .object [("type".toList, .nat 3), ("message".toList, .string text)]
  | .askSettings =>
    .object [("items".toList, .array [.object [("section".toList, .string "mel".toList)]])]

end Outgoing

end MelScript
