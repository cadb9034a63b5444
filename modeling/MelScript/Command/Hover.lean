import MelScript.Command.Table
import MelScript.Position
import MelScript.Text.Blank
import MelScript.Text.Runs

/-! # Help for the word at a position

  The words of a line are its runs of characters that are neither white space
  nor one of the marks that end a word. A column belongs to a word if it lies
  within the word or right after it. If that word is a command, its
  documentation and a link to the online help are shown.
-/

namespace MelScript

/-! ### Words -/

/-- The marks that end a word. -/
def wordSeparators : Text := "`~!@#$%^&*()-=+[\x7b]\x7d\\|;:'\",.<>/?".toList

/-- Whether a character may stand in a word. -/
def isWordChar (c : Char) : Bool := !isBlank c && !wordSeparators.contains c

/-- The words of a line. -/
def Text.words (line : Text) : List Run := line.runs isWordChar

/-- The word that a column of a line belongs to. -/
def Text.wordAt? (line : Text) (column : Nat) : Option Run :=
  line.words.find? fun w => w.column ≤ column && column ≤ w.endColumn

/-! ### Help pages -/

/-- The folder of the online help pages that is used unless another one is set. -/
def defaultHelpBase : Text :=
  "http://help.autodesk.com/cloudhelp/2017/ENU/Maya-Tech-Docs/Commands/".toList

/-- The address of a command's help page. -/
def helpUrl (base trigger : Text) : Text :=
  let folder := if base.isEmpty || base.getLast? == some '/' then base else base ++ ['/']
  folder ++ trigger ++ ".html".toList

/-! ### Hovers -/

/-- What is shown for the word at a position. -/
structure Hover where
  /-- The command. -/
  trigger : Text
  /-- The address of its help page. -/
  helpUrl : Text
  /-- Its documentation and the link, as Markdown. -/
  markdown : Text
  /-- Where the word stands. -/
  span : Span
  deriving DecidableEq, Repr

/-- The documentation of a command with a link to its help page. A line feed is kept in Markdown by
two spaces before it. -/
def Command.markdown (c : Command) (url : Text) : Text :=
  c.documentation.replace '\n' "  \n".toList ++ "\n\n[Read Online Help](".toList ++ url ++ [')']

/-- The help for the word at a column of a line. -/
def CommandTable.hover? (table : CommandTable) (helpBase : Text) (lineNumber : Nat) (line : Text)
    (column : Nat) : Option Hover := do
  let word ← line.wordAt? column
  let command ← table.lookup? word.text
  let url := helpUrl helpBase command.trigger
  return ⟨command.trigger, url, command.markdown url,
    Span.onLine lineNumber word.column word.endColumn⟩

end MelScript
