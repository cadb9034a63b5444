import MelScript.Command.Hover
import MelScript.Files.Path

/-! # Arguments of the command line

  The program is called with a subcommand, its options and its file. Options
  are flags, or they take a value, which is the next argument or stands behind
  an equals sign. Nothing may be given twice. After `--` every argument is a
  file.

  A value is *pending* until the next option or file starts, or until the end:
  only then it is checked. An argument that has no place is refused on the
  spot, even when the value before it would have been refused, too.
-/

namespace MelScript.CommandLine

/-! ### Places for arguments -/

/-- The subcommands. -/
inductive Subcommand where
  /-- Prints the outline of a file. -/
  | outline
  /-- Prints the names that completion would offer for a file. -/
  | index
  /-- Prints the help for the word at a position of a file. -/
  | hover
  /-- Prints the commands that are known. -/
  | commands
  deriving DecidableEq, Repr

/-- The subcommand with a name. -/
def Subcommand.named? (name : Text) : Option Subcommand :=
  if name = "outline".toList then some .outline
  else if name = "index".toList then some .index
  else if name = "hover".toList then some .hover
  else if name = "commands".toList then some .commands
  else none

/-- What can be given. -/
inductive Slot where
  /-- The flag for debug output. -/
  | verbose
  /-- The flag for output as JSON. -/
  | json
  /-- The script. -/
  | file
  /-- The file of a command table. -/
  | table
  /-- A line number, from one. -/
  | line
  /-- A column, from one. -/
  | column
  /-- The folder of the online help pages. -/
  | helpBase
  deriving DecidableEq, Repr

/-- The slot of a long option. -/
def Slot.named? (name : Text) : Option Slot :=
  if name = "verbose".toList then some .verbose
  else if name = "json".toList then some .json
  else if name = "reference".toList then some .table
  else if name = "line".toList then some .line
  else if name = "column".toList then some .column
  else if name = "url-base".toList then some .helpBase
  else none

/-- Whether a slot takes a value. -/
def Slot.takesValue : Slot → Bool
  | .verbose | .json => false
  | _ => true

/-- Whether a subcommand has a slot. -/
def Subcommand.has : Subcommand → Slot → Bool
  | _, .verbose => true
  | .outline, slot => slot == .file || slot == .json
  | .index, slot => slot == .file || slot == .json || slot == .table
  | .hover, slot => slot != .json
  | .commands, slot => slot == .table

/-! ### Values -/

/-- Why the arguments were refused. -/
inductive UsageFault where
  /-- A path, given for a slot, goes through a folder above. -/
  | parentFolder (value : Text) (slot : Slot)
  /-- Anything else. -/
  | other
  deriving DecidableEq, Repr

/-- The number of a line or column: digits, perhaps after a plus sign, for a number from one that
fits in 32 bits. -/
def readNumber? (value : Text) : Option Nat :=
  let digits := Text.dropOne '+' value
  if digits.isEmpty || !digits.all Char.isDigit then none
  else
    let n := digits.foldl (fun n d => 10 * n + (d.toNat - '0'.toNat)) 0
    if 1 ≤ n && n < 0x100000000 then some n else none

/-- Checks the value for a slot. -/
def Slot.check (slot : Slot) (value : Text) : Except UsageFault Unit :=
  match slot with
  | .file | .table =>
    if Path.usesParent value then .error (.parentFolder value slot) else .ok ()
  | .line | .column => if (readNumber? value).isSome then .ok () else .error .other
  | .helpBase | .json | .verbose => .ok ()

/-! ### Reading the arguments of a subcommand -/

/-- What was read so far. -/
structure Parse where
  /-- The slots given, with their checked values. -/
  given : List (Slot × Text) := []
  /-- The slot last given, with its value unless that is still missing. -/
  pending : Option (Slot × Option Text) := none
  /-- Whether a file was given. -/
  fileGiven : Bool := false
  /-- Whether only files may follow. -/
  filesOnly : Bool := false
  deriving Repr

namespace Parse

/-- Whether a slot was given. -/
def has (p : Parse) (slot : Slot) : Bool := p.given.any fun g => g.1 == slot

/-- The value of a slot. -/
def value? (p : Parse) (slot : Slot) : Option Text :=
  (p.given.find? fun g => g.1 == slot).map (·.2)

/-- Gives a slot, which must not be given yet, with a value that is checked. -/
def give (p : Parse) (slot : Slot) (value : Text) : Except UsageFault Parse :=
  if p.has slot then .error .other
  else do
    slot.check value
    return { p with given := p.given ++ [(slot, value)] }

/-- Settles what is pending. -/
def settle (p : Parse) : Except UsageFault Parse :=
  match p.pending with
  | none => .ok p
  | some (_, none) => .error .other
  | some (slot, some value) => { p with pending := none }.give slot value

/-- Takes a flag. -/
def flag (p : Parse) (slot : Slot) : Except UsageFault Parse := do
  let p ← p.settle
  p.give slot []

/-- Takes a long option, from after its two dashes. -/
def long (p : Parse) (sub : Subcommand) (option : Text) : Except UsageFault Parse :=
  let name := option.before '='
  let attached : Option Text := (option.drop name.length).tail?
  match Slot.named? name with
  | none => .error .other
  | some slot =>
    if !sub.has slot then .error .other
    else match slot.takesValue, attached with
      | false, some _ => .error .other
      | false, none => p.flag slot
      | true, some value => do
        let p ← p.settle
        p.give slot value
      | true, none => do
        let p ← p.settle
        return { p with pending := some (slot, none) }

/-- Takes short options, from after their dash. -/
def short (p : Parse) : Text → Except UsageFault Parse
  | [] => .ok p
  | 'v' :: rest => do
    let p ← p.flag .verbose
    p.short rest
  | _ => .error .other

/-- Takes a file. -/
def file (p : Parse) (sub : Subcommand) (value : Text) : Except UsageFault Parse :=
  if p.fileGiven || !sub.has .file then .error .other
  else do
    let p ← p.settle
    return { p with pending := some (.file, some value), fileGiven := true }

/-- Takes an argument that is no option: the value that is missing, or a file. -/
def plain (p : Parse) (sub : Subcommand) (value : Text) : Except UsageFault Parse :=
  match p.pending with
  | some (slot, none) => .ok { p with pending := some (slot, some value) }
  | _ => p.file sub value

/-- Takes an argument. -/
def argument (sub : Subcommand) (p : Parse) (arg : Text) : Except UsageFault Parse :=
  if p.filesOnly then p.file sub arg
  else match arg with
    | ['-', '-'] => .ok { p with filesOnly := true }
    | '-' :: '-' :: option => p.long sub option
    | '-' :: c :: rest => p.short (c :: rest)
    | _ => p.plain sub arg

end Parse

/-! ### Tasks -/

/-- What the program is asked to do. -/
inductive Task where
  /-- To print its version. -/
  | version
  /-- To print the outline of a file. -/
  | outline (file : Text) (json : Bool)
  /-- To print the names in a file that are no commands of a table. -/
  | index (file : Text) (json : Bool) (table : Option Text)
  /-- To print the help for the word at a position of a file. -/
  | hover (file : Text) (line column : Nat) (table : Option Text) (helpBase : Text)
  /-- To print the commands of a table. -/
  | commands (table : Option Text)
  deriving DecidableEq, Repr

/-- The task of a subcommand with its arguments, unless something is missing. -/
def Subcommand.task? (sub : Subcommand) (p : Parse) : Option Task :=
  match sub with
  | .outline => do
    let file ← p.value? .file
    return .outline file (p.has .json)
  | .index => do
    let file ← p.value? .file
    return .index file (p.has .json) (p.value? .table)
  | .hover => do
    let file ← p.value? .file
    let line ← (p.value? .line).bind readNumber?
    let column ← (p.value? .column).bind readNumber?
    return .hover file line column (p.value? .table) ((p.value? .helpBase).getD defaultHelpBase)
  | .commands => return .commands (p.value? .table)

/-- Reads the arguments after a subcommand. -/
def Subcommand.read (sub : Subcommand) (args : List Text) : Except UsageFault Task := do
  let p ← args.foldlM (Parse.argument sub) {}
  let p ← p.settle
  match sub.task? p with
  | some task => return task
  | none => throw .other

/-- Reads short options before the subcommand: the debug flag, if it was not given yet, and the
question for the version, which ends everything. The result tells whether the flag was given. -/
def readShort (verbose : Bool) : Text → Except UsageFault (Option Bool)
  | [] => .ok (some verbose)
  | 'V' :: _ => .ok none
  | 'v' :: rest => if verbose then .error .other else readShort true rest
  | _ => .error .other

/-- Reads all arguments. -/
def readArguments (verbose : Bool) : List Text → Except UsageFault Task
  | [] => .error .other
  | ('-' :: '-' :: option) :: rest =>
    if option = "version".toList then .ok .version
    else if option = "verbose".toList && !verbose then readArguments true rest
    else .error .other
  | ('-' :: c :: cluster) :: rest => do
    match ← readShort verbose (c :: cluster) with
    | none => return .version
    | some verbose => readArguments verbose rest
  | name :: rest => match Subcommand.named? name with
    | some sub => sub.read rest
    | none => .error .other

end MelScript.CommandLine
