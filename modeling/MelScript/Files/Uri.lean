import MelScript.Text.Percent

/-! # File URIs

  Editors name their documents by URIs. A file URI has a path and perhaps a
  query and a fragment. Two URIs that are written differently may name the same
  document, so a URI is kept in a normal form:

  - white space and control characters at its ends are dropped, and tabs and
    line breaks wherever they stand;
  - characters that may not stand in a part of it are percent-encoded;
  - in the path, a backslash is a slash, a segment `.` is left out, and a segment
    `..` takes the segment before it away. The dots may be percent-encoded;
  - a path begins with one slash only.

  The root is an empty segment before all others. It can be taken away too, and
  then a drive may come first: a letter, and a colon or a bar, which becomes a
  colon. No `..` takes a drive away. Tabs and line breaks right after the colon
  set the drive apart from the rest of its segment.
-/

namespace MelScript

/-- A file URI in normal form. -/
structure FileUri where
  /-- The path, from its first slash on. -/
  path : Text
  /-- The part after the first question mark. -/
  query : Option Text := none
  /-- The part after the first hash sign. -/
  fragment : Option Text := none
  deriving DecidableEq, Repr

namespace FileUri

/-! ### Characters -/

/-- Whether a character is dropped at the ends of a URI. -/
def isPadding (c : Char) : Bool := c.toNat ≤ 0x20

/-- Whether a character is dropped wherever it stands. -/
def isIgnored (c : Char) : Bool := c == '\t' || c == '\n' || c == '\r'

/-- Whether a character is encoded everywhere: blanks, control characters, quotation marks, angle
brackets and all characters beyond ASCII. -/
def isForeign (c : Char) : Bool :=
  c.toNat ≤ 0x20 || 0x7f ≤ c.toNat || c == '"' || c == '<' || c == '>'

/-- Whether a character is encoded in a path. -/
def encodedInPath (c : Char) : Bool := isForeign c || c == '\x60' || c == '\x7b' || c == '\x7d'

/-- Whether a character is encoded in a query. -/
def encodedInQuery (c : Char) : Bool := isForeign c || c == '\''

/-- Whether a character is encoded in a fragment. -/
def encodedInFragment (c : Char) : Bool := isForeign c || c == '\x60'

/-! ### Segments -/

/-- The segment with encoded dots as dots. -/
def plainDots : Text → Text
  | '%' :: '2' :: 'e' :: t => '.' :: plainDots t
  | '%' :: '2' :: 'E' :: t => '.' :: plainDots t
  | c :: t => c :: plainDots t
  | [] => []

/-- Whether a segment leads nowhere. -/
def isHere (segment : Text) : Bool := plainDots segment == ".".toList

/-- Whether a segment leads to the folder above. -/
def isParent (segment : Text) : Bool := plainDots segment == "..".toList

/-- The letter of the drive that a segment is. -/
def driveLetter? : Text → Option Char
  | [c, d] => if c.isAlpha && (d == ':' || d == '|') then some c else none
  | _ => none

/-- The drive with a letter. -/
def drive (letter : Char) : Text := [letter, ':']

/-- The segments of the folder above, the innermost first. There is none above a drive. -/
def above : List Text → List Text
  | [] => []
  | segment :: outer => if (driveLetter? segment).isSome then segment :: outer else outer

/-- The text without ignored characters. -/
def clean (t : Text) : Text := t.filter fun c => !isIgnored c

/-- The normal form of a segment on its own. -/
def normalSegment (t : Text) : Text := (clean t).percentEncode encodedInPath

/-- The letter of the drive that ignored characters set apart in a segment, and the rest of the
segment. -/
def apart? (t : Text) : Option (Char × Text) :=
  match Text.cut ':' t with
  | (lead, some (c :: rest)) => match clean lead with
    | [letter] =>
      if letter.isAlpha && isIgnored c && rest.any (!isIgnored ·) then some (letter, rest) else none
    | _ => none
  | _ => none

/-- The segments of a segment that comes first, the innermost first. -/
def firstSegments (t : Text) : List Text :=
  match apart? t with
  | some (letter, rest) => [normalSegment rest, drive letter]
  | none => match driveLetter? (normalSegment t) with
    | some letter => [drive letter]
    | none => [normalSegment t]

/-- The segments after one more, the innermost first. -/
def enter (segments : List Text) (t : Text) : List Text :=
  let segment := normalSegment t
  if isParent segment then above segments
  else if isHere segment then segments
  else if segments.isEmpty then firstSegments t
  else segment :: segments

/-- Whether a segment leads to a folder that needs no segment of its own. -/
def isDots (t : Text) : Bool := isHere (normalSegment t) || isParent (normalSegment t)

/-- The segments of a path in normal form, the root first. When dots come last, the path leads to a
folder, and an empty segment ends it. -/
def resolve (segments : List Text) : List Text :=
  let entered := segments.foldl enter [[]]
  let closed := if segments.getLast?.any isDots then [] :: entered else entered
  closed.reverse

/-! ### Reading -/

/-- The normal form of a path, from right after its first slash. -/
def normalPath (t : Text) : Text :=
  let segments := resolve ((t.replace '\\' ['/']).split '/')
  '/' :: (['/'].intercalate segments).dropWhile (· == '/')

/-- How the URI of a file on this machine begins. -/
def opening : Text := "file:///".toList

/-- The text without what is dropped at its ends. -/
def trim (t : Text) : Text := Text.dropTail isPadding (t.dropWhile isPadding)

/-- The file URI that a text is. -/
def parse? (t : Text) : Option FileUri :=
  let t := trim t
  if opening.isPrefixOf t then
    let (main, fragment) := Text.cut '#' (t.drop opening.length)
    let (path, query) := Text.cut '?' main
    some {
      path := normalPath path
      query := query.map fun q => (clean q).percentEncode encodedInQuery
      fragment := fragment.map fun f => (clean f).percentEncode encodedInFragment }
  else none

end FileUri

end MelScript
