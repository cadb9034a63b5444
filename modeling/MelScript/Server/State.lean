import MelScript.Command.Bundled
import MelScript.Document.State
import MelScript.Files.Uri
import MelScript.Server.Settings

/-! # The state of the server

  The server holds the open documents by URI, the command table and the
  settings in force, and the limiter of the computations that may run at the
  same time.
-/

namespace MelScript

/-! ### Documents by URI -/

/-- The open documents, each with its URI. -/
structure Documents where
  /-- URIs and documents; the first entry of a URI counts. -/
  entries : List (FileUri × Document) := []
  deriving Repr

namespace Documents

/-- The open document with a URI. -/
def get? (ds : Documents) (uri : FileUri) : Option Document :=
  (ds.entries.find? fun e => e.1 == uri).map (·.2)

/-- The documents without the one with a URI. -/
def erase (ds : Documents) (uri : FileUri) : Documents :=
  ⟨ds.entries.filter fun e => e.1 != uri⟩

/-- The documents with one put under a URI, in place of the one that was there. -/
def insert (ds : Documents) (uri : FileUri) (d : Document) : Documents :=
  ⟨(uri, d) :: (ds.erase uri).entries⟩

@[simp] theorem get?_empty (uri : FileUri) : ({} : Documents).get? uri = none := rfl

theorem get?_erase (ds : Documents) (uri other : FileUri) :
    (ds.erase uri).get? other = if other = uri then none else ds.get? other := by
  unfold get? erase
  split
  · next h =>
    subst h
    rw [List.find?_eq_none.2]
    · rfl
    · intro e he
      simpa using (List.mem_filter.1 he).2
  · next h =>
    rw [List.find?_filter]
    congr 1
    apply congrArg (List.find? · ds.entries)
    funext e
    by_cases he : e.1 = other
    · simp [he, h]
    · simp [he]

theorem get?_insert (ds : Documents) (uri other : FileUri) (d : Document) :
    (ds.insert uri d).get? other = if other = uri then some d else ds.get? other := by
  have h := get?_erase ds uri other
  by_cases he : other = uri
  · subst he; simp [insert, get?]
  · have he' : (uri == other) = false := by simpa using fun hn => he hn.symm
    rw [if_neg he] at h ⊢
    rw [← h]
    simp [insert, get?, he']

end Documents

/-! ### The server -/

/-- The limiter of computations. -/
inductive Limiter where
  /-- So many may run at the same time. -/
  | permits (n : Nat)
  /-- None can be started any more. -/
  | broken
  deriving DecidableEq, Repr

/-- The largest number of permits that a limiter can have: all 61 low bits set. -/
def Limiter.capacity : Nat := 0x1FFFFFFFFFFFFFFF

/-- The state of the server. -/
structure Server where
  /-- The open documents. -/
  documents : Documents := {}
  /-- The command table in force. -/
  table : CommandTable := .bundled
  /-- The settings in force. -/
  settings : Settings := {}
  /-- The limiter of computations. -/
  limiter : Limiter := .permits 2
  deriving Repr

namespace Server

/-- The state before any message. -/
def initial : Server := {}

/-- The open document with a URI. -/
def document? (s : Server) (uri : FileUri) : Option Document := s.documents.get? uri

/-- The server with a document put under a URI. -/
def putDocument (s : Server) (uri : FileUri) (d : Document) : Server :=
  { s with documents := s.documents.insert uri d }

end Server

end MelScript
