import Shockwave.Compression.Registry
import Shockwave.Movie.Format
import Shockwave.Resource.Container

/-!
A session over one stream: the cursor and all that has been registered from the stream so far, with
the notes taken on the way. Steps of a session keep the state they reached when they fail.
-/
namespace Shockwave

/-- Where an archive keeps its resources, and the versions it states. -/
structure Archive where
  version : UInt32
  versionText : Option String
  bodyOffset : Nat
  deriving DecidableEq, Repr

structure Session where
  fileName : String
  cursor : Cursor
  /-- Position of the container in the stream. -/
  offset : Nat := 0
  resources : Container := {}
  compressions : Registry := {}
  archive : Option Archive := none
  notes : List Note := []

namespace Session

def ofBytes (fileName : String) (data : ByteArray) : Session :=
  { fileName, cursor := { data } }

/-- Forgets what was registered from a movie. -/
def reset (s : Session) : Session :=
  { s with offset := 0, resources := {}, compressions := {}, archive := none }

end Session

/-- Why a movie cannot be read. -/
inductive OpenError where
  | streamTooSmall
  | containerNotFound
  | projectorCut
  | headerCut (offset : Nat)
  | unexpectedChunk (expected found : Tag)
  | initialSegmentAbsent
  | unreadable (cause : ReadError)
  deriving DecidableEq, Repr

def OpenError.message : OpenError → String
  | .streamTooSmall => "stream is too small to hold a movie header"
  | .containerNotFound => "unable to locate RIFX/XFIR magic"
  | .projectorCut => "projector header is truncated"
  | .headerCut offset => s!"movie header at offset {offset} is truncated"
  | .unexpectedChunk expected found =>
    s!"expected afterburner chunk '{expected.text}' but found '{found.text}'"
  | .initialSegmentAbsent => "afterburner map is corrupt: map has no ILS entry"
  | .unreadable cause => cause.message

/-- How a step ends without a result. -/
inductive Halt where
  | failed (cause : OpenError)
  /-- The text that a table promises has no end, and the whole run breaks off. -/
  | broken
  deriving DecidableEq, Repr

/-- A step of a session. -/
abbrev Step (ε : Type) := EStateM ε Session

namespace Step

variable {ε : Type}

def note (n : Note) : Step ε Unit :=
  modify fun s => { s with notes := s.notes ++ [n] }

def noteAll (ns : List Note) : Step ε Unit :=
  modify fun s => { s with notes := s.notes ++ ns }

/-- Reads from the session's cursor; a failed read is a value. -/
def attempt (read : Decode α) : Step ε (Except ReadError α) := fun s =>
  match read s.cursor with
  | .ok a cursor => .ok (.ok a) { s with cursor }
  | .error e cursor => .ok (.error e) { s with cursor }

/-- Reads from the session's cursor; a failed read fails the step. -/
def readOr (failure : ReadError → ε) (read : Decode α) : Step ε α := do
  match ← attempt read with
  | .ok a => return a
  | .error e => throw (failure e)

/-- Puts the cursor back to where it was before the step, whatever its outcome. -/
def restoring (step : Step ε α) : Step ε α := fun s =>
  match step s with
  | .ok a t => .ok a { t with cursor := t.cursor.backTo s.cursor }
  | .error e t => .error e { t with cursor := t.cursor.backTo s.cursor }

/-- What the resources tell. -/
def consult (ask : Container → α) : Step ε α := return ask (← get).resources

/-- Adds an entry to the resources. -/
def register (e : Entry) : Step ε Unit := do
  noteAll ((← get).resources.insertNotes e)
  modify fun s => { s with resources := s.resources.insert e }

def registerAll : List Entry → Step ε Unit
  | [] => return ()
  | e :: rest => do
    register e
    registerAll rest

def linkAll (links : List Link) : Step ε Unit :=
  modify fun s => { s with resources := links.foldl Container.link s.resources }

/-- Adds a compression descriptor. -/
def describe (d : Descriptor) : Step ε Unit := do
  noteAll ((← get).compressions.insertNotes d)
  modify fun s => { s with compressions := s.compressions.insert d }

end Step
end Shockwave
