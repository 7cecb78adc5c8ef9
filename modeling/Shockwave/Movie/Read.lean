import Shockwave.Cast.Scripts
import Shockwave.Lingo.Decompile
import Shockwave.Map.Archived
import Shockwave.Movie.Header
import Shockwave.Movie.Scopes

/-!
Reading a movie. Only a stream without a container or with a bad archive map is refused; any other
damage costs the part it is in and leaves a note.
-/
namespace Shockwave

inductive LineEnding where
  | lf
  | cr
  | crlf
  deriving DecidableEq, Repr

def LineEnding.text : LineEnding → String
  | .lf => "\n"
  | .cr => "\r"
  | .crlf => "\r\n"

structure Options where
  /-- Whether the whole stream may be searched for a container. -/
  search : Bool := true
  /-- Whether the source text in info blocks is decoded. -/
  decodeText : Bool := true
  lineEnding : LineEnding := .lf
  deriving DecidableEq, Repr

structure Movie where
  fileName : String
  offset : Nat
  block : Block
  resources : List Entry
  links : List Link
  compressions : List Descriptor
  archive : Option Archive
  scripts : List ScriptEntry
  scopes : List Scope
  lineEnding : LineEnding

namespace Movie

/-- A step that cannot break off the run. -/
def orFail (step : Step OpenError α) : Step Halt α := step.adaptExcept .failed

/-- Reads the map of a block, of whichever kind it has. -/
def readMap (block : Block) : Step Halt Block := do
  if block.format.codec.isArchive then
    let (outcome, block) ← Archive.read block
    match outcome with
    | .error halt => throw halt
    | .ok archive =>
      modify fun s => { s with archive := some archive }
      return block
  else return (← ClassicMap.read block).2

/-- Reads the movie in a session's stream; nothing registered before counts. -/
def readFrom (options : Options) : Step Halt Movie := do
  modify Session.reset
  let offset ← orFail (locate options.search)
  modify fun s => { s with offset }
  let header ← orFail (readBlock offset)
  let fileName := (← get).fileName
  Step.note (.containerFound fileName offset header.format.codecTag header.declaredSize)
  let block ← readMap header
  let resources := (← get).resources.entries
  Step.note (.movieMapped fileName block.format.label block.format.archiveVersion resources.length)
  let scripts ← ScriptEntry.collect block.format.archiveVersion options.decodeText
  let scopes ← Scope.collect
  let s ← get
  return { fileName, offset, block, resources := s.resources.entries, links := s.resources.links,
           compressions := s.compressions.descriptors, archive := s.archive, scripts, scopes,
           lineEnding := options.lineEnding }

/-- Reads the movie in a stream. -/
def read (fileName : String) (data : ByteArray) (options : Options) : Except Halt Movie :=
  match readFrom options (.ofBytes fileName data) with
  | .ok movie _ => .ok movie
  | .error halt _ => .error halt

def lingoVersion (movie : Movie) : Nat := movie.block.format.lingoVersion

/-- The scope that lists a script, or the first one. -/
def scopeFor? (movie : Movie) (scriptId : Int32) : Option Scope :=
  (movie.scopes.find? (·.scriptIds.contains scriptId)).or movie.scopes.head?

/-- A script of the movie in compiled form. -/
def compiled (movie : Movie) (script : ScriptEntry) : Except ReadError Script :=
  Decode.run (Script.read movie.lingoVersion) script.bytes

/-- Source text of a script, if it can be read. -/
def source? (movie : Movie) (script : ScriptEntry) : Option String :=
  let scope := (movie.scopeFor? script.id).getD {}
  match movie.compiled script with
  | .ok compiled => some (compiled.source scope movie.lingoVersion movie.lineEnding.text)
  | .error _ => none

/-- What there is to say about the source text of a script. -/
def sourceNotes (movie : Movie) (script : ScriptEntry) : List Note :=
  let scope := (movie.scopeFor? script.id).getD {}
  match movie.compiled script with
  | .ok compiled => compiled.sourceNotes scope movie.lingoVersion
  | .error cause => [.scriptUnreadable script.id cause]

end Movie
end Shockwave
