import Shockwave.Session.State

/-!
Finding a movie's container in a stream and reading its header. A container starts with a magic word
that also tells the byte order; it may lie behind a projector stub that points at it.
-/
namespace Shockwave

/-- The byte order told by a magic word. -/
def magicOrder? (word : List UInt8) : Option ByteOrder :=
  if word = [0x52, 0x49, 0x46, 0x58] then some .big
  else if word = [0x58, 0x46, 0x49, 0x52] then some .little
  else none

def isMagic (word : List UInt8) : Bool := (magicOrder? word).isSome

section

variable {ε : Type}

/-- Whether a whole magic word stands at an offset. -/
def hasMagicAt (offset : Nat) : Step ε Bool := do
  if (← get).cursor.size < offset + 4 then return false
  match ← Step.attempt (do Decode.jump offset; Decode.bytes 4) with
  | .ok word => return isMagic (octets word)
  | .error _ => return false

/-- The first of some offsets at which there is a magic word. -/
def firstAmong : List Nat → Step ε (Option Nat)
  | [] => return none
  | offset :: rest => do
    if ← hasMagicAt offset then return some offset
    firstAmong rest

/-- The first magic word behind the start of the stream. -/
def scanStream : Step ε (Option Nat) := do
  firstAmong (List.range' 1 ((← get).cursor.size - 4))

end

def projectorMarkers : List (List UInt8) :=
  ["PJ93", "PJ95", "PJ00", "PJ01"].map fun text => octets text.toUTF8

def headerSize : Nat := 12

/-- The word at the start of the stream. -/
def readMarker : Step OpenError (List UInt8) := do
  Step.readOr .unreadable (Decode.jump 0)
  return octets (← Step.readOr .unreadable (Decode.bytes 4))

/-- Where a projector stub leads whose marker has been read. Its offset is tried in one byte order and
then the other. -/
def followStub (marker : List UInt8) : Step OpenError (Option Nat) := do
  if projectorMarkers.contains marker then
    let stored := octets (← Step.readOr (fun _ => .projectorCut) (Decode.bytes 4))
    let found ← firstAmong [ByteOrder.little.value stored, ByteOrder.big.value stored]
    Step.note (found.elim .projectorWithoutMovie (.projectorOffset (.ofBytes marker)))
    return found
  else return none

/-- The offset of the container: the start of the stream, else where a projector stub points, else
the first magic word, if the whole stream may be searched. -/
def seekContainer (search : Bool) : Step OpenError Nat := do
  let marker ← readMarker
  if isMagic marker then return 0
  match ← followStub marker with
  | some offset => return offset
  | none =>
    if !search then throw .containerNotFound
    match ← scanStream with
    | some offset => return offset
    | none => throw .containerNotFound

/-- Finds the container and puts the cursor back. -/
def locate (search : Bool) : Step OpenError Nat := do
  if (← get).cursor.size < headerSize then throw .streamTooSmall
  Step.restoring (seekContainer search)

/-- Reads the header at an offset and takes on the byte order of the container. -/
def readBlock (offset : Nat) : Step OpenError Block := do
  let cut (_ : ReadError) : OpenError := .headerCut offset
  Step.readOr cut (Decode.seek offset)
  let magic ← Step.readOr cut (Decode.bytes 4)
  match magicOrder? (octets magic) with
  | none => throw .containerNotFound
  | some order =>
    Step.readOr cut (Decode.setOrder order)
    Step.readOr cut (Decode.require 8)
    let declaredSize ← Step.readOr cut Decode.u32
    let codecTag ← Step.readOr cut Decode.tag
    let format : Format := { codecTag, order }
    if format.codec = .unknown then Step.note (.unknownCodec codecTag)
    return { declaredSize, start := (← get).cursor.pos, format }

end Shockwave
