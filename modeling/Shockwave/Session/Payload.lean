import Shockwave.Inflate.Zlib
import Shockwave.Map.Classic

/-!
The bytes of a resource. A classic movie keeps them in a chunk under the tag of the resource; an
archive keeps them in its body or initial load segment, possibly compressed. Loading leaves the
cursor where it was.
-/
namespace Shockwave

namespace Payload

variable {ε : Type}

/-- The body of the chunk at the first of some positions that has the tag of the entry. A body that
is cut off is not looked for elsewhere. -/
def amongChunks (e : Entry) : List Nat → Step ε (Option ByteArray)
  | [] => do
    Step.note (.payloadAbsent e.id e.tag e.offset)
    return none
  | candidate :: rest => do
    match ← Step.attempt (do Decode.seek candidate; Decode.require 8; ChunkHead.read) with
    | .error _ => amongChunks e rest
    | .ok (tag, length) =>
      if tag ≠ e.tag then
        Step.note (.chunkMismatch e.id e.tag candidate)
        amongChunks e rest
      else match ← Step.attempt (Decode.bytes length) with
        | .ok bytes => return some bytes
        | .error cause =>
          Step.note (.payloadCut e.id e.tag cause)
          return none

/-- The bytes of a classic resource, whose offset counts from the start of the stream or of the
container. -/
def classic (e : Entry) : Step ε (Option ByteArray) := do
  let offset := e.offset.toNat
  let candidates := [offset, further (← get).offset offset].eraseDups
  Step.restoring (amongChunks e candidates)

/-- The bytes of an archived resource as they are stored. -/
def stored (archive : Archive) (e : Entry) (offset : Int32) : Step ε (Option ByteArray) := do
  if offset < 0 then
    match (← get).resources.segment? e.id with
    | some bytes => return some bytes
    | none =>
      Step.note (.segmentAbsent e.id)
      return none
  else
    let start := further archive.bodyOffset offset.toInt.toNat
    match ← Step.restoring (Step.attempt (do Decode.seek start; Decode.bytes e.size.toNat)) with
    | .ok bytes => return some bytes
    | .error cause =>
      Step.note (.payloadCut e.id e.tag cause)
      return none

/-- Undoes the compression with the given index; schemes that cannot be undone are left alone. -/
def expand (inflate : Expansion) (e : Entry) (fullSize compression : Nat) (bytes : ByteArray) :
    Step ε (Option ByteArray) := do
  match (← get).compressions.kind? compression with
  | some .zlib =>
    match inflate bytes (some fullSize) with
    | .ok data =>
      if data.size ≠ fullSize then Step.note (.inflatedLength e.id fullSize data.size)
      return some data
    | .error cause =>
      Step.note (.inflateFailed e.id cause)
      return none
  | some .stored => return some bytes
  | kind =>
    Step.note (.noTransform e.id compression kind)
    return some bytes

/-- The bytes of an archived resource. -/
def archived (inflate : Expansion) (archive : Archive) (e : Entry) : Step ε (Option ByteArray) := do
  match e.storage with
  | .chunk =>
    Step.note (.notArchived e.id)
    return none
  | .archived offset fullSize compression =>
    if e.size = 0 ∧ fullSize = 0 then return some .empty
    match ← stored archive e offset with
    | none => return none
    | some bytes => expand inflate e fullSize.toNat compression.toNat bytes

/-- The bytes of a resource. -/
def load (e : Entry) : Step ε (Option ByteArray) := do
  match (← get).archive with
  | some archive => archived @Inflate.inflate archive e
  | none => classic e

/-- The bytes of the resource with an id. -/
def loadId (id : Int32) : Step ε (Option ByteArray) := do
  match ← Step.consult (·.find? id) with
  | some e => load e
  | none => return none

end Payload
end Shockwave
