import Shockwave.Inflate.Zlib
import Shockwave.Session.State

/-!
The map of an archived movie: a version record, a table of compression descriptors, the rows of the
map, and the initial load segment with the bytes of small resources.
-/
namespace Shockwave

namespace Archive

def readAs (read : Decode α) : Step Halt α :=
  Step.readOr (fun cause => .failed (.unreadable cause)) read

def require (outcome : Except ReadError α) : Step Halt α :=
  match outcome with
  | .ok a => return a
  | .error cause => throw (.failed (.unreadable cause))

/-- Reads the tag that has to come next. -/
def expect (tag : Tag) : Step Halt Unit := do
  let found ← readAs Decode.tag
  if found ≠ tag then throw (.failed (.unexpectedChunk tag found))

/-- A session with the block whose versions are being learnt. -/
structure Opening where
  session : Session
  block : Block

def inSession (step : Step Halt α) : EStateM Halt Opening α := fun o =>
  match step o.session with
  | .ok a session => .ok a { o with session }
  | .error e session => .error e { o with session }

def setMapVersion (version : UInt32) : EStateM Halt Opening Unit :=
  modify fun o => { o with block.format.mapVersion := version }

def setArchiveVersion (version : UInt32) : EStateM Halt Opening Unit :=
  modify fun o => { o with block.format.archiveVersion := version }

/-- Reads the version record and leaves it at its declared end. Map and archive versions are part of
it from `0x401` on, a text from `0x501` on. -/
def readVersion : EStateM Halt Opening (UInt32 × Option String) := do
  inSession (expect .version)
  let length := (← inSession (readAs Decode.varint)).toNat
  let start := (← get).session.cursor.pos
  let version ← inSession (readAs Decode.varint)
  if 0x401 ≤ version then
    setMapVersion (← inSession (readAs Decode.varint))
    setArchiveVersion (← inSession (readAs Decode.varint))
  let text ← if 0x501 ≤ version then some <$> inSession (readAs Decode.counted) else pure none
  let pos := (← get).session.cursor.pos
  if pos ≠ start + length then
    inSession (Step.note (.versionLength length (pos - start)))
    inSession (readAs (Decode.seek (start + length)))
  return (version, text)

/-- Reads a name, if its bytes are one, and goes on behind it. There is no result if the name has no
end. -/
abbrev NameReader := Cursor → Option (Option String × Cursor)

/-- A name in UTF-8 that a zero byte ends. -/
def utf8Name : NameReader := fun c =>
  match Decode.through (· == 0) c with
  | .error _ _ => none
  | .ok bytes c => some (String.fromUTF8? (bytes.extract 0 (bytes.size - 1)), c)

/-- Names and registers descriptors with the given identifiers. Bytes that are no name count as an
empty one, and a name without an end breaks off the run. -/
def describeAll (readName : NameReader) (index : Nat) (c : Cursor) :
    List ByteArray → Step Halt Unit
  | [] => if c.atEnd then return () else Step.note (.descriptorsFollowed c.remaining)
  | identifier :: rest =>
    match readName c with
    | none => throw .broken
    | some (name, c) => do
      if name.isNone then Step.note (.descriptorUnnamed index)
      Step.describe (.new index (octets identifier) (name.getD ""))
      describeAll readName (index + 1) c rest

def readIdentifiers : Decode (List ByteArray) := do
  Decode.require 2
  let count ← Decode.u16
  Decode.times count.toNat (Decode.bytes 16)

/-- Registers the descriptors of a table: all identifiers, then all names. -/
def readDescriptors (readName : NameReader) (data : ByteArray) (order : ByteOrder) :
    Step Halt Unit :=
  match readIdentifiers { data, order } with
  | .error cause _ => throw (.failed (.unreadable cause))
  | .ok identifiers c => describeAll readName 0 c identifiers

def readRow : Decode Entry := do
  let id := (← Decode.varint).toInt32
  let offset := (← Decode.varint).toInt32
  let size ← Decode.varint
  let fullSize ← Decode.varint
  let compression ← Decode.varint
  let tag ← Decode.tag
  return { id, tag, size, offset := UInt32.ofNat offset.toInt.toNat,
           storage := .archived offset fullSize compression }

def registerRows (c : Cursor) : Nat → Step Halt Unit
  | 0 => return ()
  | count + 1 =>
    match readRow c with
    | .error cause _ => throw (.failed (.unreadable cause))
    | .ok entry c => do
      Step.register entry
      registerRows c count

/-- Registers the rows of a map, which follow two unused numbers and their count. -/
def readRows (data : ByteArray) (order : ByteOrder) : Step Halt Unit :=
  match (do let _ ← Decode.varint; let _ ← Decode.varint; Decode.varint : Decode UInt32)
      { data, order } with
  | .error cause _ => throw (.failed (.unreadable cause))
  | .ok count c => do
    Step.note (.archiveRows count)
    registerRows c count.toNat

/-- Stores at most `count` records of the initial load segment, each a resource id and as many bytes
as the resource has. A bad record ends the segment. -/
def storeSegments (c : Cursor) (resources : Container) : Nat → Container × List Note
  | 0 => (resources, [])
  | count + 1 =>
    if c.atEnd then (resources, [])
    else match Decode.varint c with
      | .error cause _ => (resources, [.segmentIdCut cause])
      | .ok number c =>
        let id := number.toInt32
        match resources.find? id with
        | none => (resources, [.segmentUnmapped id])
        | some entry => match Decode.bytes entry.size.toNat c with
          | .error cause _ => (resources, [.segmentCut id cause])
          | .ok bytes c => storeSegments c (resources.setSegment id bytes) count

/-- Stores the records of the initial load segment, of which there are no more than bytes. -/
def readSegments (data : ByteArray) (order : ByteOrder) : Step Halt Unit := do
  let (resources, notes) := storeSegments { data, order } (← get).resources data.size
  modify fun s => { s with resources }
  Step.noteAll notes

/-- Resource id of the initial load segment. -/
def initialSegment : Int32 := 2

/-- The rows of the map, compressed or not. -/
def readMapBody : Step Halt ByteArray := do
  let length := (← readAs Decode.varint).toNat
  let stop := (← get).cursor.pos + length
  let mode ← readAs Decode.varint
  let fullLength := (← readAs Decode.varint).toNat
  let stored ← readAs (Decode.bytes (stop - (← get).cursor.pos))
  let rows ← if mode = 0 then pure stored else require (Inflate.inflate stored (some fullLength))
  if rows.size ≠ fullLength then Step.note (.archiveLength fullLength rows.size)
  return rows

def readSchemePart (order : ByteOrder) : Step Halt Unit := do
  expect .descriptors
  let length ← readAs Decode.varint
  readDescriptors utf8Name (← readAs (Decode.inflated length.toNat)) order

def readMapPart (order : ByteOrder) : Step Halt Unit := do
  expect .archiveMap
  readRows (← readMapBody) order

/-- Stores the initial load segment, which stands at the start of the body. -/
def readSegmentPart (version : UInt32) (versionText : Option String) (order : ByteOrder) :
    Step Halt Archive := do
  expect .segments
  let _ ← readAs Decode.varint
  let bodyOffset := (← get).cursor.pos
  match (← get).resources.find? initialSegment with
  | none => throw (.failed .initialSegmentAbsent)
  | some entry =>
    let fullSize := match entry.storage with
      | .archived _ fullSize _ => fullSize.toNat
      | .chunk => 0
    let stored ← readAs (Decode.bytes entry.size.toNat)
    readSegments (← require (Inflate.inflate stored (some fullSize))) order
    return { version, versionText, bodyOffset }

/-- Everything after the version record. -/
def readTables (version : UInt32) (versionText : Option String) : Step Halt Archive := do
  let order := (← get).cursor.order
  readSchemePart order
  readMapPart order
  readSegmentPart version versionText order

/-- Reads the map of a block, which comes back with the versions found even when the rest of the map
is bad. What was registered by then stays. -/
def read (block : Block) : Step ε (Except Halt Archive × Block) := fun s =>
  let opening : EStateM Halt Opening Archive := do
    inSession (readAs (Decode.seek block.start))
    let (version, text) ← readVersion
    inSession (readTables version text)
  match opening { session := s, block } with
  | .ok archive o => .ok (.ok archive, o.block) o.session
  | .error halt o => .ok (.error halt, o.block) o.session

end Archive
end Shockwave
