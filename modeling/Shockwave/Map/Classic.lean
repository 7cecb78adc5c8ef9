import Shockwave.Map.InitialMap
import Shockwave.Map.KeyTable
import Shockwave.Map.MemoryMap
import Shockwave.Session.State

/-!
The map of a classic movie. Its chunks lie one after the other at even positions; the walk over them
keeps the last initial map, memory map and key table, and stops at one of the maps that it cannot
read.
-/
namespace Shockwave

/-- The head of a chunk: eight bytes with its tag and the length of its body. -/
structure ChunkHead where
  pos : Nat
  tag : Tag
  length : Nat
  deriving DecidableEq, Repr

namespace ChunkHead

def body (c : ChunkHead) : Nat := c.pos + 8

/-- Position of the next chunk, after the body and its padding. -/
def next (c : ChunkHead) : Nat :=
  let stop := c.body + c.length
  stop + stop % 2

def parse (data : ByteArray) (order : ByteOrder) (pos : Nat) : ChunkHead :=
  let word (start : Nat) : Nat := order.value (octets (data.extract start (start + 4)))
  { pos, tag := ⟨UInt32.ofNat (word pos)⟩, length := word (pos + 4) }

def read : Decode (Tag × Nat) := do
  let tag ← Decode.tag
  Decode.require 4
  return (tag, (← Decode.u32).toNat)

end ChunkHead

/-- The heads from a position on that end by the given position. -/
def chunkChain (data : ByteArray) (order : ByteOrder) (stop pos : Nat) : List ChunkHead :=
  if pos + 8 ≤ stop then
    let head := ChunkHead.parse data order pos
    head :: chunkChain data order stop head.next
  else []
termination_by stop - pos
decreasing_by
  simp only [ChunkHead.next, ChunkHead.body, ChunkHead.parse]
  omega

structure ClassicMap where
  initial : Option InitialMap := none
  memory : Option MemoryMap := none
  keys : Option KeyTable := none
  deriving DecidableEq, Repr

namespace ClassicMap

variable {ε : Type}

/-- Reads the chunks of a chain that matter to the map. -/
def walk : List ChunkHead → ClassicMap → Step ε ClassicMap
  | [], map => return map
  | head :: rest, map => do
    let _ ← Step.attempt (Decode.jump head.body)
    if head.tag = .imap then
      match ← Step.attempt InitialMap.read with
      | .ok initial =>
        Step.note (.initialMap initial.mapVersion initial.archiveVersion initial.mapOffset)
        walk rest { map with initial := some initial }
      | .error e =>
        Step.note (.initialMapCut head.pos e)
        return map
    else if head.tag = .mmap then
      match ← Step.attempt (MemoryMap.read head.length) with
      | .ok memory =>
        Step.noteAll memory.notes
        walk rest { map with memory := some memory }
      | .error e =>
        Step.note (.memoryMapUnreadable head.pos e)
        return map
    else if head.tag = .keys then
      match ← Step.attempt (KeyTable.read head.length) with
      | .ok keys =>
        Step.noteAll keys.notes
        walk rest { map with keys := some keys }
      | .error e =>
        Step.note (.keyTableUnreadable head.pos e)
        walk rest map
    else walk rest map

/-- The memory map at the first of some positions that holds a chunk of its tag. -/
def memoryAmong (offset : Nat) : List Nat → Step ε (Option MemoryMap)
  | [] => do
    Step.note (.memoryMapAbsent offset)
    return none
  | candidate :: rest => do
    match ← Step.attempt (do Decode.seek candidate; ChunkHead.read) with
    | .ok (tag, length) =>
      if tag = .mmap then
        Step.note (.memoryMapFound candidate)
        match ← Step.attempt (MemoryMap.read length) with
        | .ok memory =>
          Step.noteAll memory.notes
          return some memory
        | .error _ => return none
      else memoryAmong offset rest
    | .error _ => memoryAmong offset rest

/-- The memory map that an initial map points at, counted from the start of the stream, of the
container, or of the chunks. -/
def memoryAt (offset start : Nat) : Step ε (Option MemoryMap) := do
  let candidates := [offset, further (← get).offset offset, further start offset].eraseDups
  Step.restoring (memoryAmong offset candidates)

/-- The memory map that a walk met, or else the one that its initial map points at. -/
def memoryOf (walked : ClassicMap) (start : Nat) : Step ε (Option MemoryMap) :=
  match walked.memory, walked.initial with
  | none, some initial => memoryAt initial.mapOffset.toNat start
  | memory, _ => return memory

def versions (map : ClassicMap) (format : Format) : Format :=
  match map.initial with
  | some initial =>
    { format with mapVersion := initial.mapVersion, archiveVersion := initial.archiveVersion }
  | none => format

/-- Reads the tables of the map of a block. -/
def readTables (block : Block) : Step ε ClassicMap := do
  let cursor := (← get).cursor
  let chain := chunkChain cursor.data cursor.order (min block.stop cursor.size) block.start
  let walked ← walk chain {}
  return { walked with memory := ← walked.memoryOf block.start }

/-- Reads the map of a block, which comes back with the versions found, and registers its rows and
links. -/
def read (block : Block) : Step ε (ClassicMap × Block) := do
  let map ← readTables block
  Step.registerAll (map.memory.elim [] (·.entries))
  Step.linkAll (map.keys.elim [] (·.links))
  return (map, { block with format := map.versions block.format })

end ClassicMap
end Shockwave
