import Shockwave.Note
import Shockwave.Resource.Entry

/-!
The memory map of a classic movie: a header of declared size, then one row of declared size per
resource. Rows are read while they fit in the chunk.
-/
namespace Shockwave

structure MemoryMap where
  headerSize : UInt16
  entrySize : UInt16
  totalCount : UInt32
  usedCount : UInt32
  freeListHead : Option UInt32
  freeListEnd : Option UInt32
  freeCount : Option UInt32
  entries : List Entry
  deriving DecidableEq, Repr

namespace MemoryMap

def minHeaderSize : Nat := 12

/-- A row whose missing fields are zero. -/
def entryOfRow (order : ByteOrder) (index : Nat) (row : List UInt8) : Entry :=
  let full := row ++ List.replicate (20 - row.length) 0
  let word (start width : Nat) : Nat := order.value ((full.drop start).take width)
  { id := Int32.ofNat index
    tag := ⟨UInt32.ofNat (word 0 4)⟩
    size := UInt32.ofNat (word 4 4)
    offset := UInt32.ofNat (word 8 4)
    flags := UInt16.ofNat (word 12 2)
    attributes := UInt16.ofNat (word 14 2)
    nextFree := UInt32.ofNat (word 16 4) }

/-- At most `count` rows of a size, numbered from `index` on, none past the end given. -/
def rows (stop entrySize index : Nat) : Nat → Decode (List Entry)
  | 0 => return []
  | count + 1 => do
    if stop < (← Decode.pos) + entrySize ∨ entrySize = 0 then return []
    let order := (← get).order
    let row ← Decode.bytes entrySize
    return entryOfRow order index (octets row) :: (← rows stop entrySize (index + 1) count)

/-- A header field that is there only if it ends by the given position. -/
def optionalField (stop : Nat) : Decode (Option UInt32) := do
  if (← Decode.pos) + 4 ≤ stop then return some (← Decode.u32) else return none

/-- Reads the map in a chunk body of declared length. -/
def read (length : Nat) : Decode MemoryMap := do
  let start ← Decode.pos
  let size := (← get).size
  Decode.require minHeaderSize
  let headerSize ← Decode.u16
  let entrySize ← Decode.u16
  let totalCount ← Decode.u32
  let usedCount ← Decode.u32
  if headerSize.toNat < minHeaderSize then throw (.headerTooSmall headerSize.toNat)
  let headerEnd := min (start + headerSize.toNat) size
  let freeListHead ← optionalField headerEnd
  let freeListEnd ← optionalField headerEnd
  let freeCount ← optionalField headerEnd
  Decode.seek headerEnd
  let entries ← rows (min (start + length) size) entrySize.toNat 0 totalCount.toNat
  return { headerSize, entrySize, totalCount, usedCount, freeListHead, freeListEnd, freeCount, entries }

/-- What there is to say about rows that did not fit. -/
def notes (m : MemoryMap) : List Note :=
  if m.entries.length < m.totalCount.toNat then
    [.memoryRowsCut m.totalCount.toNat m.entries.length]
  else []

end MemoryMap
end Shockwave
