import Shockwave.Note
import Shockwave.Resource.Entry

/-!
The key table of a classic movie: links from resources to their owners, in rows of at least twelve
bytes that are read while they fit in the chunk.
-/
namespace Shockwave

structure KeyTable where
  entrySize : UInt16
  entrySizeAgain : UInt16
  entryCount : UInt32
  usedCount : UInt32
  links : List Link
  deriving DecidableEq, Repr

namespace KeyTable

def minRowSize : Nat := 12

/-- At most `count` rows of a size, none past the end given. -/
def rows (stop rowSize : Nat) : Nat → Decode (List Link)
  | 0 => return []
  | count + 1 => do
    let start ← Decode.pos
    if stop < start + rowSize then return []
    let child ← Decode.i32
    let parent ← Decode.i32
    let tag ← Decode.tag
    Decode.seek (start + rowSize)
    return { child, parent, tag } :: (← rows stop rowSize count)

/-- Reads the table in a chunk body of declared length. -/
def read (length : Nat) : Decode KeyTable := do
  let stop := min ((← Decode.pos) + length) (← get).size
  Decode.require 12
  let entrySize ← Decode.u16
  let entrySizeAgain ← Decode.u16
  let entryCount ← Decode.u32
  let usedCount ← Decode.u32
  let links ← rows stop (max entrySize.toNat minRowSize) entryCount.toNat
  return { entrySize, entrySizeAgain, entryCount, usedCount, links }

/-- What there is to say about rows that did not fit. -/
def notes (t : KeyTable) : List Note :=
  if t.links.length < t.entryCount.toNat then
    [.keyRowsCut t.entryCount.toNat t.links.length]
  else []

end KeyTable
end Shockwave
