import Shockwave.Bytes.Cursor

/-!
The initial map of a classic movie, which names its versions and the place of the memory map.
-/
namespace Shockwave

structure InitialMap where
  length : UInt32
  mapVersion : UInt32
  mapOffset : UInt32
  archiveVersion : UInt32
  deriving DecidableEq, Repr

def InitialMap.read : Decode InitialMap := do
  Decode.require 16
  let length ← Decode.u32
  let mapVersion ← Decode.u32
  let mapOffset ← Decode.u32
  let archiveVersion ← Decode.u32
  return { length, mapVersion, mapOffset, archiveVersion }

end Shockwave
