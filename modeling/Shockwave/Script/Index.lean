import Shockwave.Note

/-!
Script indexes: which scripts belong together, and the name table that they share.
-/
namespace Shockwave

structure IndexRow where
  unknown0 : Int32
  scriptId : Int32
  unknown1 : UInt16
  unknown2 : UInt16
  deriving DecidableEq, Repr

structure ScriptIndex where
  entryCount : UInt32
  namesId : Int32
  validCount : UInt16
  flags : UInt16
  freePointer : Int16
  rows : List IndexRow
  deriving DecidableEq, Repr

namespace ScriptIndex

def headerSize : Nat := 42

def rowSize : Nat := 12

/-- At most `count` rows, as long as a whole one is left. -/
def readRows : Nat → Decode (List IndexRow)
  | 0 => return []
  | count + 1 => do
    if (← Decode.remaining) < rowSize then return []
    let unknown0 ← Decode.i32
    let scriptId ← Decode.i32
    let unknown1 ← Decode.u16
    let unknown2 ← Decode.u16
    return { unknown0, scriptId, unknown1, unknown2 } :: (← readRows count)

/-- Reads the index that fills a stream. -/
def read : Decode ScriptIndex := do
  Decode.setOrder .big
  Decode.seek 0
  Decode.require headerSize
  Decode.jump 8
  let entryCount ← Decode.u32
  Decode.jump 16
  let offset ← Decode.u16
  Decode.jump 32
  let namesId ← Decode.i32
  let validCount ← Decode.u16
  let flags ← Decode.u16
  let freePointer ← Decode.i16
  Decode.seek offset.toNat
  let rows ← readRows entryCount.toNat
  return { entryCount, namesId, validCount, flags, freePointer, rows }

/-- Ids of the scripts, without the unused slots. -/
def scriptIds (index : ScriptIndex) : List Int32 :=
  (index.rows.map (·.scriptId)).filter (0 < ·)

/-- What there is to say about rows that are not there. -/
def notes (index : ScriptIndex) : List Note :=
  if index.rows.length < index.entryCount.toNat then
    [.indexRowsCut index.entryCount.toNat index.rows.length]
  else []

end ScriptIndex
end Shockwave
