import Shockwave.Script.Handler
import Shockwave.Script.Literal

/-!
Compiled scripts: handlers with their code and the literals that the code refers to. They are stored
most significant byte first in every movie.
-/
namespace Shockwave

structure Script where
  number : UInt16 := 0
  parentNumber : UInt16 := 0
  flags : UInt32 := 0
  castId : UInt32 := 0
  factoryNameId : UInt16 := 0
  literals : List Datum := []
  handlers : List Handler := []
  properties : List UInt16 := []
  globals : List UInt16 := []
  deriving Repr, Inhabited

/-- The fixed part of a stored script, with the count and offset of each of its tables. -/
structure ScriptHead where
  number : UInt16
  parentNumber : UInt16
  flags : UInt32
  castId : UInt32
  factoryNameId : UInt16
  properties : Nat × Nat
  globals : Nat × Nat
  handlers : Nat × Nat
  literals : Nat × Nat
  dataOffset : Nat

namespace Script

def headerSize : Nat := 92

/-- A count of two bytes and an offset of four. -/
def readExtent : Decode (Nat × Nat) := do
  let count ← Decode.u16
  let offset ← Decode.u32
  return (count.toNat, offset.toNat)

/-- Reads a list of records, then the part that each of them points at. -/
def readTable (extent : Nat × Nat) (record : Decode ρ) (part : ρ → Decode α) : Decode (List α) := do
  Decode.seek extent.2
  let records ← Decode.times extent.1 record
  records.mapM part

def readHead : Decode ScriptHead := do
  Decode.setOrder .big
  Decode.seek 0
  Decode.require headerSize
  Decode.jump 18
  let number ← Decode.u16
  Decode.jump 22
  let parentNumber ← Decode.u16
  Decode.jump 38
  let flags ← Decode.u32
  Decode.jump 44
  let castId ← Decode.u32
  let factoryNameId ← Decode.u16
  Decode.jump 60
  let properties ← readExtent
  let globals ← readExtent
  let handlers ← readExtent
  let literals ← readExtent
  Decode.jump 88
  let dataOffset ← Decode.u32
  return { number, parentNumber, flags, castId, factoryNameId, properties, globals, handlers, literals,
           dataOffset := dataOffset.toNat }

/-- Reads the tables of a script from the places that its head gives. -/
def readTables (version : Nat) (head : ScriptHead) : Decode Script := do
  let properties ← Decode.nameIds head.properties.1 head.properties.2
  let globals ← Decode.nameIds head.globals.1 head.globals.2
  let handlers ← readTable head.handlers (HandlerRecord.read version) HandlerRecord.readParts
  let literals ← readTable head.literals (LiteralRecord.read version)
    (LiteralRecord.readValue head.dataOffset)
  return { number := head.number, parentNumber := head.parentNumber, flags := head.flags
           castId := head.castId, factoryNameId := head.factoryNameId, literals, handlers, properties
           globals }

/-- Reads the script that fills a stream. -/
def read (version : Nat) : Decode Script := do readTables version (← readHead)

end Script
end Shockwave
