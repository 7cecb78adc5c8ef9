import Shockwave.Script.Instruction

/-!
Handlers of a compiled script: a record with the places of the parts, then the parts.
-/
namespace Shockwave

structure Handler where
  nameId : Int16
  arguments : List UInt16
  locals : List UInt16
  globals : List UInt16
  code : List Instruction
  deriving DecidableEq, Repr

/-- A list of name ids at a position; an empty list is not looked up. -/
def Decode.nameIds (count offset : Nat) : Decode (List UInt16) := do
  if count = 0 then return []
  Decode.seek offset
  Decode.require (count * 2)
  Decode.times count Decode.u16

structure HandlerRecord where
  nameId : Int16
  vectorPos : UInt16
  codeLength : UInt32
  codeOffset : UInt32
  argumentCount : UInt16
  argumentOffset : UInt32
  localCount : UInt16
  localOffset : UInt32
  globalCount : UInt16
  globalOffset : UInt32
  unknown1 : UInt32
  unknown2 : UInt16
  lineCount : UInt16
  lineOffset : UInt32
  stackHeight : UInt32
  deriving DecidableEq, Repr

namespace HandlerRecord

/-- Reads a record; the stack height is part of it from version 850 on. -/
def read (version : Nat) : Decode HandlerRecord := do
  let nameId ← Decode.i16
  let vectorPos ← Decode.u16
  let codeLength ← Decode.u32
  let codeOffset ← Decode.u32
  let argumentCount ← Decode.u16
  let argumentOffset ← Decode.u32
  let localCount ← Decode.u16
  let localOffset ← Decode.u32
  let globalCount ← Decode.u16
  let globalOffset ← Decode.u32
  let unknown1 ← Decode.u32
  let unknown2 ← Decode.u16
  let lineCount ← Decode.u16
  let lineOffset ← Decode.u32
  let stackHeight ← if 850 ≤ version then Decode.u32 else pure 0
  return { nameId, vectorPos, codeLength, codeOffset, argumentCount, argumentOffset, localCount,
           localOffset, globalCount, globalOffset, unknown1, unknown2, lineCount, lineOffset,
           stackHeight }

/-- Reads the parts that a record points at. -/
def readParts (r : HandlerRecord) : Decode Handler := do
  let code ← Instruction.readSpan r.codeOffset.toNat r.codeLength.toNat
  let arguments ← Decode.nameIds r.argumentCount.toNat r.argumentOffset.toNat
  let locals ← Decode.nameIds r.localCount.toNat r.localOffset.toNat
  let globals ← Decode.nameIds r.globalCount.toNat r.globalOffset.toNat
  return { nameId := r.nameId, arguments, locals, globals, code }

end HandlerRecord
end Shockwave
