import Shockwave.Proofs.Stream
import Shockwave.Script.Compiled

/-!
Compiled scripts as they are stored. The header gives the number and the place of each kind of
record, and the records give the places of the parts; all that counts is that each of them stands
where it is said to.
-/
namespace Shockwave

/-- The width of the operands of a code byte, and the numbers from the first bound up to the second
that are written so. -/
structure OperandForm where
  width : Nat
  low : Int
  high : Int

def OperandForm.ofByte (op : UInt8) : OperandForm :=
  if op < 0x40 then ⟨0, 0, 1⟩
  else if op < 0x80 then
    if Opcode.ofByte? op = some .pushInt8 then ⟨1, -0x80, 0x80⟩ else ⟨1, 0, 0x100⟩
  else if op < 0xC0 then
    if Opcode.ofByte? op = some .pushInt8 ∨ Opcode.ofByte? op = some .pushInt16 then
      ⟨2, -0x8000, 0x8000⟩
    else ⟨2, 0, 0x10000⟩
  else ⟨4, -0x80000000, 0x80000000⟩

structure Command where
  op : UInt8
  operand : Int
  low_le : (OperandForm.ofByte op).low ≤ operand
  lt_high : operand < (OperandForm.ofByte op).high

namespace Command

def width (c : Command) : Nat := (OperandForm.ofByte c.op).width

def word (c : Command) : Nat := (c.operand % ByteOrder.span c.width).toNat

def written (c : Command) : List UInt8 := c.op :: ByteOrder.big.bytes c.width c.word

@[simp] theorem length_written (c : Command) : c.written.length = c.width + 1 := by
  simp [written]

def placed (pos : Nat) : List Command → List Instruction
  | [] => []
  | c :: rest => .ofByte c.op c.operand pos :: placed (pos + c.written.length) rest

end Command

def idsWritten (ids : List UInt16) : List UInt8 := ids.flatMap (ByteOrder.big.bytes 2 ·.toNat)

def IdsAt (data : ByteArray) (offset : UInt32) (ids : List UInt16) : Prop :=
  ids = [] ∨ Holds data offset.toNat (idsWritten ids)

def extentWritten (count : Nat) (offset : UInt32) : List UInt8 :=
  ByteOrder.big.bytes 2 count ++ ByteOrder.big.bytes 4 offset.toNat

/-- A handler to be stored: its parts, where they are, and what else is in its record. -/
structure HandlerLayout where
  nameId : Int16
  code : List Command
  arguments : List UInt16
  locals : List UInt16
  globals : List UInt16
  codeOffset : UInt32
  argumentOffset : UInt32
  localOffset : UInt32
  globalOffset : UInt32
  vectorPos : UInt16
  unknown1 : UInt32
  unknown2 : UInt16
  lineCount : UInt16
  lineOffset : UInt32
  stackHeight : UInt32
  code_fits : (code.flatMap Command.written).length < 0x100000000
  arguments_fit : arguments.length < 0x10000
  locals_fit : locals.length < 0x10000
  globals_fit : globals.length < 0x10000

namespace HandlerLayout

variable (m : HandlerLayout)

def codeWritten : List UInt8 := m.code.flatMap Command.written

def recordWritten (version : Nat) : List UInt8 :=
  ByteOrder.big.bytes 2 m.nameId.toUInt16.toNat ++ (ByteOrder.big.bytes 2 m.vectorPos.toNat ++
    (ByteOrder.big.bytes 4 m.codeWritten.length ++ (ByteOrder.big.bytes 4 m.codeOffset.toNat ++
    (extentWritten m.arguments.length m.argumentOffset ++
    (extentWritten m.locals.length m.localOffset ++
    (extentWritten m.globals.length m.globalOffset ++
    (ByteOrder.big.bytes 4 m.unknown1.toNat ++ (ByteOrder.big.bytes 2 m.unknown2.toNat ++
    (extentWritten m.lineCount.toNat m.lineOffset ++
    (if 850 ≤ version then ByteOrder.big.bytes 4 m.stackHeight.toNat else []))))))))))

theorem length_recordWritten (version : Nat) :
    (m.recordWritten version).length = if 850 ≤ version then 46 else 42 := by
  unfold recordWritten extentWritten
  split <;> simp

structure Stored (data : ByteArray) : Prop where
  code : Holds data m.codeOffset.toNat m.codeWritten
  arguments : IdsAt data m.argumentOffset m.arguments
  locals : IdsAt data m.localOffset m.locals
  globals : IdsAt data m.globalOffset m.globals

def handler : Handler :=
  { nameId := m.nameId, arguments := m.arguments, locals := m.locals, globals := m.globals
    code := Command.placed 0 m.code }

end HandlerLayout

/-- A literal to be stored; a whole number is kept in the place of an offset. -/
inductive LiteralLayout where
  | string (text : List Char) (offset : UInt32) (latin : ∀ c ∈ text, c.toNat < 256)
      (fits : text.length + 1 < 0x100000000)
  | int (value : Int32)
  | float (value : Binary64) (offset : UInt32)

namespace LiteralLayout

def code : LiteralLayout → UInt32
  | .string .. => 1
  | .int _ => 4
  | .float .. => 9

def slot : LiteralLayout → UInt32
  | .string _ offset _ _ => offset
  | .int value => value.toUInt32
  | .float _ offset => offset

def recordWritten (version : Nat) (l : LiteralLayout) : List UInt8 :=
  ByteOrder.big.bytes (if 500 ≤ version then 4 else 2) l.code.toNat ++
    ByteOrder.big.bytes 4 l.slot.toNat

theorem length_recordWritten (version : Nat) (l : LiteralLayout) :
    (l.recordWritten version).length = if 500 ≤ version then 8 else 6 := by
  unfold recordWritten
  split <;> simp

/-- What a literal has in the data area. The length of a string counts a final zero byte. -/
def dataWritten : LiteralLayout → List UInt8
  | .string text _ _ _ => ByteOrder.big.bytes 4 (text.length + 1) ++
      (text.map (UInt8.ofNat ·.toNat) ++ [0])
  | .int _ => []
  | .float value _ => ByteOrder.big.bytes 4 8 ++ ByteOrder.big.bytes 8 value.bits.toNat

def Stored (data : ByteArray) (dataOffset : UInt32) : LiteralLayout → Prop
  | .int _ => True
  | l => Holds data (dataOffset.toNat + l.slot.toNat) l.dataWritten

def datum : LiteralLayout → Datum
  | .string text _ _ _ => .string (String.ofList text)
  | .int value => .int value
  | .float value _ => .float value

end LiteralLayout

/-- A script to be stored, and where the kinds of records are. -/
structure ScriptLayout where
  number : UInt16
  parentNumber : UInt16
  flags : UInt32
  castId : UInt32
  factoryNameId : UInt16
  properties : List UInt16
  globals : List UInt16
  handlers : List HandlerLayout
  literals : List LiteralLayout
  propertyOffset : UInt32
  globalOffset : UInt32
  handlerOffset : UInt32
  literalOffset : UInt32
  dataOffset : UInt32
  properties_fit : properties.length < 0x10000
  globals_fit : globals.length < 0x10000
  handlers_fit : handlers.length < 0x10000
  literals_fit : literals.length < 0x10000

namespace ScriptLayout

variable (m : ScriptLayout)

/-- The stream holds the script. Bytes of the header that are not named here can be any. -/
structure Stored (version : Nat) (data : ByteArray) : Prop where
  number : Holds data 18 (ByteOrder.big.bytes 2 m.number.toNat)
  parentNumber : Holds data 22 (ByteOrder.big.bytes 2 m.parentNumber.toNat)
  flags : Holds data 38 (ByteOrder.big.bytes 4 m.flags.toNat)
  cast : Holds data 44
    (ByteOrder.big.bytes 4 m.castId.toNat ++ ByteOrder.big.bytes 2 m.factoryNameId.toNat)
  extents : Holds data 60 (extentWritten m.properties.length m.propertyOffset ++
    (extentWritten m.globals.length m.globalOffset ++
    (extentWritten m.handlers.length m.handlerOffset ++
    extentWritten m.literals.length m.literalOffset)))
  dataOffset : Holds data 88 (ByteOrder.big.bytes 4 m.dataOffset.toNat)
  properties : IdsAt data m.propertyOffset m.properties
  globals : IdsAt data m.globalOffset m.globals
  handlerRecords : Holds data m.handlerOffset.toNat (m.handlers.flatMap (·.recordWritten version))
  handlers : ∀ h ∈ m.handlers, h.Stored data
  literalRecords : Holds data m.literalOffset.toNat (m.literals.flatMap (·.recordWritten version))
  literals : ∀ l ∈ m.literals, l.Stored data m.dataOffset

def script : Script :=
  { number := m.number, parentNumber := m.parentNumber, flags := m.flags, castId := m.castId
    factoryNameId := m.factoryNameId, literals := m.literals.map (·.datum)
    handlers := m.handlers.map (·.handler), properties := m.properties, globals := m.globals }

end ScriptLayout
end Shockwave
