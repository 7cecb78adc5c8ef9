import Shockwave.Bytes.Cursor
import Shockwave.Lingo.Opcode

/-!
Instructions of compiled handlers: a code byte and an operand whose width the byte tells. Operands
are unsigned, except those of four bytes and the small whole numbers to push.
-/
namespace Shockwave

structure Instruction where
  op : UInt8
  opcode? : Option Opcode
  operand : Int
  /-- Distance from the start of the handler's code. -/
  pos : Nat
  deriving DecidableEq, Repr

namespace Instruction

/-- The instruction that a code byte starts. -/
def ofByte (op : UInt8) (operand : Int) (pos : Nat) : Instruction :=
  { op, opcode? := Opcode.ofByte? op, operand, pos }

def operandWidth (op : UInt8) : Nat :=
  if 0xC0 ≤ op then 4 else if 0x80 ≤ op then 2 else if 0x40 ≤ op then 1 else 0

def isSigned (op : UInt8) : Bool :=
  match operandWidth op, Opcode.ofByte? op with
  | 4, _ | 2, some .pushInt8 | 2, some .pushInt16 | 1, some .pushInt8 => true
  | _, _ => false

/-- The operand that a stored word of the code byte's width stands for. -/
def operandOf (op : UInt8) (word : Nat) : Int :=
  if isSigned op then (word : Int).bmod (ByteOrder.span (operandWidth op)) else word

/-- Reads the instruction that stands at a distance from the start of its code. -/
def readAt (pos : Nat) : Decode Instruction := do
  let op ← Decode.u8
  let width := operandWidth op
  Decode.require width
  return ofByte op (operandOf op (← Decode.word width)) pos

/-- Reads one instruction of the code that starts at a position. -/
def read (start : Nat) : Decode Instruction := do readAt ((← Decode.pos) - start)

/-- At most `count` instructions, of which none starts at or after the end given. -/
def readUntil (start stop : Nat) : Nat → Decode (List Instruction)
  | 0 => return []
  | count + 1 => do
    if stop ≤ (← Decode.pos) then return []
    let first ← read start
    return first :: (← readUntil start stop count)

/-- The instructions that start in a span; no more of them than it has bytes. -/
def readSpan (offset length : Nat) : Decode (List Instruction) := do
  Decode.seek offset
  Decode.require length
  readUntil offset (offset + length) length

end Instruction
end Shockwave
