import Shockwave.Bytes.Cursor
import Shockwave.Lingo.Datum

/-!
The literal pool of a compiled script. Whole numbers are kept in the record itself; strings and
floating-point numbers lie behind a length in the data area.
-/
namespace Shockwave

inductive LiteralKind where
  | string
  | int
  | float
  deriving DecidableEq, Repr

def LiteralKind.ofCode? (code : UInt32) : Option LiteralKind :=
  if code = 1 then some .string
  else if code = 4 then some .int
  else if code = 9 then some .float
  else none

structure LiteralRecord where
  code : UInt32
  offset : UInt32
  deriving DecidableEq, Repr

namespace LiteralRecord

def kind? (r : LiteralRecord) : Option LiteralKind := LiteralKind.ofCode? r.code

/-- Reads a record; its kind has two bytes before version 500 and four from then on. -/
def read (version : Nat) : Decode LiteralRecord := do
  let code ← if 500 ≤ version then Decode.u32 else UInt16.toUInt32 <$> Decode.u16
  return { code, offset := ← Decode.u32 }

/-- A floating-point number of eight or ten bytes, most significant first; another length gives
zero. -/
def readFloat (length : Nat) : Decode Binary64 := do
  if length = 8 then
    return ⟨UInt64.ofNat (ByteOrder.bigValue (octets (← Decode.bytes 8)))⟩
  else if length = 10 then return .ofExtended (octets (← Decode.bytes 10))
  else return .zero

/-- Reads the value of a record; the length of a string counts a final zero byte. -/
def readValue (dataOffset : Nat) (r : LiteralRecord) : Decode Datum := do
  let start := further dataOffset r.offset.toNat
  match r.kind? with
  | none => return .void
  | some .int => return .int r.offset.toInt32
  | some .string =>
    Decode.seek start
    let length ← Decode.u32
    return .string (← Decode.latin1 (length.toNat - 1))
  | some .float =>
    Decode.seek start
    let length ← Decode.u32
    return .float (← readFloat length.toNat)

end LiteralRecord
end Shockwave
