import Shockwave.Bytes.Order

/-!
Class identifiers of compression schemes. A stored identifier is sixteen bytes; its first three
fields are words in either byte order.
-/
namespace Shockwave

structure Identifier where
  data1 : UInt32
  data2 : UInt16
  data3 : UInt16
  /-- The last eight bytes, which have no byte order. -/
  data4 : List UInt8
  deriving DecidableEq, Repr

namespace Identifier

def bytes (id : Identifier) (order : ByteOrder) : List UInt8 :=
  order.bytes 4 id.data1.toNat ++ order.bytes 2 id.data2.toNat ++ order.bytes 2 id.data3.toNat ++
    id.data4

/-- Whether stored bytes spell the identifier in one of the two byte orders. -/
def isSpelled (id : Identifier) (stored : List UInt8) : Bool :=
  id.bytes .big == stored || id.bytes .little == stored

def null : Identifier :=
  ⟨0xAC99982E, 0x005D, 0x0D50, [0x00, 0x00, 0x08, 0x00, 0x07, 0x37, 0x7A, 0x34]⟩

def zlib : Identifier :=
  ⟨0xAC99E904, 0x0070, 0x0B36, [0x00, 0x00, 0x08, 0x00, 0x07, 0x37, 0x7A, 0x34]⟩

def sound : Identifier :=
  ⟨0x7204A889, 0xAFD0, 0x11CF, [0xA2, 0x22, 0x00, 0xA0, 0x24, 0x53, 0x44, 0x4C]⟩

def fontMap : Identifier :=
  ⟨0x8A4679A1, 0x3720, 0x11D0, [0x92, 0x23, 0x00, 0xA0, 0xC9, 0x08, 0x68, 0xB1]⟩

end Identifier
end Shockwave
