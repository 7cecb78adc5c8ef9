import Shockwave.Bytes.Cursor

/-!
The source text and name kept in the info block of a script member. Two layouts are in use and the
block does not say which, so both are tried.
-/
namespace Shockwave

/-- Where the text starts. -/
inductive InfoLayout where
  /-- At a position stored further on. -/
  | pointer
  /-- Right after its length. -/
  | legacy
  deriving DecidableEq, Repr

def InfoLayout.name : InfoLayout → String
  | .pointer => "PointerTable"
  | .legacy => "LegacyTextAfterLength"

structure ScriptInfo where
  layout : InfoLayout
  number : Int32
  text : String
  name : String
  deriving DecidableEq, Repr

namespace ScriptInfo

/-- The bytes from `start` up to `stop`, if the block has them all. -/
def slice? (info : ByteArray) (start stop : Nat) : Option (List UInt8) :=
  if start ≤ stop ∧ stop ≤ info.size then some (octets (info.extract start stop)) else none

def isTextByte (byte : UInt8) : Bool :=
  0x20 ≤ byte || byte == 9 || byte == 13 || byte == 10

def isNameByte (byte : UInt8) : Bool := 0x20 ≤ byte

/-- Start of the text. A stored position inside the fixed part of the block is no start. -/
def textStart? (info : ByteArray) : InfoLayout → Option Nat
  | .legacy => some 0x21
  | .pointer => do
    let start := ByteOrder.bigValue (← slice? info 0x68 0x6A)
    if start < 0x6A then none else some start

/-- The text and name under one layout: the text, a length byte, the name. -/
def decode? (info : ByteArray) (layout : InfoLayout) : Option ScriptInfo := do
  let length := ByteOrder.value .little (← slice? info 0x1D 0x21)
  let start ← textStart? info layout
  let stop := start + length
  let text ← slice? info start stop
  let nameLength := ByteOrder.bigValue (← slice? info stop (stop + 1))
  let name ← slice? info (stop + 1) (stop + 1 + nameLength)
  guard (text.all isTextByte && name.all isNameByte)
  let number := ByteOrder.bigValue (← slice? info 16 20)
  return { layout, number := (UInt32.ofNat number).toInt32, text := Latin1.decode text,
           name := Latin1.decode name }

/-- Size of text and name as UTF-8. -/
def weight (info : ScriptInfo) : Nat := info.text.utf8ByteSize + info.name.utf8ByteSize

/-- Archive versions whose movies use the pointer layout. -/
def prefersPointer (archiveVersion : UInt32) : Bool :=
  0x400 ≤ archiveVersion && archiveVersion ≤ 0x7FF

/-- Of the results under the two layouts the only one. When there are both, the heavier is taken, or
the one that the archive version speaks for, and the flag is set. -/
def choose? (archiveVersion : UInt32) :
    Option ScriptInfo → Option ScriptInfo → Option (ScriptInfo × Bool)
  | some pointer, none => some (pointer, false)
  | none, some legacy => some (legacy, false)
  | none, none => none
  | some pointer, some legacy =>
    let takePointer :=
      if pointer.weight = legacy.weight then prefersPointer archiveVersion
      else legacy.weight < pointer.weight
    some (if takePointer then pointer else legacy, true)

def detect? (info : ByteArray) (archiveVersion : UInt32) : Option (ScriptInfo × Bool) :=
  choose? archiveVersion (decode? info .pointer) (decode? info .legacy)

end ScriptInfo
end Shockwave
