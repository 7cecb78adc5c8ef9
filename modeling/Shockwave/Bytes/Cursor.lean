import Shockwave.Tag
import Shockwave.Text.Latin1

/-!
A cursor over a byte stream and the elementary reads. A read that fails says why and leaves the
cursor wherever it had got to; reads that check their whole extent first fail without moving.
-/
namespace Shockwave

structure Cursor where
  data : ByteArray
  pos : Nat := 0
  order : ByteOrder := .big

namespace Cursor

def size (c : Cursor) : Nat := c.data.size

def remaining (c : Cursor) : Nat := c.size - c.pos

def atEnd (c : Cursor) : Bool := c.size ≤ c.pos

/-- The same stream with the position and byte order of an earlier moment. -/
def backTo (c earlier : Cursor) : Cursor :=
  { c with pos := earlier.pos, order := earlier.order }

/-- The `n` bytes that follow, fewer at the end of the stream. -/
def peek (c : Cursor) (n : Nat) : ByteArray := c.data.extract c.pos (c.pos + n)

end Cursor

/-- The position `n` bytes further on. Positions have 64 bits, and a sum stops at the last of them. -/
def further (pos n : Nat) : Nat := min (pos + n) 0xFFFFFFFFFFFFFFFF

/-- The list of bytes in an array. -/
def octets (bytes : ByteArray) : List UInt8 := bytes.data.toList

/-- The first index from `i` on whose byte passes the test, or the first index past the end. -/
def scanFrom (data : ByteArray) (test : UInt8 → Bool) (i : Nat) : Nat :=
  if h : i < data.size then
    if test data[i] then i else scanFrom data test (i + 1)
  else i
termination_by data.size - i

/-- Why a read failed. -/
inductive ReadError where
  /-- The stream is too short for the bytes wanted at a position. -/
  | outOfRange (wanted pos size : Nat)
  /-- A word, or a run of bytes, does not fit before the end of the stream. -/
  | shortWord (width pos : Nat)
  /-- A memory map declares a header smaller than its fixed fields. -/
  | headerTooSmall (size : Nat)
  /-- A compressed stream breaks the rules of its format. -/
  | corruptStream
  /-- A compressed stream stops before its end. -/
  | incompleteStream
  deriving DecidableEq, Repr

def ReadError.message : ReadError → String
  | .outOfRange wanted pos size =>
    s!"wanted {wanted} bytes at {pos} but stream is {size} bytes long"
  | .shortWord width pos => s!"failed to read {width} bytes from offset {pos}"
  | .headerTooSmall size => s!"mmap header size {size} is too small"
  | .corruptStream => "corrupt deflate stream"
  | .incompleteStream => "incomplete deflate stream"

/-- A read from a cursor. The cursor is kept when the read fails. -/
abbrev Decode := EStateM ReadError Cursor

namespace Decode

def cursor : Decode Cursor := get

def pos : Decode Nat := return (← get).pos

def remaining : Decode Nat := return (← get).remaining

/-- Fails unless `n` more bytes are there. -/
def require (n : Nat) : Decode Unit := fun c =>
  if c.remaining < n then .error (.outOfRange n c.pos c.size) c else .ok () c

/-- Moves to a position of the stream, its end included. -/
def seek (p : Nat) : Decode Unit := fun c =>
  if c.size < p then .error (.outOfRange 0 p c.size) c else .ok () { c with pos := p }

/-- Moves anywhere, without a look at the size of the stream. -/
def jump (p : Nat) : Decode Unit := modify ({ · with pos := p })

def skip (n : Nat) : Decode Unit := do
  require n
  modify fun c => { c with pos := c.pos + n }

/-- Steps over the padding byte at an odd position inside the stream. -/
def alignEven : Decode Unit := modify fun c =>
  if c.pos % 2 = 1 ∧ c.pos < c.size then { c with pos := c.pos + 1 } else c

def setOrder (order : ByteOrder) : Decode Unit := modify ({ · with order })

/-- The `width` bytes that follow. None at all can be taken, but not beyond the end. -/
def take (width : Nat) : Decode ByteArray := fun c =>
  if c.size < c.pos + width then .error (.shortWord width c.pos) c
  else .ok (c.peek width) { c with pos := c.pos + width }

/-- A word of `width` bytes in the cursor's byte order. -/
def word (width : Nat) : Decode Nat := do
  let raw ← take width
  return (← get).order.value (octets raw)

def u8 : Decode UInt8 := return UInt8.ofNat (← word 1)

def u16 : Decode UInt16 := return UInt16.ofNat (← word 2)

def u32 : Decode UInt32 := return UInt32.ofNat (← word 4)

def i16 : Decode Int16 := return (← u16).toInt16

def i32 : Decode Int32 := return (← u32).toInt32

def tag : Decode Tag := do
  require 4
  return ⟨← u32⟩

def bytes (n : Nat) : Decode ByteArray := do
  require n
  take n

def latin1 (n : Nat) : Decode String :=
  return Latin1.decode (octets (← bytes n))

/-- Moves past the first byte that passes the test and returns the bytes up to and with it. When no
byte passes, the cursor is left at the end of the stream. -/
def through (test : UInt8 → Bool) : Decode ByteArray := fun c =>
  let stop := scanFrom c.data test c.pos
  if stop < c.size then .ok (c.data.extract c.pos (stop + 1)) { c with pos := stop + 1 }
  else .error (.outOfRange 1 stop c.size) { c with pos := stop }

/-- The value of seven-bit groups, first group on top, modulo `2 ^ 32`. -/
def groupValue (groups : List UInt8) : UInt32 :=
  groups.foldl (fun value byte => value * 128 + UInt32.ofNat (byte.toNat % 128)) 0

/-- A number in seven-bit groups; the last one is the first whose high bit is clear. -/
def varint : Decode UInt32 :=
  return groupValue (octets (← through (· < 0x80)))

/-- Latin-1 text up to a zero byte, which is consumed. -/
def zeroTerminated : Decode String :=
  return Latin1.decode (octets (← through (· == 0))).dropLast

/-- Latin-1 text behind a length byte. -/
def counted : Decode String := do
  require 1
  latin1 (← u8).toNat

/-- The same read `n` times over. -/
def times : Nat → Decode α → Decode (List α)
  | 0, _ => return []
  | n + 1, read => do
    let first ← read
    return first :: (← times n read)

/-- Runs a read over a stream of its own. -/
def run (read : Decode α) (data : ByteArray) (order : ByteOrder := .big) : Except ReadError α :=
  match read { data, order } with
  | .ok a _ => .ok a
  | .error e _ => .error e

end Decode
end Shockwave
