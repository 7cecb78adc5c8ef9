import Shockwave.Bytes.Source
import Shockwave.Inflate.Block

/-!
Zlib streams: a two-byte header, deflate blocks, and a checksum of the data. A stream can be read up
to a limit, which forgives a missing tail; damage it forgives only beyond the window of the limit.
-/
namespace Shockwave.Inflate

/-- The byte at a distance back from the end. The data counts as preceded by zeros. -/
def byteBack (out : ByteArray) (distance : Nat) : UInt8 :=
  if h : 0 < distance ∧ distance ≤ out.size then out[out.size - distance] else 0

/-- Repeats the byte at a distance back, over and over. -/
def copyBack (distance : Nat) : Nat → ByteArray → ByteArray
  | 0, out => out
  | n + 1, out => copyBack distance n (out.push (byteBack out distance))

/-- Output with that of one more token. -/
def Token.expand (out : ByteArray) : Token → ByteArray
  | .literal byte => out.push byte
  | .copy length distance => copyBack distance length out

def expand (tokens : List Token) : ByteArray :=
  tokens.foldl Token.expand .empty

/-- Sum of the bytes plus one in the low half, sum of those sums in the high half, both modulo the
largest prime below `2 ^ 16`. -/
def checksum (bytes : ByteArray) : Nat :=
  let (low, high) := bytes.foldl
    (fun (low, high) byte =>
      let low := (low + byte.toNat) % 65521
      (low, (high + low) % 65521))
    (1, 0)
  high * 65536 + low

/-- Deflate with a window of at most 32 KiB, no preset dictionary, and a header that is a multiple
of 31. -/
def validHeader (first second : UInt8) : Bool :=
  first.toNat % 16 == 8 && first.toNat / 16 ≤ 7 && !second.toNat.testBit 5 &&
    (first.toNat * 256 + second.toNat) % 31 == 0

/-- How far a stream could be decoded, with the data up to there. -/
inductive Outcome where
  | complete (data : ByteArray)
  | truncated (data : ByteArray)
  | corrupt (data : ByteArray)

/-- Whether the checksum that follows the blocks is there and right. -/
def trailer (stream : ByteArray) (rest : Bits) (data : ByteArray) : Outcome :=
  let start := rest.align.used / 8
  let stored := octets (stream.extract start (start + 4))
  if stored.length < 4 then .truncated data
  else if ByteOrder.bigValue stored = checksum data then .complete data
  else .corrupt data

def decode (stream : ByteArray) : Outcome :=
  match octets (stream.extract 0 2) with
  | [first, second] =>
    if validHeader first second then
      let progress := blocks #[] { data := stream, used := 16 }
      let data := expand progress.tokens.toList
      match progress.rest with
      | .error .corrupt => .corrupt data
      | .error .truncated => .truncated data
      | .ok rest => trailer stream rest data
    else .corrupt .empty
  | _ => .truncated .empty

/-- Data that is handed out in order, up to its end or a failure. -/
structure Supply where
  data : ByteArray
  pos : Nat := 0
  failure : Option ReadError := none

namespace Supply

def windowSize : Nat := 0x8000

/-- Windows are decoded as a whole, so damage costs all the data of its window. -/
def ofStream (stream : ByteArray) : Supply :=
  match decode stream with
  | .complete data => { data }
  | .truncated data => { data, failure := some .incompleteStream }
  | .corrupt data =>
    { data := data.extract 0 (data.size / windowSize * windowSize)
      failure := some .corruptStream }

def read (room : Nat) : EStateM ReadError Supply ByteArray := fun s =>
  if s.pos < s.data.size then
    .ok (s.data.extract s.pos (s.pos + room)) { s with pos := s.pos + room }
  else match s.failure with
    | some e => .error e s
    | none => .ok .empty s

def source : Source Supply where
  read := read
  left s := s.data.size - s.pos
  size_le := by
    intro room s bytes t h
    unfold read at h
    split at h
    · cases h
      rw [ByteArray.size_extract]
      omega
    · split at h
      · cases h
      · cases h
        exact Nat.zero_le room
  left_lt := by
    intro room s bytes t h hsome
    unfold read at h
    split at h
    · cases h
      rw [ByteArray.size_extract] at hsome
      dsimp only
      omega
    · split at h
      · cases h
      · cases h
        exact absurd rfl hsome

end Supply

/-- The decoder of zlib streams. -/
def decoder : Decoder where
  State := Supply
  source := Supply.source
  start := Supply.ofStream

/-- The data of a stream, at most `limit` bytes of it. -/
def inflate (stream : ByteArray) (limit : Option Nat := none) : Except ReadError ByteArray :=
  decoder.expand .pages stream limit

end Inflate

/-- Reads `n` bytes and inflates them; the bytes are passed over even when they do not inflate. -/
def Decode.inflated (n : Nat) : Decode ByteArray := do
  match Inflate.inflate (← Decode.bytes n) with
  | .ok data => return data
  | .error e => throw e

end Shockwave
