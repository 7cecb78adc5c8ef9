import Shockwave.Bytes.Order

/-!
Double-precision numbers as their 64 bits. A finite number is a whole significand times a power of
two; building one from such a product rounds to the nearest number, halves to the even one.
-/
namespace Shockwave

structure Binary64 where
  bits : UInt64
  deriving DecidableEq, Repr, Inhabited

namespace Binary64

/-- Sign, exponent field and fraction field. -/
def assemble (negative : Bool) (magnitude : Nat) : Binary64 :=
  ⟨UInt64.ofNat (magnitude + if negative then 0x8000000000000000 else 0)⟩

def negative (x : Binary64) : Bool := x.bits.toNat.testBit 63

def exponentField (x : Binary64) : Nat := (x.bits.toNat >>> 52) % 0x800

def fractionField (x : Binary64) : Nat := x.bits.toNat % 0x10000000000000

def zero : Binary64 := ⟨0⟩

/-- Bits of infinity without its sign. -/
def infinite : Nat := 2047 <<< 52

def infinity (negative : Bool) : Binary64 := assemble negative infinite

def nan : Binary64 := assemble false (infinite + 0x8000000000000)

def isFinite (x : Binary64) : Bool := x.exponentField < 2047

def isNaN (x : Binary64) : Bool := x.exponentField == 2047 && x.fractionField != 0

/-- Whole significand of a finite number. -/
def significand (x : Binary64) : Nat :=
  if x.exponentField = 0 then x.fractionField else 0x10000000000000 + x.fractionField

/-- Power of two that goes with the significand. -/
def scale (x : Binary64) : Int :=
  (max x.exponentField 1 : Nat) - 1075

/-- Quotient by a power of two, rounded to nearest, halves to even. -/
def shiftRight (n places : Nat) : Nat :=
  let divisor := 1 <<< places
  let quotient := n / divisor
  let twice := 2 * (n % divisor)
  if divisor < twice ∨ (twice = divisor ∧ quotient % 2 = 1) then quotient + 1 else quotient

/-- The number nearest to `m * 2 ^ e`. -/
def ofScaled (negative : Bool) (m : Nat) (e : Int) : Binary64 :=
  if m = 0 then assemble negative 0
  else
    let unit := max (e + Nat.log2 m - 52) (-1074)
    let m := if e ≤ unit then shiftRight m (unit - e).toNat else m <<< (e - unit).toNat
    assemble negative (min (((unit + 1074).toNat <<< 52) + m) infinite)

/-- The number with the given single-precision bits. -/
def ofSingle (bits : Nat) : Binary64 :=
  let negative := bits.testBit 31
  let exponent : Nat := (bits >>> 23) % 0x100
  let fraction := bits % 0x800000
  if exponent = 255 then if fraction = 0 then infinity negative else nan
  else if exponent = 0 then ofScaled negative fraction (-149)
  else ofScaled negative (0x800000 + fraction) (exponent - 150)

/-- The number in the ten bytes of the extended format: sign and 15 bits of exponent, then a whole
significand of 64 bits. Powers of two that a double cannot hold become zero or infinity first. -/
def ofExtended (bytes : List UInt8) : Binary64 :=
  let head := ByteOrder.bigValue (bytes.take 2)
  let m := ByteOrder.bigValue (bytes.drop 2)
  let negative := head.testBit 15
  let exponent : Nat := head % 0x8000
  let scale : Int := exponent - 16446
  if exponent = 0 ∧ m = 0 then zero
  else if exponent = 0x7FFF then if m % 0x8000000000000000 = 0 then infinity negative else nan
  else if scale ≤ -1024 then assemble negative 0
  else if 1024 ≤ scale then if m = 0 then nan else infinity negative
  else ofScaled negative m scale

/-- Whole part of the magnitude of a finite number. -/
def wholePart (x : Binary64) : Nat :=
  if 0 ≤ x.scale then x.significand <<< x.scale.toNat else x.significand >>> (-x.scale).toNat

def isWhole (x : Binary64) : Bool :=
  0 ≤ x.scale || x.significand % (1 <<< (-x.scale).toNat) == 0

/-- The number without its fraction, moved into range; zero for what is not a number. -/
def toInt32 (x : Binary64) : Int32 :=
  if x.isNaN then 0
  else
    let magnitude := if x.isFinite then x.wholePart else 0x80000000
    Int32.ofInt (if x.negative then max (-magnitude) (-0x80000000) else min magnitude 0x7FFFFFFF)

end Binary64
end Shockwave
