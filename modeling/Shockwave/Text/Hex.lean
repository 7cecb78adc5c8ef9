/-!
Hexadecimal text in lower case, marked by `0x`.
-/
namespace Shockwave.Hex

def digits (n : Nat) : String := String.ofList (Nat.toDigits 16 n)

/-- A number with as many digits as it needs. -/
def number (n : Nat) : String := s!"0x{digits n}"

/-- A byte with two digits. -/
def byte (b : UInt8) : String :=
  if b < 16 then s!"0x0{digits b.toNat}" else number b.toNat

end Shockwave.Hex
