/-!
Byte order of stored words. Both readings go through the value of a byte list, most significant
byte first; the little-endian one reads the list backwards.
-/
namespace Shockwave

inductive ByteOrder where
  | big
  | little
  deriving DecidableEq, Repr, Inhabited

namespace ByteOrder

/-- Value of a byte list, most significant byte first. -/
def bigValue (bytes : List UInt8) : Nat :=
  bytes.foldl (fun value byte => value * 256 + byte.toNat) 0

def value : ByteOrder → List UInt8 → Nat
  | .big, bytes => bigValue bytes
  | .little, bytes => bigValue bytes.reverse

/-- The low `8 * width` bits of a number, most significant byte first. -/
def bigBytes : Nat → Nat → List UInt8
  | 0, _ => []
  | width + 1, n => bigBytes width (n / 256) ++ [UInt8.ofNat n]

def bytes : ByteOrder → Nat → Nat → List UInt8
  | .big, width, n => bigBytes width n
  | .little, width, n => (bigBytes width n).reverse

/-- How many numbers so many bytes can hold. -/
def span : Nat → Nat
  | 0 => 1
  | width + 1 => 256 * span width

@[simp] theorem bigValue_nil : bigValue [] = 0 := rfl

@[simp] theorem bigValue_concat (bytes : List UInt8) (byte : UInt8) :
    bigValue (bytes ++ [byte]) = bigValue bytes * 256 + byte.toNat := by
  simp [bigValue]

@[simp] theorem length_bigBytes (width n : Nat) : (bigBytes width n).length = width := by
  induction width generalizing n with
  | zero => rfl
  | succ width ih => simp [bigBytes, ih]

@[simp] theorem length_bytes (order : ByteOrder) (width n : Nat) :
    (order.bytes width n).length = width := by
  cases order <;> simp [bytes]

theorem bigValue_bigBytes (width n : Nat) :
    bigValue (bigBytes width n) = n % span width := by
  induction width generalizing n with
  | zero => simp [bigBytes, span, Nat.mod_one]
  | succ width ih =>
    rw [bigBytes, bigValue_concat, ih, span, Nat.mod_mul]
    simp only [UInt8.toNat_ofNat']
    omega

/-- Writing a word and reading it back keeps its low bits, in either order. -/
theorem value_bytes (order : ByteOrder) (width n : Nat) :
    order.value (order.bytes width n) = n % span width := by
  cases order <;> simp [value, bytes, bigValue_bigBytes]

end ByteOrder
end Shockwave
