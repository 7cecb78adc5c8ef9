/-!
Latin-1 text: every byte is the character of the same number.
-/
namespace Shockwave.Latin1

def char (byte : UInt8) : Char :=
  Char.ofNat byte.toNat

def decode (bytes : List UInt8) : String :=
  String.ofList (bytes.map char)

@[simp] theorem toList_decode (bytes : List UInt8) : (decode bytes).toList = bytes.map char := by
  simp [decode]

@[simp] theorem length_decode (bytes : List UInt8) : (decode bytes).length = bytes.length := by
  simp [decode]

@[simp] theorem toNat_char (byte : UInt8) : (char byte).toNat = byte.toNat := by
  have hlt := byte.toNat_lt
  have hvalid : byte.toNat.isValidChar := .inl (by omega)
  rw [char, Char.ofNat, dif_pos hvalid]
  rfl

theorem utf8Size_char (byte : UInt8) : (char byte).utf8Size = if 0x80 ≤ byte then 2 else 1 := by
  have hchar : (char byte).val.toNat = byte.toNat := toNat_char byte
  have hlt := byte.toNat_lt
  unfold Char.utf8Size
  simp only [UInt32.le_iff_toNat_le, UInt8.le_iff_toNat_le, hchar]
  grind

/-- As UTF-8, the characters of the upper half take two bytes. -/
theorem utf8ByteSize_decode (bytes : List UInt8) :
    (decode bytes).utf8ByteSize = bytes.length + bytes.countP (0x80 ≤ ·) := by
  induction bytes with
  | nil => rfl
  | cons byte rest ih =>
    have hrest : (String.ofList (rest.map char)).utf8ByteSize =
        rest.length + rest.countP (0x80 ≤ ·) := ih
    rw [decode, List.map_cons, String.ofList_cons, String.utf8ByteSize_append,
      String.utf8ByteSize_singleton, hrest, utf8Size_char, List.countP_cons, List.length_cons]
    grind

end Shockwave.Latin1
