import Shockwave.Bytes.Cursor

/-!
What a stream holds at a position, and the elementary reads over it. A read whose bytes are known to
be there succeeds, gives back the number that was written, and moves just past it.
-/
namespace Shockwave

namespace ByteOrder

@[simp] theorem span_two : span 2 = 0x10000 := rfl

@[simp] theorem span_four : span 4 = 0x100000000 := rfl

theorem bytes_one (order : ByteOrder) (n : Nat) : order.bytes 1 n = [UInt8.ofNat n] := by
  cases order <;> rfl

theorem foldl_value_lt (bytes : List UInt8) (value : Nat) :
    bytes.foldl (fun value byte => value * 256 + byte.toNat) value <
      (value + 1) * span bytes.length := by
  induction bytes generalizing value with
  | nil => simp [span]
  | cons byte bytes ih =>
    have hbyte := byte.toNat_lt
    calc (byte :: bytes).foldl (fun value byte => value * 256 + byte.toNat) value
        < (value * 256 + byte.toNat + 1) * span bytes.length := ih _
      _ ≤ (value + 1) * 256 * span bytes.length := Nat.mul_le_mul_right _ (by omega)
      _ = (value + 1) * span (byte :: bytes).length := by
        rw [List.length_cons, span, Nat.mul_assoc]

theorem value_lt (order : ByteOrder) (bytes : List UInt8) :
    order.value bytes < span bytes.length := by
  cases order with
  | big => simpa [value, bigValue] using foldl_value_lt bytes 0
  | little => simpa [value, bigValue] using foldl_value_lt bytes.reverse 0

theorem span_le_span {w w' : Nat} (h : w ≤ w') : span w ≤ span w' := by
  induction h with
  | refl => exact Nat.le_refl _
  | step _ ih =>
    rw [span]
    omega

theorem value_bytes_of_lt (order : ByteOrder) {width n : Nat} (h : n < span width) :
    order.value (order.bytes width n) = n := by
  rw [value_bytes, Nat.mod_eq_of_lt h]

end ByteOrder

@[simp] theorem length_octets (data : ByteArray) : (octets data).length = data.size := by
  simp [octets]

@[simp] theorem octets_toByteArray (bytes : List UInt8) : octets bytes.toByteArray = bytes := by
  simp [octets, List.data_toByteArray]

theorem octets_extract (data : ByteArray) (start stop : Nat) :
    octets (data.extract start stop) = ((octets data).drop start).take (stop - start) := by
  simp only [octets, ByteArray.data_extract, Array.toList_extract, List.extract_eq_take_drop]

theorem octets_injective {left right : ByteArray} (h : octets left = octets right) :
    left = right :=
  ByteArray.ext (Array.toList_inj.mp h)

@[simp] theorem toByteArray_octets (bytes : ByteArray) : (octets bytes).toByteArray = bytes :=
  octets_injective (octets_toByteArray _)

theorem length_le_length_flatMap {α : Type} {write : α → List UInt8} (h : ∀ a, 0 < (write a).length)
    (items : List α) : items.length ≤ (items.flatMap write).length := by
  induction items with
  | nil => simp
  | cons a rest ih =>
    have := h a
    simp only [List.flatMap_cons, List.length_append, List.length_cons]
    omega

/-- The bytes stand in the stream from a position on. -/
def Holds (data : ByteArray) (pos : Nat) (bytes : List UInt8) : Prop :=
  ∃ before after, octets data = before ++ bytes ++ after ∧ before.length = pos

namespace Holds

variable {data : ByteArray} {pos : Nat} {bytes left right : List UInt8}

theorem of_append (before bytes after : List UInt8) :
    Holds (before ++ bytes ++ after).toByteArray before.length bytes :=
  ⟨before, after, octets_toByteArray _, rfl⟩

theorem whole (bytes : List UInt8) : Holds bytes.toByteArray 0 bytes :=
  ⟨[], [], by simp, rfl⟩

theorem start (bytes after : List UInt8) : Holds (bytes ++ after).toByteArray 0 bytes :=
  of_append [] bytes after

theorem fits (h : Holds data pos bytes) : pos + bytes.length ≤ data.size := by
  obtain ⟨before, after, hdata, rfl⟩ := h
  have hlength := congrArg List.length hdata
  simp only [length_octets, List.length_append] at hlength
  omega

theorem append_left (h : Holds data pos (left ++ right)) : Holds data pos left := by
  obtain ⟨before, after, hdata, rfl⟩ := h
  exact ⟨before, right ++ after, by simpa using hdata, rfl⟩

theorem append_right (h : Holds data pos (left ++ right)) :
    Holds data (pos + left.length) right := by
  obtain ⟨before, after, hdata, rfl⟩ := h
  exact ⟨before ++ left, after, by simpa using hdata, by simp⟩

theorem drop_eq (h : Holds data pos bytes) :
    (octets data).drop pos = bytes ++ (octets data).drop (pos + bytes.length) := by
  obtain ⟨before, after, hdata, rfl⟩ := h
  rw [hdata, List.append_assoc, List.drop_left, ← List.append_assoc, ← List.length_append,
    List.drop_left]

theorem octets_extract (h : Holds data pos bytes) {stop : Nat} (hstop : stop = pos + bytes.length) :
    octets (data.extract pos stop) = bytes := by
  obtain ⟨before, after, hdata, rfl⟩ := h
  rw [Shockwave.octets_extract, hdata, hstop, List.append_assoc, List.drop_left,
    Nat.add_sub_cancel_left, List.take_left]

theorem octets_extract_part (h : Holds data pos bytes) (index width : Nat)
    (hfits : index + width ≤ bytes.length) :
    octets (data.extract (pos + index) (pos + index + width)) = (bytes.drop index).take width := by
  have hsplit : bytes = bytes.take index ++ ((bytes.drop index).take width ++
      (bytes.drop index).drop width) := by
    rw [List.take_append_drop, List.take_append_drop]
  rw [hsplit] at h
  have hpart := h.append_right.append_left
  rw [List.length_take, Nat.min_eq_left (by omega)] at hpart
  apply hpart.octets_extract
  rw [List.length_take, List.length_drop]
  omega

theorem extract (h : Holds data pos bytes) {stop : Nat} (hstop : stop = pos + bytes.length) :
    data.extract pos stop = bytes.toByteArray := by
  apply octets_injective
  rw [h.octets_extract hstop, octets_toByteArray]

end Holds

section

variable {ε σ α β : Type} {first : EStateM ε σ α} {rest : α → EStateM ε σ β} {s t : σ}

theorem bind_ok {a : α} (h : first s = .ok a t) : (first >>= rest) s = rest a t := by
  simp only [bind, EStateM.bind, h]

theorem bind_error {e : ε} (h : first s = .error e t) : (first >>= rest) s = .error e t := by
  simp only [bind, EStateM.bind, h]

theorem exists_of_bind_ok {b : β} (h : (first >>= rest) s = .ok b t) :
    ∃ a u, first s = .ok a u ∧ rest a u = .ok b t := by
  cases hfirst : first s with
  | error e u =>
    rw [bind_error hfirst] at h
    cases h
  | ok a u =>
    rw [bind_ok hfirst] at h
    exact ⟨a, u, rfl, h⟩

theorem get_bind {rest : σ → EStateM ε σ β} : (get >>= rest) s = rest s s := rfl

theorem modify_bind {f : σ → σ} {rest : PUnit → EStateM ε σ β} :
    (modify f >>= rest) s = rest () (f s) := rfl

end

namespace Decode

variable {c : Cursor} {n : Nat} {α : Type}

theorem pos_bind {rest : Nat → Decode α} : (Decode.pos >>= rest) c = rest c.pos c := rfl

theorem setOrder_ok (order : ByteOrder) : setOrder order c = .ok () { c with order } := rfl

theorem require_ok (h : c.pos + n ≤ c.data.size) : require n c = .ok () c := by
  unfold require Cursor.remaining Cursor.size
  rw [if_neg (by omega)]

theorem require_error (h : c.data.size - c.pos < n) :
    require n c = .error (.outOfRange n c.pos c.size) c := by
  unfold require Cursor.remaining Cursor.size
  rw [if_pos h]

theorem seek_ok {p : Nat} (h : p ≤ c.data.size) : seek p c = .ok () { c with pos := p } := by
  unfold seek Cursor.size
  rw [if_neg (by omega)]

theorem seek_error {p : Nat} (h : c.data.size < p) :
    seek p c = .error (.outOfRange 0 p c.size) c := by
  unfold seek Cursor.size
  rw [if_pos h]

theorem take_fits (h : c.pos + n ≤ c.data.size) :
    take n c = .ok (c.peek n) { c with pos := c.pos + n } := by
  unfold take Cursor.size
  rw [if_neg (by omega)]

theorem take_ok {bytes : List UInt8} (h : Holds c.data c.pos bytes) (hn : bytes.length = n) :
    take n c = .ok bytes.toByteArray { c with pos := c.pos + n } := by
  have hfits := h.fits
  rw [take_fits (by omega), Cursor.peek, h.extract (by rw [hn])]

theorem bytes_ok {bytes : List UInt8} (h : Holds c.data c.pos bytes) (hn : bytes.length = n) :
    Decode.bytes n c = .ok bytes.toByteArray { c with pos := c.pos + n } := by
  have hfits := h.fits
  unfold Decode.bytes
  rw [bind_ok (require_ok (by omega)), take_ok h hn]

theorem latin1_ok {text : List UInt8} (h : Holds c.data c.pos text) :
    latin1 text.length c = .ok (Latin1.decode text) { c with pos := c.pos + text.length } := by
  unfold latin1
  rw [bind_ok (bytes_ok h rfl), octets_toByteArray]
  rfl

theorem word_ok {width : Nat} (h : Holds c.data c.pos (c.order.bytes width n)) :
    word width c = .ok (n % ByteOrder.span width) { c with pos := c.pos + width } := by
  unfold word
  rw [bind_ok (take_ok h (ByteOrder.length_bytes ..)), get_bind, octets_toByteArray,
    ByteOrder.value_bytes]
  rfl

theorem u8_ok {byte : UInt8} (h : Holds c.data c.pos [byte]) :
    u8 c = .ok byte { c with pos := c.pos + 1 } := by
  rw [← UInt8.ofNat_toNat (x := byte), ← c.order.bytes_one] at h
  have hlt : byte.toNat < ByteOrder.span 1 := byte.toNat_lt
  unfold u8
  rw [bind_ok (word_ok h), Nat.mod_eq_of_lt hlt, UInt8.ofNat_toNat]
  rfl

theorem u16_ok (h : Holds c.data c.pos (c.order.bytes 2 n)) :
    u16 c = .ok (UInt16.ofNat n) { c with pos := c.pos + 2 } := by
  have hword : UInt16.ofNat (n % ByteOrder.span 2) = UInt16.ofNat n :=
    UInt16.toNat_inj.mp (by simp)
  unfold u16
  rw [bind_ok (word_ok h), hword]
  rfl

theorem u32_ok (h : Holds c.data c.pos (c.order.bytes 4 n)) :
    u32 c = .ok (UInt32.ofNat n) { c with pos := c.pos + 4 } := by
  have hword : UInt32.ofNat (n % ByteOrder.span 4) = UInt32.ofNat n :=
    UInt32.toNat_inj.mp (by simp)
  unfold u32
  rw [bind_ok (word_ok h), hword]
  rfl

theorem i32_ok (h : Holds c.data c.pos (c.order.bytes 4 n)) :
    i32 c = .ok (UInt32.ofNat n).toInt32 { c with pos := c.pos + 4 } := by
  unfold i32
  rw [bind_ok (u32_ok h)]
  rfl

theorem tag_ok {t : Tag} (h : Holds c.data c.pos (c.order.bytes 4 t.code.toNat)) :
    tag c = .ok t { c with pos := c.pos + 4 } := by
  have hfits := h.fits
  rw [ByteOrder.length_bytes] at hfits
  unfold tag
  rw [bind_ok (require_ok hfits), bind_ok (u32_ok h), UInt32.ofNat_toNat]
  rfl

end Decode
end Shockwave
