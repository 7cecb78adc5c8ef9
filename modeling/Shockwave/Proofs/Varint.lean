import Shockwave.Proofs.Stream

/-!
Numbers in seven-bit groups as they are written, most significant group first and no more groups
than needed, and the reads that end with a byte of a certain kind.
-/
namespace Shockwave

namespace Varint

/-- The groups in front of the last one, at most `count` of them, each marked as not being last. -/
def leading : Nat → Nat → List UInt8
  | 0, _ => []
  | count + 1, n =>
    if n = 0 then [] else leading count (n / 128) ++ [UInt8.ofNat (n % 128 + 128)]

/-- A word takes five groups at most. -/
def written (n : UInt32) : List UInt8 :=
  leading 4 (n.toNat / 128) ++ [UInt8.ofNat (n.toNat % 128)]

example : written 0x400 = [0x88, 0x00] ∧ written 0xFFFFFFFF = [0x8F, 0xFF, 0xFF, 0xFF, 0x7F] := by
  decide

/-- Groups that make one number: the last of them, and no other, has a clear high bit. -/
def IsNumber (groups : List UInt8) : Prop :=
  ∃ front last, groups = front ++ [last] ∧ (∀ byte ∈ front, 0x80 ≤ byte) ∧ last < 0x80

def groupSpan : Nat → Nat
  | 0 => 1
  | count + 1 => 128 * groupSpan count

theorem groupValue_concat (groups : List UInt8) (byte : UInt8) :
    Decode.groupValue (groups ++ [byte]) =
      Decode.groupValue groups * 128 + UInt32.ofNat (byte.toNat % 128) := by
  simp [Decode.groupValue]

theorem ofNat_groups (n : Nat) :
    UInt32.ofNat (n / 128) * 128 + UInt32.ofNat (n % 128) = UInt32.ofNat n := by
  have h128 : (128 : UInt32) = UInt32.ofNat 128 := rfl
  rw [h128, ← UInt32.ofNat_mul, ← UInt32.ofNat_add, Nat.div_add_mod']

theorem groupValue_leading {count n : Nat} (h : n < groupSpan count) :
    Decode.groupValue (leading count n) = UInt32.ofNat n := by
  induction count generalizing n with
  | zero =>
    have hzero : n = 0 := Nat.lt_one_iff.mp h
    rw [hzero]
    rfl
  | succ count ih =>
    rw [groupSpan] at h
    rw [leading]
    split
    · next hzero =>
      rw [hzero]
      rfl
    · have hgroup : (UInt8.ofNat (n % 128 + 128)).toNat % 128 = n % 128 := by
        rw [UInt8.toNat_ofNat']
        omega
      rw [groupValue_concat, ih (by omega), hgroup, ofNat_groups]

theorem groupValue_written (n : UInt32) : Decode.groupValue (written n) = n := by
  have hn := n.toNat_lt
  have hleading : n.toNat / 128 < groupSpan 4 := by
    have hspan : groupSpan 4 = 0x10000000 := rfl
    omega
  have hgroup : (UInt8.ofNat (n.toNat % 128)).toNat % 128 = n.toNat % 128 := by
    rw [UInt8.toNat_ofNat']
    omega
  rw [written, groupValue_concat, groupValue_leading hleading, hgroup, ofNat_groups,
    UInt32.ofNat_toNat]

theorem le_of_mem_leading {count n : Nat} {byte : UInt8} (h : byte ∈ leading count n) :
    0x80 ≤ byte := by
  induction count generalizing n with
  | zero => simp [leading] at h
  | succ count ih =>
    rw [leading] at h
    split at h
    · simp at h
    · rcases List.mem_append.mp h with hfront | hlast
      · exact ih hfront
      · rw [List.mem_singleton.mp hlast, UInt8.le_iff_toNat_le, UInt8.toNat_ofNat']
        change 128 ≤ _
        omega

theorem isNumber_written (n : UInt32) : IsNumber (written n) := by
  refine ⟨_, _, rfl, fun _ => le_of_mem_leading, ?_⟩
  rw [UInt8.lt_iff_toNat_lt, UInt8.toNat_ofNat']
  change _ < 128
  omega

theorem IsNumber.ne_nil {groups : List UInt8} (h : IsNumber groups) : groups ≠ [] := by
  obtain ⟨front, last, rfl, -, -⟩ := h
  simp

theorem length_leading_le (count n : Nat) : (leading count n).length ≤ count := by
  induction count generalizing n with
  | zero => simp [leading]
  | succ count ih =>
    have := ih (n / 128)
    rw [leading]
    split <;> simp
    omega

theorem length_written_pos (n : UInt32) : 0 < (written n).length := by simp [written]

theorem length_written_le (n : UInt32) : (written n).length ≤ 5 := by
  have := length_leading_le 4 (n.toNat / 128)
  simp only [written, List.length_append, List.length_singleton]
  omega

end Varint

theorem Holds.getElem {data : ByteArray} {pos : Nat} {byte : UInt8} {rest : List UInt8}
    (h : Holds data pos (byte :: rest)) (hpos : pos < data.size) : data[pos] = byte := by
  obtain ⟨before, after, hdata, rfl⟩ := h
  have hget : (octets data)[before.length]? = some byte := by
    rw [hdata, List.append_assoc, List.getElem?_append_right (Nat.le_refl _)]
    simp
  rw [octets, Array.getElem?_toList, Array.getElem?_eq_some_iff] at hget
  exact hget.2

theorem drop_octets {data : ByteArray} {pos : Nat} (hpos : pos < data.size) :
    (octets data).drop pos = data[pos] :: (octets data).drop (pos + 1) := by
  have hlength : pos < (octets data).length := by rwa [length_octets]
  exact List.drop_eq_getElem_cons hlength

theorem scanFrom_eq {data : ByteArray} {test : UInt8 → Bool} {pos : Nat} {front : List UInt8}
    {last : UInt8} (h : Holds data pos (front ++ [last]))
    (hfront : ∀ byte ∈ front, test byte = false) (hlast : test last = true) :
    scanFrom data test pos = pos + front.length := by
  induction front generalizing pos with
  | nil =>
    have hpos : pos < data.size := h.fits
    rw [scanFrom, dif_pos hpos, h.getElem hpos, if_pos hlast]
    rfl
  | cons byte front ih =>
    have hfits := h.fits
    simp only [List.length_append, List.length_cons, List.length_nil] at hfits
    have hpos : pos < data.size := by omega
    have hfirst : Holds data pos ([byte] ++ (front ++ [last])) := h
    have hrest : Holds data (pos + 1) (front ++ [last]) := hfirst.append_right
    rw [scanFrom, dif_pos hpos, h.getElem hpos, hfront byte List.mem_cons_self,
      if_neg Bool.false_ne_true, ih hrest fun b hb => hfront b (List.mem_cons_of_mem _ hb)]
    simp only [List.length_cons]
    omega

theorem scanFrom_eq_max {data : ByteArray} {test : UInt8 → Bool} {pos : Nat}
    (h : ∀ byte ∈ (octets data).drop pos, test byte = false) :
    scanFrom data test pos = max pos data.size := by
  fun_induction scanFrom data test pos with
  | case1 pos hpos htest =>
    rw [drop_octets hpos] at h
    rw [h _ List.mem_cons_self] at htest
    contradiction
  | case2 pos hpos htest ih =>
    rw [drop_octets hpos] at h
    rw [ih fun byte hbyte => h byte (List.mem_cons_of_mem _ hbyte)]
    omega
  | case3 pos hpos => omega

namespace Decode

variable {data : ByteArray} {pos : Nat} {order : ByteOrder}

theorem through_ok {test : UInt8 → Bool} {front : List UInt8} {last : UInt8}
    (h : Holds data pos (front ++ [last])) (hfront : ∀ byte ∈ front, test byte = false)
    (hlast : test last = true) :
    through test ⟨data, pos, order⟩ =
      .ok (front ++ [last]).toByteArray ⟨data, pos + (front ++ [last]).length, order⟩ := by
  have hfits := h.fits
  rw [List.length_append, List.length_singleton] at hfits
  have hextract : data.extract pos (pos + front.length + 1) = (front ++ [last]).toByteArray :=
    h.extract (by simp [Nat.add_assoc])
  unfold through Cursor.size
  dsimp only
  rw [scanFrom_eq h hfront hlast, if_pos (by omega), hextract, Nat.add_assoc, List.length_append,
    List.length_singleton]

theorem through_error {test : UInt8 → Bool}
    (h : ∀ byte ∈ (octets data).drop pos, test byte = false) :
    through test ⟨data, pos, order⟩ =
      .error (.outOfRange 1 (max pos data.size) data.size) ⟨data, max pos data.size, order⟩ := by
  unfold through Cursor.size
  dsimp only
  rw [scanFrom_eq_max h, if_neg (by omega)]

theorem varint_groups {groups : List UInt8} (hnumber : Varint.IsNumber groups)
    (h : Holds data pos groups) :
    varint ⟨data, pos, order⟩ = .ok (groupValue groups) ⟨data, pos + groups.length, order⟩ := by
  obtain ⟨front, last, rfl, hfront, hlast⟩ := hnumber
  have hmarked : ∀ byte ∈ front, decide (byte < 0x80) = false := by
    intro byte hbyte
    exact decide_eq_false (UInt8.not_lt.mpr (hfront byte hbyte))
  unfold varint
  rw [bind_ok (through_ok h hmarked (decide_eq_true hlast)), octets_toByteArray]
  rfl

theorem varint_ok {n : UInt32} (h : Holds data pos (Varint.written n)) :
    varint ⟨data, pos, order⟩ = .ok n ⟨data, pos + (Varint.written n).length, order⟩ := by
  rw [varint_groups (Varint.isNumber_written n) h, Varint.groupValue_written]

theorem varint_error (h : ∀ byte ∈ (octets data).drop pos, 0x80 ≤ byte) :
    varint ⟨data, pos, order⟩ =
      .error (.outOfRange 1 (max pos data.size) data.size) ⟨data, max pos data.size, order⟩ := by
  have hmarked : ∀ byte ∈ (octets data).drop pos, decide (byte < 0x80) = false := by
    intro byte hbyte
    exact decide_eq_false (UInt8.not_lt.mpr (h byte hbyte))
  unfold varint
  rw [bind_error (through_error hmarked)]

end Decode
end Shockwave
