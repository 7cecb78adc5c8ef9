import Mathlib.Data.List.Induction
import Mathlib.Data.Nat.Digits.Defs
import Shockwave.Proofs.FailedReads

/-!
Numbers in seven-bit groups as numerals to the base 128. What is read from groups is the number that
they spell, modulo `2 ^ 32`, however many there are; and each word has one spelling that is shorter
than all others.
-/
namespace Shockwave

namespace Varint

/-- The number that is spelled to the base 128, first digit on top. The high bit of a byte is not
part of its digit. -/
def number (groups : List UInt8) : Nat :=
  Nat.ofDigits 128 (groups.reverse.map (·.toNat % 128))

theorem number_concat (groups : List UInt8) (byte : UInt8) :
    number (groups ++ [byte]) = number groups * 128 + byte.toNat % 128 := by
  simp only [number, List.reverse_append, List.reverse_singleton, List.singleton_append,
    List.map_cons, Nat.ofDigits_cons]
  omega

theorem number_lt (groups : List UInt8) : number groups < 128 ^ groups.length := by
  have hdigits : ∀ digit ∈ groups.reverse.map (·.toNat % 128), digit < 128 := by
    intro digit hdigit
    obtain ⟨byte, -, rfl⟩ := List.mem_map.mp hdigit
    omega
  have hlt := Nat.ofDigits_lt_base_pow_length (by decide) hdigits
  rwa [List.length_map, List.length_reverse] at hlt

theorem groupValue_eq_ofNat (groups : List UInt8) :
    Decode.groupValue groups = UInt32.ofNat (number groups) := by
  induction groups using List.reverseRecOn with
  | nil => rfl
  | append_singleton groups byte ih =>
    rw [groupValue_concat, number_concat, ih, UInt32.ofNat_add, UInt32.ofNat_mul]
    rfl

structure IsShortest (n : UInt32) (groups : List UInt8) : Prop where
  isNumber : IsNumber groups
  number_eq : number groups = n.toNat
  length_le : ∀ others, IsNumber others → number others = n.toNat → groups.length ≤ others.length

theorem length_leading_le_of_lt {count n k : Nat} (h : n < 128 ^ k) :
    (leading count n).length ≤ k := by
  induction count generalizing n k with
  | zero => exact Nat.zero_le k
  | succ count ih =>
    rw [leading]
    split
    · exact Nat.zero_le k
    next hn =>
      cases k with
      | zero => omega
      | succ k =>
        have hfront := ih (n := n / 128) (k := k) (by omega)
        rw [List.length_append, List.length_singleton]
        omega

theorem eq_ofNat_of_marked {byte : UInt8} (h : 0x80 ≤ byte) :
    byte = UInt8.ofNat (byte.toNat % 128 + 128) := by
  have hle : 128 ≤ byte.toNat := UInt8.le_iff_toNat_le.mp h
  have hlt := byte.toNat_lt
  apply UInt8.toNat_inj.mp
  rw [UInt8.toNat_ofNat']
  omega

/-- Groups that are marked as not being last are the leading ones of the number that they spell,
unless they are more. -/
theorem eq_leading {count : Nat} {front : List UInt8} (hmarked : ∀ byte ∈ front, 0x80 ≤ byte)
    (hlength : front.length ≤ (leading count (number front)).length) :
    front = leading count (number front) := by
  induction front using List.reverseRecOn generalizing count with
  | nil => cases count <;> rfl
  | append_singleton init byte ih =>
    have hinit : number (init ++ [byte]) / 128 = number init := by
      rw [number_concat]
      omega
    have hbyte : number (init ++ [byte]) % 128 = byte.toNat % 128 := by
      rw [number_concat]
      omega
    cases count with
    | zero => simp [leading] at hlength
    | succ count =>
      rw [leading] at hlength ⊢
      split at hlength
      · simp at hlength
      next hn =>
        rw [hinit, List.length_append, List.length_append] at hlength
        have hfront := ih (fun b hb => hmarked b (List.mem_append_left _ hb))
          (Nat.le_of_add_le_add_right hlength)
        have hlast := eq_ofNat_of_marked (hmarked byte (by simp))
        rw [if_neg hn, hinit, hbyte, ← hlast, ← hfront]

theorem number_leading {n : Nat} (h : n < groupSpan 4) : number (leading 4 n) = n := by
  have hspan : groupSpan 4 = 128 ^ 4 := rfl
  -- Four groups spell less than a word can hold, so what is read from them is what they spell.
  have hlt : number (leading 4 n) < 128 ^ 4 :=
    Nat.lt_of_lt_of_le (number_lt _) (Nat.pow_le_pow_right (by decide) (length_leading_le 4 n))
  have hvalue := congrArg UInt32.toNat (groupValue_leading h)
  rw [groupValue_eq_ofNat, UInt32.toNat_ofNat', UInt32.toNat_ofNat'] at hvalue
  omega

theorem number_written (n : UInt32) : number (written n) = n.toNat := by
  have hn := n.toNat_lt
  have hspan : groupSpan 4 = 0x10000000 := rfl
  rw [written, number_concat, number_leading (by omega), UInt8.toNat_ofNat']
  omega

theorem isShortest_written (n : UInt32) : IsShortest n (written n) where
  isNumber := isNumber_written n
  number_eq := number_written n
  length_le others hothers hnumber := by
    obtain ⟨front, last, rfl, -, -⟩ := hothers
    rw [number_concat] at hnumber
    have hfront : n.toNat / 128 < 128 ^ front.length := by
      have := number_lt front
      omega
    have hle : (leading 4 (n.toNat / 128)).length ≤ front.length :=
      length_leading_le_of_lt hfront
    simp only [written, List.length_append, List.length_singleton]
    omega

theorem isShortest_iff {n : UInt32} {groups : List UInt8} :
    IsShortest n groups ↔ groups = written n := by
  constructor
  · rintro ⟨⟨front, last, rfl, hmarked, hlast⟩, hnumber, hshortest⟩
    have hlength := hshortest _ (isNumber_written n) (number_written n)
    have hlt : last.toNat < 128 := UInt8.lt_iff_toNat_lt.mp hlast
    rw [number_concat] at hnumber
    have hfront : number front = n.toNat / 128 := by omega
    have hdigit : n.toNat % 128 = last.toNat := by omega
    rw [written, ← hfront, List.length_append, List.length_append] at hlength
    rw [written, ← hfront, hdigit, UInt8.ofNat_toNat,
      ← eq_leading hmarked (Nat.le_of_add_le_add_right hlength)]
  · rintro rfl
    exact isShortest_written n

end Varint

namespace Decode

open Varint

theorem varint_of_rest {c : Cursor} {groups after : List UInt8} (hnumber : IsNumber groups)
    (hrest : c.rest = groups ++ after) :
    varint c = .ok (UInt32.ofNat (number groups)) { c with pos := c.pos + groups.length } := by
  have hholds : Holds c.data c.pos c.rest := by
    apply Cursor.holds_rest
    simp [hrest, hnumber.ne_nil]
  rw [hrest] at hholds
  rw [← groupValue_eq_ofNat]
  exact varint_groups hnumber hholds.append_left

/-- Groups up to the first that is not marked are read as the number that they spell, modulo the
size of a word, and passed over; where all that is left is marked, the stream is too short. So the
one shortest spelling of a word is read as that word. -/
theorem varint_spelled (c : Cursor) :
    (∀ front last after, c.rest = front ++ last :: after → (∀ byte ∈ front, 0x80 ≤ byte) →
      last < 0x80 → ∃ n : UInt32, n.toNat = number (front ++ [last]) % 2 ^ 32 ∧
        varint c = .ok n { c with pos := c.pos + (front.length + 1) }) ∧
    ((∀ byte ∈ c.rest, 0x80 ≤ byte) →
      varint c = .error (.outOfRange 1 (max c.pos c.size) c.size)
        { c with pos := max c.pos c.size }) ∧
    ∀ n, (∀ groups, IsShortest n groups ↔ groups = written n) ∧
      ∀ after, c.rest = written n ++ after →
        varint c = .ok n { c with pos := c.pos + (written n).length } := by
  refine ⟨?_, varint_error, fun n => ⟨fun _ => isShortest_iff, ?_⟩⟩
  · intro front last after hrest hmarked hlast
    have hgroups : c.rest = front ++ [last] ++ after := by simpa using hrest
    have hread := varint_of_rest ⟨front, last, rfl, hmarked, hlast⟩ hgroups
    rw [List.length_append, List.length_singleton] at hread
    exact ⟨_, UInt32.toNat_ofNat', hread⟩
  · intro after hrest
    rw [varint_of_rest (isNumber_written n) hrest, number_written, UInt32.ofNat_toNat]

def sampleGroups : List UInt8 := [0x9F, 0xFF, 0xFF, 0xFF, 0x7F, 0x88, 0x00, 0x81]

theorem varint_sampleGroups :
    number [0x9F, 0xFF, 0xFF, 0xFF, 0x7F] = 0x1FFFFFFFF ∧
    varint ⟨sampleGroups.toByteArray, 0, .big⟩ =
      .ok 0xFFFFFFFF ⟨sampleGroups.toByteArray, 5, .big⟩ ∧
    IsShortest 0x400 [0x88, 0x00] ∧
    varint ⟨sampleGroups.toByteArray, 5, .little⟩ =
      .ok 0x400 ⟨sampleGroups.toByteArray, 7, .little⟩ ∧
    varint ⟨sampleGroups.toByteArray, 7, .big⟩ =
      .error (.outOfRange 1 8 8) ⟨sampleGroups.toByteArray, 8, .big⟩ := by
  have hrest (pos : Nat) (order : ByteOrder) :
      Cursor.rest ⟨sampleGroups.toByteArray, pos, order⟩ = sampleGroups.drop pos := by
    rw [Cursor.rest, octets_toByteArray]
  have hnumber : number [0x9F, 0xFF, 0xFF, 0xFF, 0x7F] = 0x1FFFFFFFF := by decide
  obtain ⟨hspelled, -, -⟩ := varint_spelled ⟨sampleGroups.toByteArray, 0, .big⟩
  obtain ⟨-, -, hword⟩ := varint_spelled ⟨sampleGroups.toByteArray, 5, .little⟩
  obtain ⟨-, hendless, -⟩ := varint_spelled ⟨sampleGroups.toByteArray, 7, .big⟩
  obtain ⟨n, hn, hread⟩ :=
    hspelled [0x9F, 0xFF, 0xFF, 0xFF] 0x7F [0x88, 0x00, 0x81] (hrest 0 .big) (by simp) (by decide)
  have hlost : n = 0xFFFFFFFF := by
    apply UInt32.toNat_inj.mp
    rw [hn]
    change number [0x9F, 0xFF, 0xFF, 0xFF, 0x7F] % 2 ^ 32 = _
    rw [hnumber]
    rfl
  rw [hlost] at hread
  refine ⟨hnumber, hread, ((hword 0x400).1 _).mpr (by decide), ?_, ?_⟩
  · exact (hword 0x400).2 [0x81] (hrest 5 .little)
  · apply hendless
    rw [hrest]
    simp [sampleGroups]

end Decode
end Shockwave
