import Shockwave.Proofs.ArchiveTables

/-!
A zlib stream whose data is stored as it is, in one block, inflates to the data. Every part of an
archive that has to be compressed can be written so, up to the size of a block.
-/
namespace Shockwave.Inflate

open Parse

/-- The data in one stored block, behind the header and before the checksum. -/
def plainStream (data : List UInt8) : List UInt8 :=
  [0x78, 0x01, 0x01] ++ (ByteOrder.little.bytes 2 data.length ++
    (ByteOrder.little.bytes 2 (0xFFFF - data.length) ++
    (data ++ ByteOrder.big.bytes 4 (checksum data.toByteArray))))

namespace Parse

variable {α β : Type} {data : ByteArray} {k n v : Nat} {rest : Bits} {byte : UInt8}

theorem bind_of_ok {p : Parse α} {f : α → Parse β} {b b' : Bits} {a : α} (h : p b = .ok (a, b')) :
    (p >>= f) b = f a b' := by
  simp only [bind, StateT.bind, Except.bind, h]

theorem bit_at (h : Holds data k [byte]) {i : Nat} (hi : i < 8) :
    bit ⟨data, 8 * k + i⟩ = .ok (byte.toNat.testBit i, ⟨data, 8 * k + (i + 1)⟩) := by
  have hk : k < data.size := h.fits
  have hdiv : (8 * k + i) / 8 = k := by omega
  have hmod : (8 * k + i) % 8 = i := by omega
  have hget := h.getElem hk
  unfold bit Bits.next?
  simp only [hdiv, hmod, hk, hget, dif_pos]
  rfl

theorem bits_at (h : Holds data k [byte]) {i : Nat} (hi : i < 8)
    (hrest : bits n ⟨data, 8 * k + (i + 1)⟩ = .ok (v, rest)) :
    bits (n + 1) ⟨data, 8 * k + i⟩ = .ok (2 * v + (byte.toNat.testBit i).toNat, rest) := by
  rw [bits, bind_of_ok (bit_at h hi), bind_of_ok hrest]
  rfl

/-- From any bit of a byte on, the rest of the byte is read below what follows. -/
theorem bits_from (h : Holds data k [byte]) {i j : Nat} (hij : i + j = 8)
    (hrest : bits n ⟨data, 8 * (k + 1)⟩ = .ok (v, rest)) :
    bits (n + j) ⟨data, 8 * k + i⟩ = .ok ((v <<< j) + (byte.toNat >>> i), rest) := by
  induction j generalizing i with
  | zero =>
    have hbyte : byte.toNat >>> 8 = 0 := by
      have := byte.toNat_lt
      rw [Nat.shiftRight_eq_div_pow]
      omega
    have hi : i = 8 := hij
    subst hi
    rw [hbyte]
    exact hrest
  | succ j ih =>
    have hnext := bits_at h (by omega) (ih (i := i + 1) (by omega))
    have hbit : (byte.toNat.testBit i).toNat = byte.toNat >>> i % 2 := by
      rw [Nat.toNat_testBit, Nat.shiftRight_eq_div_pow]
    have hvalue : 2 * ((v <<< j) + (byte.toNat >>> (i + 1))) + (byte.toNat.testBit i).toNat =
        (v <<< (j + 1)) + (byte.toNat >>> i) := by
      rw [hbit, Nat.shiftLeft_succ, Nat.shiftRight_succ]
      omega
    rw [← hvalue]
    exact hnext

theorem bits_byte (h : Holds data k [byte])
    (hrest : bits n ⟨data, 8 * (k + 1)⟩ = .ok (v, rest)) :
    bits (n + 8) ⟨data, 8 * k⟩ = .ok (256 * v + byte.toNat, rest) := by
  have hbits := bits_from h (i := 0) (j := 8) rfl hrest
  have hshift : v <<< 8 = 256 * v := by
    rw [Nat.shiftLeft_eq]
    omega
  rw [hshift] at hbits
  exact hbits

theorem bits_word (h : Holds data k (ByteOrder.little.bytes 2 n)) (hn : n < 0x10000) :
    bits 16 ⟨data, 8 * k⟩ = .ok (n, ⟨data, 8 * (k + 2)⟩) := by
  have hlow : Holds data k ([UInt8.ofNat n] ++ [UInt8.ofNat (n / 256)]) := h
  have hhigh := bits_byte (n := 0) hlow.append_right (v := 0) rfl
  have hword := bits_byte hlow.append_left hhigh
  rw [hword, UInt8.toNat_ofNat', UInt8.toNat_ofNat']
  congr 2
  omega

end Parse

theorem foldl_literal (data : List UInt8) (out : ByteArray) :
    octets ((data.map Token.literal).foldl Token.expand out) = octets out ++ data := by
  induction data generalizing out with
  | nil => simp
  | cons byte rest ih =>
    have hpush : octets (out.push byte) = octets out ++ [byte] := by simp [octets]
    rw [List.map_cons, List.foldl_cons, ih, Token.expand, hpush, List.append_assoc]
    rfl

theorem expand_literals (data : List UInt8) :
    expand (data.map Token.literal) = data.toByteArray := by
  apply octets_injective
  rw [expand, foldl_literal, octets_toByteArray]
  rfl

section

variable {stream : ByteArray} {data : List UInt8}

theorem blockHead_eq (h : Holds stream 2 [0x01]) :
    blockHead ⟨stream, 16⟩ = .ok ((true, 0), ⟨stream, 19⟩) := by
  have hlast : bit ⟨stream, 16⟩ = .ok (true, ⟨stream, 17⟩) := bit_at h (i := 0) (by decide)
  have hkind : bits 2 ⟨stream, 17⟩ = .ok (0, ⟨stream, 19⟩) :=
    bits_at h (i := 1) (by decide) (bits_at h (i := 2) (by decide) (n := 0) (v := 0) rfl)
  rw [blockHead, bind_of_ok hlast, bind_of_ok hkind]
  rfl

theorem storedLength_eq {n : Nat} (hn : n < 0x10000)
    (h : Holds stream 3 (ByteOrder.little.bytes 2 n ++ ByteOrder.little.bytes 2 (0xFFFF - n))) :
    storedLength ⟨stream, 19⟩ = .ok (n, ⟨stream, 56⟩) := by
  have hplace : Bits.align ⟨stream, 19⟩ = ⟨stream, 24⟩ := by simp [Bits.align]
  have halign : align ⟨stream, 19⟩ = .ok ((), ⟨stream, 24⟩) :=
    congrArg (fun b => Except.ok ((), b)) hplace
  have hcheck := h.append_right
  rw [ByteOrder.length_bytes] at hcheck
  rw [storedLength, bind_of_ok halign, bind_of_ok (bits_word (k := 3) h.append_left hn),
    bind_of_ok (bits_word (k := 5) hcheck (by omega)), if_pos (by omega)]
  rfl

theorem stored_eq (hlength : storedLength ⟨stream, 19⟩ = .ok (data.length, ⟨stream, 56⟩))
    (h : Holds stream 7 data) :
    stored #[] ⟨stream, 19⟩ =
      ⟨(data.map Token.literal).toArray, .ok ⟨stream, 56 + 8 * data.length⟩⟩ := by
  have hextract : stream.extract 7 (7 + data.length) = data.toByteArray := h.extract rfl
  have hfull : ¬data.toByteArray.size < data.length := by simp
  simp only [stored, hlength, Nat.reduceDiv, hextract, if_neg hfull]
  simp [List.data_toByteArray]

theorem blocks_eq (hhead : blockHead ⟨stream, 16⟩ = .ok ((true, 0), ⟨stream, 19⟩))
    {progress : Progress} {rest : Bits} (hstored : stored #[] ⟨stream, 19⟩ = progress)
    (hrest : progress.rest = .ok rest) :
    blocks #[] ⟨stream, 16⟩ = progress := by
  have hblock : block 0 #[] ⟨stream, 19⟩ = progress := hstored
  unfold blocks
  split
  · next e he =>
    rw [hhead] at he
    cases he
  · next last kind b' he =>
    rw [hhead] at he
    cases he
    split
    · next e he =>
      rw [hblock, hrest] at he
      cases he
    · next b he =>
      rw [hblock, hrest] at he
      cases he
      rw [if_pos rfl, hblock, ← hrest]

end

section

variable {β : Type} {f : β → UInt8 → β} {P : β → Prop} (hstep : ∀ b byte, P b → P (f b byte))
include hstep

theorem foldlM_loop_invariant (bytes : ByteArray) (stop : Nat) (hstop : stop ≤ bytes.size)
    (i j : Nat) {b : β} (hb : P b) :
    P (ByteArray.foldlM.loop (m := Id) (pure <| f · ·) bytes stop hstop i j b) := by
  induction i generalizing j b with
  | zero =>
    unfold ByteArray.foldlM.loop
    split <;> exact hb
  | succ i ih =>
    unfold ByteArray.foldlM.loop
    split
    · exact ih _ (hstep _ _ hb)
    · exact hb

theorem foldl_invariant (bytes : ByteArray) {b : β} (hb : P b) : P (bytes.foldl f b) := by
  unfold ByteArray.foldl ByteArray.foldlM
  rw [dif_pos (Nat.le_refl _)]
  exact foldlM_loop_invariant hstep bytes _ _ _ _ hb

end

theorem checksum_lt (bytes : ByteArray) : checksum bytes < 0x100000000 := by
  unfold checksum
  generalize hsums : bytes.foldl _ (1, 0) = sums
  have hhalves : sums.1 < 65521 ∧ sums.2 < 65521 := by
    rw [← hsums]
    exact foldl_invariant (P := fun sums : Nat × Nat => sums.1 < 65521 ∧ sums.2 < 65521)
      (fun _ _ _ => ⟨Nat.mod_lt _ (by decide), Nat.mod_lt _ (by decide)⟩) bytes
      ⟨by decide, by decide⟩
  dsimp only
  omega

theorem trailer_eq {stream : ByteArray} {data : List UInt8}
    (h : Holds stream (7 + data.length) (ByteOrder.big.bytes 4 (checksum data.toByteArray))) :
    trailer stream ⟨stream, 56 + 8 * data.length⟩ data.toByteArray =
      .complete data.toByteArray := by
  have hstart : (Bits.align ⟨stream, 56 + 8 * data.length⟩).used / 8 = 7 + data.length := by
    simp only [Bits.align]
    omega
  have hstored := h.octets_extract (by rw [ByteOrder.length_bytes])
  have hvalue : ByteOrder.bigValue (ByteOrder.big.bytes 4 (checksum data.toByteArray)) =
      checksum data.toByteArray :=
    ByteOrder.value_bytes_of_lt .big (checksum_lt _)
  unfold trailer
  dsimp only
  rw [hstart, hstored, ByteOrder.length_bytes, if_neg (by decide), if_pos hvalue]

end Shockwave.Inflate

namespace Shockwave

theorem inflates_plainStream {data : List UInt8} (hfits : data.length < 0x10000) :
    Inflates (Inflate.plainStream data) data := by
  have h := Holds.whole (Inflate.plainStream data)
  have hhead : Holds (Inflate.plainStream data).toByteArray 0 ([0x78, 0x01] ++ [0x01]) :=
    h.append_left
  have hlengths := h.append_right
  have hdata := hlengths.append_right.append_right
  simp only [ByteOrder.length_bytes, List.length_cons, List.length_nil, Nat.zero_add,
    Nat.reduceAdd, ← List.append_assoc] at hlengths hdata
  have hstored := Inflate.stored_eq (Inflate.storedLength_eq hfits hlengths.append_left.append_left)
    hdata.append_left
  have hblocks := Inflate.blocks_eq (Inflate.blockHead_eq hhead.append_right) hstored rfl
  have htrailer := Inflate.trailer_eq hdata.append_right
  have hfirst : octets ((Inflate.plainStream data).toByteArray.extract 0 2) = [0x78, 0x01] :=
    hhead.append_left.octets_extract rfl
  have hdecode : Inflate.decode (Inflate.plainStream data).toByteArray =
      .complete data.toByteArray := by
    unfold Inflate.decode
    rw [hfirst]
    dsimp only
    rw [if_pos (by decide), hblocks]
    dsimp only
    rw [Inflate.expand_literals, htrailer]
  exact Inflate.inflate_eq_ok_iff.mpr hdecode

end Shockwave
