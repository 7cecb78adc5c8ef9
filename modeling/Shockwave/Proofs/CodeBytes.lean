import Shockwave.Proofs.CodeSpans

/-!
Instructions keep every byte that they were read from. An operand is written back as the word of its
code byte's width that agrees with it on all bits of that width, whichever sign it was read with.
-/
namespace Shockwave

namespace Opcode

theorem normalize_code (op : Opcode) : normalize op.code = op.code := by
  cases op <;> rfl

theorem ofByte?_eq_some_iff {byte : UInt8} {op : Opcode} :
    ofByte? byte = some op ↔ op.code = normalize byte := by
  constructor
  · intro h
    simpa using List.find?_some h
  · intro h
    have hself := ofByte?_code op
    unfold ofByte? at hself ⊢
    rwa [normalize_code, h] at hself

end Opcode

namespace Instruction

/-- The operand as an unsigned word of the code byte's width, in two's complement. -/
def operandWord (i : Instruction) : Nat :=
  (i.operand % ByteOrder.span (operandWidth i.op)).toNat

def written (order : ByteOrder) (i : Instruction) : List UInt8 :=
  i.op :: order.bytes (operandWidth i.op) i.operandWord

theorem length_written (order : ByteOrder) (i : Instruction) :
    (i.written order).length = byteCount i.op := by
  rw [written, List.length_cons, ByteOrder.length_bytes, byteCount]

theorem length_flatMap_written (order : ByteOrder) (code : List Instruction) :
    (code.flatMap (written order)).length = extent code := by
  induction code with
  | nil => rfl
  | cons first rest ih =>
    rw [List.flatMap_cons, List.length_append, length_written, ih, extent]

/-- No bit of a word is lost when it is read as an operand. -/
theorem operandOf_emod (op : UInt8) {word : Nat}
    (h : word < ByteOrder.span (operandWidth op)) :
    (operandOf op word % ByteOrder.span (operandWidth op)).toNat = word := by
  have hword : (word : Int) % ByteOrder.span (operandWidth op) = word :=
    Int.emod_eq_of_lt (by omega) (by omega)
  unfold operandOf
  split
  · rw [Int.bmod_emod, hword, Int.toNat_natCast]
  · rw [hword, Int.toNat_natCast]

variable {data : ByteArray} {order : ByteOrder} {start stop pos next last : Nat}
  {i : Instruction} {code : List Instruction}

theorem StandsAt.holds_written (h : StandsAt data order start pos i next) :
    Holds data pos (i.written order) := by
  obtain ⟨word, hlt, hbytes, hoperand⟩ := h.written
  have hword : i.operandWord = word := by
    rw [operandWord, hoperand, operandOf_emod i.op hlt]
  rwa [Instruction.written, hword]

namespace Runs

theorem holds_written (h : Runs data order start stop pos code last) (hpos : pos ≤ data.size) :
    Holds data pos (code.flatMap (written order)) := by
  induction h with
  | done =>
    have hnone : _ + 0 ≤ data.size := hpos
    obtain ⟨bytes, hbytes, hlength⟩ := Holds.of_fits hnone
    rwa [List.eq_nil_of_length_eq_zero hlength] at hbytes
  | step _ hfirst _ ih =>
    rw [List.flatMap_cons]
    refine hfirst.holds_written.append (ih hfirst.next_le_size) ?_
    rw [length_written, hfirst.next_eq]

theorem pos_eq (h : Runs data order start stop pos code last) (hstart : start ≤ pos)
    {before after : List Instruction} (hcode : code = before ++ i :: after) :
    start + i.pos = pos + extent before ∧ start + i.pos < stop := by
  induction h generalizing before with
  | done =>
    cases before <;> cases hcode
  | step hinside hfirst _ ih =>
    have hpos := hfirst.pos_eq
    have hnext := hfirst.next_eq
    cases before with
    | nil =>
      cases hcode
      exact ⟨by rw [extent]; omega, by omega⟩
    | cons first before =>
      cases hcode
      have hrest := ih (by omega) rfl
      rw [extent]
      omega

theorem opcode_eq (h : Runs data order start stop pos code last) :
    ∀ i ∈ code, i.opcode? = Opcode.ofByte? i.op := by
  induction h with
  | done => simp
  | step _ hfirst _ ih => exact List.forall_mem_cons.mpr ⟨hfirst.opcode_eq, ih⟩

end Runs

/-- The instructions read from a span tell all its bytes up to where the read ended, each with the
distance that those before it take up and with the operation of its code byte. -/
theorem readSpan_lossless {c d : Cursor} {offset length : Nat}
    (h : readSpan offset length c = .ok code d) :
    octets (c.data.extract offset d.pos) = code.flatMap (written c.order) ∧
      d = { c with pos := offset + extent code } ∧
      ∀ (before : List Instruction) (i : Instruction) (after : List Instruction),
        code = before ++ i :: after →
        i.pos = extent before ∧ i.pos < length ∧ i.opcode? = Opcode.ofByte? i.op ∧
          ∀ op, i.opcode? = some op ↔ op.code = Opcode.normalize i.op := by
  obtain ⟨hfits, last, hruns, rfl⟩ := readSpan_eq_ok_iff.mp h
  have hbytes := hruns.holds_written (by omega)
  have hlast := hruns.last_eq
  refine ⟨hbytes.octets_extract ?_, ?_, ?_⟩
  · rw [length_flatMap_written, hlast]
  · rw [hlast]
  · intro before i after hcode
    have hpos := hruns.pos_eq (Nat.le_refl _) hcode
    have hopcode : i.opcode? = Opcode.ofByte? i.op := hruns.opcode_eq i (by simp [hcode])
    refine ⟨by omega, by omega, hopcode, fun op => ?_⟩
    rw [hopcode, Opcode.ofByte?_eq_some_iff]

theorem readSpan_lossless_mixed :
    let data := [0xDE, 0x41, 0xFE, 0x81, 0xFF, 0x00, 0xEF, 0x00, 0x01, 0x00, 0x00].toByteArray
    let code : List Instruction :=
      [.ofByte 0x41 (-2) 0, .ofByte 0x81 (-256) 2, .ofByte 0xEF 65536 5]
    readSpan 1 8 ⟨data, 0, .big⟩ = .ok code ⟨data, 11, .big⟩ ∧
      octets (data.extract 1 11) = code.flatMap (written .big) := by
  intro data code
  have hbyte : Holds data 1 [0x41, 0xFE] := .of_append [0xDE] [0x41, 0xFE] _
  have hhalf : Holds data 3 [0x81, 0xFF, 0x00] :=
    .of_append [0xDE, 0x41, 0xFE] [0x81, 0xFF, 0x00] _
  have hword : Holds data 6 [0xEF, 0x00, 0x01, 0x00, 0x00] :=
    .of_append [0xDE, 0x41, 0xFE, 0x81, 0xFF, 0x00] [0xEF, 0x00, 0x01, 0x00, 0x00] []
  have hruns : Runs data .big 1 9 1 code 11 := by
    refine .step (by decide) ⟨⟨0xFE, by decide, hbyte, by decide⟩, rfl, rfl, rfl⟩ ?_
    refine .step (by decide) ⟨⟨0xFF00, by decide, hhalf, by decide⟩, rfl, rfl, rfl⟩ ?_
    refine .step (by decide) ⟨⟨0x10000, by decide, hword, by decide⟩, rfl, rfl, rfl⟩ ?_
    exact .done (by decide)
  have hok : readSpan 1 8 ⟨data, 0, .big⟩ = .ok code ⟨data, 11, .big⟩ :=
    readSpan_eq_ok_iff.mpr ⟨by decide, 11, hruns, rfl⟩
  exact ⟨hok, (readSpan_lossless hok).1⟩

end Instruction
end Shockwave
