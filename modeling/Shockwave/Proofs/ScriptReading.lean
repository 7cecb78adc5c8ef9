import Shockwave.Proofs.ScriptLayout

/-!
A stored script is read back whole, from wherever the cursor stands and in whatever byte order it
was. Each part is found from any position, since its reading starts with the place that a record or
the header gives.
-/
namespace Shockwave

namespace OperandForm

theorem operandWidth_eq (op : UInt8) : Instruction.operandWidth op = (ofByte op).width := by
  unfold Instruction.operandWidth ofByte
  grind

theorem isSigned_iff (op : UInt8) : Instruction.isSigned op = true ↔ (ofByte op).low < 0 := by
  unfold Instruction.isSigned
  rw [operandWidth_eq]
  unfold ofByte
  grind

theorem bounds (op : UInt8) :
    (ofByte op).high = (ofByte op).low + ByteOrder.span (ofByte op).width ∧
      ((ofByte op).low = 0 ∨ (ofByte op).low < 0 ∧
        2 * (ofByte op).low = -ByteOrder.span (ofByte op).width) := by
  unfold ofByte
  repeat' split
  all_goals decide

end OperandForm

namespace Command

theorem operandOf_word (c : Command) : Instruction.operandOf c.op c.word = c.operand := by
  obtain ⟨hhigh, hlow⟩ := OperandForm.bounds c.op
  have hsigned := OperandForm.isSigned_iff c.op
  have hle := c.low_le
  have hlt := c.lt_high
  have hspan : (0 : Int) < ByteOrder.span c.width := by
    unfold width
    omega
  have hword : (c.word : Int) = c.operand % ByteOrder.span c.width :=
    Int.toNat_of_nonneg (Int.emod_nonneg _ (by omega))
  unfold Instruction.operandOf
  rw [OperandForm.operandWidth_eq]
  change (if _ then (c.word : Int).bmod (ByteOrder.span c.width) else (c.word : Int)) = _
  rw [hword]
  unfold width at *
  split
  next hyes =>
    have hneg := hsigned.mp hyes
    rw [Int.emod_bmod]
    apply Int.bmod_eq_of_le <;> omega
  next hno =>
    have hzero : (OperandForm.ofByte c.op).low = 0 := by
      have := mt hsigned.mpr hno
      omega
    exact Int.emod_eq_of_lt (by omega) (by omega)

end Command

namespace Decode

variable {α β : Type} {data : ByteArray} {pos : Nat}

def Finds (data : ByteArray) (read : Decode α) (a : α) : Prop :=
  ∀ pos, ∃ stop, read ⟨data, pos, .big⟩ = .ok a ⟨data, stop, .big⟩

theorem finds_pure (a : α) : Finds data (pure a) a := fun pos => ⟨pos, rfl⟩

theorem finds_bind {read : Decode α} {rest : α → Decode β} {a : α} {b : β}
    (hread : Finds data read a) (hrest : Finds data (rest a) b) :
    Finds data (read >>= rest) b := by
  intro pos
  obtain ⟨middle, hfirst⟩ := hread pos
  obtain ⟨stop, hsecond⟩ := hrest middle
  exact ⟨stop, by rw [bind_ok hfirst, hsecond]⟩

theorem jump_bind {rest : Unit → Decode α} {c : Cursor} {target : Nat} :
    (jump target >>= rest) c = rest () { c with pos := target } :=
  rfl

theorem finds_seek_bind {rest : Unit → Decode α} {a : α} {target : Nat}
    (hfits : target ≤ data.size)
    (hrest : ∃ stop, rest () ⟨data, target, .big⟩ = .ok a ⟨data, stop, .big⟩) :
    Finds data (seek target >>= rest) a := by
  intro pos
  rw [bind_ok (seek_ok hfits)]
  exact hrest

theorem finds_mapM {ρ : Type} {part : ρ → Decode β} {record : α → ρ} {value : α → β}
    {items : List α} (h : ∀ item ∈ items, Finds data (part (record item)) (value item)) :
    Finds data ((items.map record).mapM part) (items.map value) := by
  induction items with
  | nil => exact finds_pure []
  | cons item rest ih =>
    rw [List.map_cons, List.mapM_cons]
    refine finds_bind (h item List.mem_cons_self) (finds_bind (ih ?_) (finds_pure _))
    exact fun other hother => h other (List.mem_cons_of_mem _ hother)

/-- The read gives back what was written, and moves past it. -/
def Undoes (data : ByteArray) (read : Decode α) (bytes : List UInt8) (a : α) : Prop :=
  ∀ pos, Holds data pos bytes →
    read ⟨data, pos, .big⟩ = .ok a ⟨data, pos + bytes.length, .big⟩

theorem undoes_pure (a : α) : Undoes data (pure a) [] a := fun _ _ => rfl

theorem undoes_bind {read : Decode α} {rest : α → Decode β} {front back : List UInt8} {a : α}
    {b : β} (hread : Undoes data read front a) (hrest : Undoes data (rest a) back b) :
    Undoes data (read >>= rest) (front ++ back) b := by
  intro pos h
  rw [bind_ok (hread pos h.append_left), hrest _ h.append_right, List.length_append, Nat.add_assoc]

theorem undoes_bind_pure {read : Decode α} {bytes : List UInt8} {a : α} (f : α → β)
    (hread : Undoes data read bytes a) :
    Undoes data (read >>= fun x => pure (f x)) bytes (f a) := by
  intro pos h
  rw [bind_ok (hread pos h)]
  rfl

theorem undoes_u16_count (n : Nat) :
    Undoes data u16 (ByteOrder.big.bytes 2 n) (UInt16.ofNat n) := by
  intro pos h
  rw [u16_ok (c := ⟨data, pos, .big⟩) h, ByteOrder.length_bytes]

theorem undoes_u16 (n : UInt16) : Undoes data u16 (ByteOrder.big.bytes 2 n.toNat) n := by
  have h : Undoes data u16 _ _ := undoes_u16_count n.toNat
  rwa [UInt16.ofNat_toNat] at h

theorem undoes_u32_count (n : Nat) :
    Undoes data u32 (ByteOrder.big.bytes 4 n) (UInt32.ofNat n) := by
  intro pos h
  rw [u32_ok (c := ⟨data, pos, .big⟩) h, ByteOrder.length_bytes]

theorem undoes_u32 (n : UInt32) : Undoes data u32 (ByteOrder.big.bytes 4 n.toNat) n := by
  have h : Undoes data u32 _ _ := undoes_u32_count n.toNat
  rwa [UInt32.ofNat_toNat] at h

theorem undoes_i16 (n : Int16) : Undoes data i16 (ByteOrder.big.bytes 2 n.toUInt16.toNat) n := by
  have h : Undoes data i16 _ _ := undoes_bind_pure UInt16.toInt16 (undoes_u16 n.toUInt16)
  rwa [Int16.toInt16_toUInt16] at h

theorem undoes_u8 (n : UInt8) : Undoes data u8 [n] n := fun _ h => u8_ok h

theorem undoes_times {read : Decode β} {write : α → List UInt8} {value : α → β} {items : List α}
    (h : ∀ item ∈ items, Undoes data read (write item) (value item)) :
    Undoes data (times items.length read) (items.flatMap write) (items.map value) := by
  induction items with
  | nil => exact undoes_pure []
  | cons item rest ih =>
    rw [List.flatMap_cons]
    refine undoes_bind (h item List.mem_cons_self) (undoes_bind_pure _ (ih ?_))
    exact fun other hother => h other (List.mem_cons_of_mem _ hother)

theorem length_idsWritten (ids : List UInt16) : (idsWritten ids).length = ids.length * 2 := by
  induction ids with
  | nil => rfl
  | cons id rest ih =>
    rw [idsWritten, List.flatMap_cons, List.length_append, ByteOrder.length_bytes, List.length_cons]
    change 2 + (idsWritten rest).length = _
    omega

theorem undoes_ids (ids : List UInt16) :
    Undoes data (times ids.length u16) (idsWritten ids) ids := by
  have h : Undoes data (times ids.length u16) (idsWritten ids) (ids.map id) :=
    undoes_times fun n _ => undoes_u16 n
  rwa [List.map_id] at h

theorem finds_nameIds {offset : UInt32} {ids : List UInt16} (h : IdsAt data offset ids) :
    Finds data (nameIds ids.length offset.toNat) ids := by
  rcases h with rfl | h
  · exact finds_pure []
  · have hfits := h.fits
    rw [length_idsWritten] at hfits
    unfold nameIds
    split
    next hempty =>
      rw [List.length_eq_zero_iff.mp hempty]
      exact finds_pure []
    · refine finds_seek_bind (by omega) ?_
      rw [bind_ok (require_ok hfits)]
      exact ⟨_, undoes_ids ids _ h⟩

end Decode

namespace Command

variable {data : ByteArray}

theorem word_lt (c : Command) : c.word < ByteOrder.span c.width := by
  have hspan : (0 : Int) < ByteOrder.span c.width := by
    have hpos := ByteOrder.span_le_span (Nat.zero_le c.width)
    rw [ByteOrder.span] at hpos
    omega
  unfold word
  have := Int.emod_lt_of_pos c.operand hspan
  omega

theorem read_written (c : Command) {start pos : Nat} (h : Holds data pos c.written) :
    Instruction.read start ⟨data, pos, .big⟩ =
      .ok (.ofByte c.op c.operand (pos - start))
        ⟨data, pos + c.written.length, .big⟩ := by
  have hsplit : Holds data pos ([c.op] ++ ByteOrder.big.bytes c.width c.word) := h
  have hword : Holds data (pos + 1) (ByteOrder.big.bytes c.width c.word) := hsplit.append_right
  have hfits := hword.fits
  rw [ByteOrder.length_bytes] at hfits
  have hop : Decode.u8 ⟨data, pos, .big⟩ = .ok c.op ⟨data, pos + 1, .big⟩ :=
    Decode.undoes_u8 c.op pos hsplit.append_left
  have hwidth : Instruction.operandWidth c.op = c.width := OperandForm.operandWidth_eq c.op
  unfold Instruction.read Instruction.readAt
  rw [Decode.pos_bind, bind_ok hop, hwidth]
  dsimp only
  rw [bind_ok (Decode.require_ok hfits),
    bind_ok (Decode.word_ok (c := ⟨data, pos + 1, .big⟩) hword), Nat.mod_eq_of_lt c.word_lt,
    operandOf_word, length_written, Nat.add_comm c.width, ← Nat.add_assoc]
  rfl

theorem readUntil_written {commands : List Command} {start pos stop count : Nat}
    (h : Holds data pos (commands.flatMap written))
    (hstop : stop = pos + (commands.flatMap written).length)
    (hcount : (commands.flatMap written).length ≤ count) (hstart : start ≤ pos) :
    Instruction.readUntil start stop count ⟨data, pos, .big⟩ =
      .ok (placed (pos - start) commands) ⟨data, stop, .big⟩ := by
  induction commands generalizing pos count with
  | nil =>
    obtain rfl : stop = pos := hstop
    cases count with
    | zero => rfl
    | succ count =>
      unfold Instruction.readUntil
      rw [Decode.pos_bind, if_pos (Nat.le_refl _)]
      rfl
  | cons c rest ih =>
    rw [List.flatMap_cons] at h hstop hcount
    rw [List.length_append, length_written] at hstop hcount
    cases count with
    | zero => omega
    | succ count =>
      have hplace : pos + c.written.length - start = pos - start + c.written.length := by omega
      have hrest : Instruction.readUntil start stop count ⟨data, pos + c.written.length, .big⟩ =
          .ok (placed (pos + c.written.length - start) rest) ⟨data, stop, .big⟩ :=
        ih h.append_right (by rw [length_written]; omega) (by omega) (by omega)
      unfold Instruction.readUntil
      rw [Decode.pos_bind, if_neg (by dsimp only; omega), bind_ok (c.read_written h.append_left),
        bind_ok hrest, hplace]
      rfl

end Command

namespace HandlerLayout

variable (m : HandlerLayout) {data : ByteArray}

theorem finds_code (h : Holds data m.codeOffset.toNat m.codeWritten) :
    Decode.Finds data (Instruction.readSpan m.codeOffset.toNat m.codeWritten.length)
      (Command.placed 0 m.code) := by
  have hfits := h.fits
  refine Decode.finds_seek_bind (by omega) ?_
  rw [bind_ok (Decode.require_ok hfits)]
  have hcode := Command.readUntil_written h rfl (Nat.le_refl _) (Nat.le_refl _)
  rw [Nat.sub_self] at hcode
  exact ⟨_, hcode⟩

def record (version : Nat) : HandlerRecord :=
  { nameId := m.nameId
    vectorPos := m.vectorPos
    codeLength := UInt32.ofNat m.codeWritten.length
    codeOffset := m.codeOffset
    argumentCount := UInt16.ofNat m.arguments.length
    argumentOffset := m.argumentOffset
    localCount := UInt16.ofNat m.locals.length
    localOffset := m.localOffset
    globalCount := UInt16.ofNat m.globals.length
    globalOffset := m.globalOffset
    unknown1 := m.unknown1
    unknown2 := m.unknown2
    lineCount := m.lineCount
    lineOffset := m.lineOffset
    stackHeight := if 850 ≤ version then m.stackHeight else 0 }

theorem undoes_record (version : Nat) :
    Decode.Undoes data (HandlerRecord.read version) (m.recordWritten version)
      (m.record version) := by
  unfold recordWritten extentWritten
  simp only [List.append_assoc]
  refine Decode.undoes_bind (Decode.undoes_i16 _) ?_
  refine Decode.undoes_bind (Decode.undoes_u16 _) ?_
  refine Decode.undoes_bind (Decode.undoes_u32_count _) ?_
  refine Decode.undoes_bind (Decode.undoes_u32 _) ?_
  refine Decode.undoes_bind (Decode.undoes_u16_count _) ?_
  refine Decode.undoes_bind (Decode.undoes_u32 _) ?_
  refine Decode.undoes_bind (Decode.undoes_u16_count _) ?_
  refine Decode.undoes_bind (Decode.undoes_u32 _) ?_
  refine Decode.undoes_bind (Decode.undoes_u16_count _) ?_
  refine Decode.undoes_bind (Decode.undoes_u32 _) ?_
  refine Decode.undoes_bind (Decode.undoes_u32 _) ?_
  refine Decode.undoes_bind (Decode.undoes_u16 _) ?_
  refine Decode.undoes_bind (Decode.undoes_u16 _) ?_
  refine Decode.undoes_bind (Decode.undoes_u32 _) ?_
  unfold record
  dsimp only
  split
  · exact Decode.undoes_bind_pure _ (Decode.undoes_u32 _)
  · exact Decode.undoes_bind_pure _ (Decode.undoes_pure 0)

theorem finds_parts (version : Nat) (h : m.Stored data) :
    Decode.Finds data (HandlerRecord.readParts (m.record version)) m.handler := by
  have hcode : (UInt32.ofNat m.codeWritten.length).toNat = m.codeWritten.length :=
    UInt32.toNat_ofNat_of_lt m.code_fits
  have hcount {n : Nat} (hn : n < 0x10000) : (UInt16.ofNat n).toNat = n :=
    UInt16.toNat_ofNat_of_lt hn
  unfold HandlerRecord.readParts record
  dsimp only
  rw [hcode, hcount m.arguments_fit, hcount m.locals_fit, hcount m.globals_fit]
  refine Decode.finds_bind (m.finds_code h.code) ?_
  refine Decode.finds_bind (Decode.finds_nameIds h.arguments) ?_
  refine Decode.finds_bind (Decode.finds_nameIds h.locals) ?_
  exact Decode.finds_bind (Decode.finds_nameIds h.globals) (Decode.finds_pure _)

end HandlerLayout

theorem Latin1.decode_bytes {text : List Char} (h : ∀ c ∈ text, c.toNat < 256) :
    decode (text.map (UInt8.ofNat ·.toNat)) = String.ofList text := by
  have hchars : (text.map (UInt8.ofNat ·.toNat)).map char = text := by
    rw [List.map_map]
    refine (List.map_congr_left fun c hc => ?_).trans (List.map_id text)
    have hbyte : (UInt8.ofNat c.toNat).toNat = c.toNat := UInt8.toNat_ofNat_of_lt (h c hc)
    rw [Function.comp_apply, char, hbyte, Char.ofNat_toNat]
    rfl
  rw [decode, hchars]

namespace LiteralLayout

variable {data : ByteArray}

def record (l : LiteralLayout) : LiteralRecord := { code := l.code, offset := l.slot }

theorem undoes_record (version : Nat) (l : LiteralLayout) :
    Decode.Undoes data (LiteralRecord.read version) (l.recordWritten version) l.record := by
  have hcode : (UInt16.ofNat l.code.toNat).toUInt32 = l.code := by cases l <;> rfl
  unfold LiteralRecord.read recordWritten
  dsimp only
  split
  · exact Decode.undoes_bind (Decode.undoes_u32 _)
      (Decode.undoes_bind_pure _ (Decode.undoes_u32 _))
  · have hkind : Decode.Undoes data (UInt16.toUInt32 <$> Decode.u16)
        (ByteOrder.big.bytes 2 l.code.toNat) (UInt16.ofNat l.code.toNat).toUInt32 := by
      rw [map_eq_pure_bind]
      exact Decode.undoes_bind_pure _ (Decode.undoes_u16_count _)
    rw [hcode] at hkind
    exact Decode.undoes_bind hkind (Decode.undoes_bind_pure _ (Decode.undoes_u32 _))

theorem further_eq (left right : UInt32) :
    further left.toNat right.toNat = left.toNat + right.toNat := by
  have hleft := left.toNat_lt
  have hright := right.toNat_lt
  unfold further
  omega

theorem undoes_text {text : List Char} (h : ∀ c ∈ text, c.toNat < 256) :
    Decode.Undoes data (Decode.latin1 text.length) (text.map (UInt8.ofNat ·.toNat))
      (String.ofList text) := by
  intro pos hbytes
  have hread := Decode.latin1_ok (c := ⟨data, pos, .big⟩) hbytes
  rw [List.length_map, Latin1.decode_bytes h] at hread
  rw [hread, List.length_map]

theorem undoes_float (value : Binary64) :
    Decode.Undoes data (LiteralRecord.readFloat 8) (ByteOrder.big.bytes 8 value.bits.toNat)
      value := by
  have hvalue : ByteOrder.bigValue (ByteOrder.big.bytes 8 value.bits.toNat) = value.bits.toNat :=
    ByteOrder.value_bytes_of_lt .big value.bits.toNat_lt
  intro pos hbytes
  unfold LiteralRecord.readFloat
  rw [if_pos rfl, bind_ok (Decode.bytes_ok (c := ⟨data, pos, .big⟩) hbytes
    (ByteOrder.length_bytes ..)), octets_toByteArray, hvalue, UInt64.ofNat_toNat,
    ByteOrder.length_bytes]
  rfl

theorem finds_sized {dataOffset slot length : UInt32} {read : UInt32 → Decode Datum} {a : Datum}
    {bytes rest : List UInt8}
    (h : Holds data (dataOffset.toNat + slot.toNat)
      (ByteOrder.big.bytes 4 length.toNat ++ (bytes ++ rest)))
    (hread : Decode.Undoes data (read length) bytes a) :
    Decode.Finds data (do
      Decode.seek (further dataOffset.toNat slot.toNat)
      read (← Decode.u32)) a := by
  have hfits := h.fits
  rw [← List.append_assoc] at h
  rw [further_eq]
  refine Decode.finds_seek_bind (by omega) ?_
  exact ⟨_, Decode.undoes_bind (Decode.undoes_u32 length) hread _ h.append_left⟩

theorem finds_value {dataOffset : UInt32} (l : LiteralLayout) (h : l.Stored data dataOffset) :
    Decode.Finds data (LiteralRecord.readValue dataOffset.toNat l.record) l.datum := by
  cases l with
  | int value => exact Decode.finds_pure _
  | string text offset latin fits =>
    have hlength : (UInt32.ofNat (text.length + 1)).toNat = text.length + 1 :=
      UInt32.toNat_ofNat_of_lt fits
    have hplace : Holds data (dataOffset.toNat + offset.toNat)
        (ByteOrder.big.bytes 4 (text.length + 1) ++ (text.map (UInt8.ofNat ·.toNat) ++ [0])) := h
    rw [← hlength] at hplace
    apply finds_sized hplace
    rw [hlength, Nat.add_sub_cancel]
    exact Decode.undoes_bind_pure _ (undoes_text latin)
  | float value offset =>
    have hplace : Holds data (dataOffset.toNat + offset.toNat) (ByteOrder.big.bytes 4
        (8 : UInt32).toNat ++ (ByteOrder.big.bytes 8 value.bits.toNat ++ [])) := by
      rw [List.append_nil]
      exact h
    exact finds_sized hplace (Decode.undoes_bind_pure _ (undoes_float value))

end LiteralLayout

namespace Script

variable {data : ByteArray}

theorem undoes_extent {count : Nat} (offset : UInt32) (h : count < 0x10000) :
    Decode.Undoes data readExtent (extentWritten count offset) (count, offset.toNat) := by
  have hcount : (UInt16.ofNat count).toNat = count := UInt16.toNat_ofNat_of_lt h
  refine Decode.undoes_bind (Decode.undoes_u16_count count) ?_
  rw [hcount]
  exact Decode.undoes_bind_pure _ (Decode.undoes_u32 offset)

/-- A table of records is read, and then the part of each. -/
theorem finds_table {α β ρ : Type} {items : List α} {offset : Nat} {record : Decode ρ}
    {part : ρ → Decode β} {write : α → List UInt8} {recordOf : α → ρ} {value : α → β}
    (h : Holds data offset (items.flatMap write))
    (hrecord : ∀ item, Decode.Undoes data record (write item) (recordOf item))
    (hpart : ∀ item ∈ items, Decode.Finds data (part (recordOf item)) (value item)) :
    Decode.Finds data (readTable (items.length, offset) record part) (items.map value) := by
  have hfits := h.fits
  have hrecords : Decode.Undoes data (Decode.times items.length record) (items.flatMap write)
      (items.map recordOf) := Decode.undoes_times fun item _ => hrecord item
  refine Decode.finds_seek_bind (by dsimp only; omega) ?_
  rw [bind_ok (hrecords offset h)]
  exact Decode.finds_mapM hpart _

end Script

namespace ScriptLayout

variable (m : ScriptLayout) {version : Nat} {data : ByteArray}

def head : ScriptHead where
  number := m.number
  parentNumber := m.parentNumber
  flags := m.flags
  castId := m.castId
  factoryNameId := m.factoryNameId
  properties := (m.properties.length, m.propertyOffset.toNat)
  globals := (m.globals.length, m.globalOffset.toNat)
  handlers := (m.handlers.length, m.handlerOffset.toNat)
  literals := (m.literals.length, m.literalOffset.toNat)
  dataOffset := m.dataOffset.toNat

theorem readHead_stored (h : m.Stored version data) (pos : Nat) (order : ByteOrder) :
    Script.readHead ⟨data, pos, order⟩ = .ok m.head ⟨data, 92, .big⟩ := by
  have hfits := h.dataOffset.fits
  rw [ByteOrder.length_bytes] at hfits
  have hglobals := h.extents.append_right
  have hhandlers := hglobals.append_right
  have hliterals := hhandlers.append_right
  unfold Script.readHead
  rw [bind_ok (Decode.setOrder_ok .big), bind_ok (Decode.seek_ok (Nat.zero_le _)),
    bind_ok (Decode.require_ok (by exact hfits)), Decode.jump_bind,
    bind_ok (Decode.undoes_u16 _ _ h.number), Decode.jump_bind,
    bind_ok (Decode.undoes_u16 _ _ h.parentNumber), Decode.jump_bind,
    bind_ok (Decode.undoes_u32 _ _ h.flags), Decode.jump_bind,
    bind_ok (Decode.undoes_u32 _ _ h.cast.append_left),
    bind_ok (Decode.undoes_u16 _ _ h.cast.append_right), Decode.jump_bind,
    bind_ok (Script.undoes_extent _ m.properties_fit _ h.extents.append_left),
    bind_ok (Script.undoes_extent _ m.globals_fit _ hglobals.append_left),
    bind_ok (Script.undoes_extent _ m.handlers_fit _ hhandlers.append_left),
    bind_ok (Script.undoes_extent _ m.literals_fit _ hliterals), Decode.jump_bind,
    bind_ok (Decode.undoes_u32 _ _ h.dataOffset)]
  rfl

theorem finds_tables (h : m.Stored version data) :
    Decode.Finds data (Script.readTables version m.head) m.script := by
  refine Decode.finds_bind (Decode.finds_nameIds h.properties) ?_
  refine Decode.finds_bind (Decode.finds_nameIds h.globals) ?_
  refine Decode.finds_bind (Script.finds_table h.handlerRecords
    (fun handler => handler.undoes_record version)
    fun handler hhandler => handler.finds_parts version (h.handlers handler hhandler)) ?_
  refine Decode.finds_bind (Script.finds_table h.literalRecords
    (fun l => l.undoes_record version) fun l hl => l.finds_value (h.literals l hl)) ?_
  exact Decode.finds_pure _

/-- A stored script is read back, with each instruction at its distance from the start of its
code, from any position and in any byte order. -/
theorem read_stored (h : m.Stored version data) (pos : Nat) (order : ByteOrder) :
    (∀ handler ∈ m.handlers,
      (handler.recordWritten version).length = if 850 ≤ version then 46 else 42) ∧
    (∀ l ∈ m.literals, (l.recordWritten version).length = if 500 ≤ version then 8 else 6) ∧
    ∃ stop, Script.read version ⟨data, pos, order⟩ = .ok m.script ⟨data, stop, .big⟩ := by
  refine ⟨fun handler _ => handler.length_recordWritten version,
    fun l _ => l.length_recordWritten version, ?_⟩
  unfold Script.read
  rw [bind_ok (m.readHead_stored h pos order)]
  exact m.finds_tables h _

end ScriptLayout

def smallHandler : HandlerLayout where
  nameId := -1
  code := [⟨0x41, -3, by decide, by decide⟩, ⟨0xAE, -2, by decide, by decide⟩,
    ⟨0xC3, 1000000, by decide, by decide⟩, ⟨0x57, 200, by decide, by decide⟩,
    ⟨0x01, 0, by decide, by decide⟩]
  arguments := [8]
  locals := []
  globals := [7]
  codeOffset := 140
  argumentOffset := 153
  localOffset := 0
  globalOffset := 155
  vectorPos := 2
  unknown1 := 0
  unknown2 := 0
  lineCount := 0
  lineOffset := 0
  stackHeight := 4
  code_fits := by decide
  arguments_fit := by decide
  locals_fit := by decide
  globals_fit := by decide

theorem toNat_lt_of_mem_accent : ∀ c ∈ ['é'], c.toNat < 256 := by
  intro c hc
  rw [List.mem_singleton.mp hc]
  decide

def smallScript : ScriptLayout where
  number := 5
  parentNumber := 0xFFFF
  flags := 0x80000001
  castId := 12
  factoryNameId := 0xFFFF
  properties := [3]
  globals := []
  handlers := [smallHandler]
  literals := [.string ['é'] 0 toNat_lt_of_mem_accent (by decide), .int (-5),
    .float ⟨0x3FF8000000000000⟩ 6]
  propertyOffset := 92
  globalOffset := 0xFFFFFFFF
  handlerOffset := 94
  literalOffset := 157
  dataOffset := 181
  properties_fit := by decide
  globals_fit := by decide
  handlers_fit := by decide
  literals_fit := by decide

def smallScriptBytes : List UInt8 :=
  List.replicate 18 0 ++ [0, 5, 0, 0, 0xFF, 0xFF] ++ List.replicate 14 0 ++
  [0x80, 0, 0, 1, 0, 0, 0, 0, 0, 12, 0xFF, 0xFF] ++ List.replicate 10 0 ++
  [0, 1, 0, 0, 0, 92, 0, 0, 0xFF, 0xFF, 0xFF, 0xFF, 0, 1, 0, 0, 0, 94, 0, 3, 0, 0, 0, 157] ++
  [0, 0, 0, 0, 0, 0, 0, 181, 0, 3] ++
  [0xFF, 0xFF, 0, 2, 0, 0, 0, 13, 0, 0, 0, 140, 0, 1, 0, 0, 0, 153, 0, 0, 0, 0, 0, 0] ++
  [0, 1, 0, 0, 0, 155, 0, 0, 0, 0, 0, 0, 0, 0, 0, 0, 0, 0, 0, 0, 0, 4] ++
  [0x41, 0xFD, 0xAE, 0xFF, 0xFE, 0xC3, 0x00, 0x0F, 0x42, 0x40, 0x57, 0xC8, 0x01, 0, 8, 0, 7] ++
  [0, 0, 0, 1, 0, 0, 0, 0, 0, 0, 0, 4, 0xFF, 0xFF, 0xFF, 0xFB, 0, 0, 0, 9, 0, 0, 0, 6] ++
  [0, 0, 0, 2, 0xE9, 0, 0, 0, 0, 8, 0x3F, 0xF8, 0, 0, 0, 0, 0, 0]

theorem Holds.of_take {all bytes : List UInt8} {pos : Nat}
    (h : (all.drop pos).take bytes.length = bytes) (hne : bytes ≠ []) :
    Holds all.toByteArray pos bytes := by
  have hpos : pos ≤ all.length := by
    refine Nat.le_of_not_lt fun hlt => hne ?_
    rw [← h, List.drop_eq_nil_of_le (by omega), List.take_nil]
  refine ⟨all.take pos, (all.drop pos).drop bytes.length, ?_, ?_⟩
  · have hsplit := List.take_append_drop bytes.length (all.drop pos)
    rw [h] at hsplit
    rw [octets_toByteArray, List.append_assoc, hsplit, List.take_append_drop]
  · rw [List.length_take]
    omega

theorem stored_smallScript : smallScript.Stored 850 smallScriptBytes.toByteArray where
  number := .of_take (by decide) (by decide)
  parentNumber := .of_take (by decide) (by decide)
  flags := .of_take (by decide) (by decide)
  cast := .of_take (by decide) (by decide)
  extents := .of_take (by decide) (by decide)
  dataOffset := .of_take (by decide) (by decide)
  properties := .inr (.of_take (by decide) (by decide))
  globals := .inl rfl
  handlerRecords := .of_take (by decide) (by decide)
  handlers := by
    intro handler hhandler
    cases List.mem_singleton.mp hhandler
    exact ⟨.of_take (by decide) (by decide), .inr (.of_take (by decide) (by decide)), .inl rfl,
      .inr (.of_take (by decide) (by decide))⟩
  literalRecords := .of_take (by decide) (by decide)
  literals := by
    intro l hl
    rcases List.mem_cons.mp hl with rfl | hl
    · exact Holds.of_take (by decide) (by decide)
    · rcases List.mem_cons.mp hl with rfl | hl
      · trivial
      · cases List.mem_singleton.mp hl
        exact Holds.of_take (by decide) (by decide)

theorem read_smallScript :
    smallScript.Stored 850 smallScriptBytes.toByteArray ∧
    ∃ stop, Script.read 850 ⟨smallScriptBytes.toByteArray, 7, .little⟩ =
      .ok { number := 5, parentNumber := 0xFFFF, flags := 0x80000001, castId := 12
            factoryNameId := 0xFFFF
            literals := [.string "é", .int (-5), .float ⟨0x3FF8000000000000⟩]
            handlers := [{ nameId := -1, arguments := [8], locals := [], globals := [7]
                           code := [.ofByte 0x41 (-3) 0, .ofByte 0xAE (-2) 2,
                             .ofByte 0xC3 1000000 5, .ofByte 0x57 200 10, .ofByte 0x01 0 12] }]
            properties := [3], globals := [] } ⟨smallScriptBytes.toByteArray, stop, .big⟩ := by
  obtain ⟨-, -, hread⟩ := smallScript.read_stored stored_smallScript 7 .little
  exact ⟨stored_smallScript, hread⟩

end Shockwave
