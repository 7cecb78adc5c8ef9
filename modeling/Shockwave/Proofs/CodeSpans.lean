import Shockwave.Proofs.Spans
import Shockwave.Script.Instruction

/-!
Code that is read from a span of a stream. Instructions follow one another from the start of the
span, each as long as its code byte tells, and the last is the first to reach the end of the span.
Only the stream bounds its operand, so it may take bytes that belong to whatever comes next.
-/
namespace Shockwave

theorem Holds.byte_unique {data : ByteArray} {pos : Nat} {byte byte' : UInt8}
    (h : Holds data pos [byte]) (h' : Holds data pos [byte']) : byte = byte' := by
  have hpos : pos < data.size := h.fits
  rw [← h.getElem hpos, h'.getElem hpos]

namespace Instruction

def byteCount (op : UInt8) : Nat := operandWidth op + 1

def extent : List Instruction → Nat
  | [] => 0
  | first :: rest => byteCount first.op + extent rest

structure StandsAt (data : ByteArray) (order : ByteOrder) (start pos : Nat) (i : Instruction)
    (next : Nat) : Prop where
  written : ∃ word < ByteOrder.span (operandWidth i.op),
    Holds data pos (i.op :: order.bytes (operandWidth i.op) word) ∧ i.operand = operandOf i.op word
  opcode_eq : i.opcode? = Opcode.ofByte? i.op
  pos_eq : i.pos = pos - start
  next_eq : next = pos + byteCount i.op

/-- The instructions from a position on, up to the first that reaches the end of the span. -/
inductive Runs (data : ByteArray) (order : ByteOrder) (start stop : Nat) :
    Nat → List Instruction → Nat → Prop where
  | done {pos : Nat} (hpos : stop ≤ pos) : Runs data order start stop pos [] pos
  | step {pos next last : Nat} {first : Instruction} {rest : List Instruction} (hpos : pos < stop)
      (hfirst : StandsAt data order start pos first next)
      (hrest : Runs data order start stop next rest last) :
      Runs data order start stop pos (first :: rest) last

/-- The positions where the code bytes tell that instructions start, if the first starts here. -/
inductive Boundary (data : ByteArray) (start : Nat) : Nat → Prop where
  | first : Boundary data start start
  | next {pos : Nat} {op : UInt8} (hpos : Boundary data start pos) (hop : Holds data pos [op]) :
      Boundary data start (pos + byteCount op)

/-- An instruction starts before the end of the span and would go on up to a position behind it. -/
def Crosses (data : ByteArray) (start stop next : Nat) : Prop :=
  ∃ pos op, Boundary data start pos ∧ Holds data pos [op] ∧ pos < stop ∧ stop < next ∧
    next = pos + byteCount op

variable {data : ByteArray} {order : ByteOrder} {start stop pos next last : Nat}
  {i : Instruction} {code : List Instruction}

theorem StandsAt.holds_op (h : StandsAt data order start pos i next) : Holds data pos [i.op] := by
  obtain ⟨word, -, hwritten, -⟩ := h.written
  have hsplit : Holds data pos ([i.op] ++ order.bytes (operandWidth i.op) word) := hwritten
  exact hsplit.append_left

theorem StandsAt.next_le_size (h : StandsAt data order start pos i next) : next ≤ data.size := by
  obtain ⟨word, -, hwritten, -⟩ := h.written
  have hfits := hwritten.fits
  rw [List.length_cons, ByteOrder.length_bytes] at hfits
  rwa [h.next_eq, byteCount]

theorem exists_standsAt (order : ByteOrder) (start : Nat) {op : UInt8} (hop : Holds data pos [op])
    (hfits : pos + byteCount op ≤ data.size) :
    ∃ i, StandsAt data order start pos i (pos + byteCount op) := by
  have hoperand : pos + 1 + operandWidth op ≤ data.size := by
    unfold byteCount at hfits
    omega
  obtain ⟨bytes, hbytes, hlength⟩ := Holds.of_fits hoperand
  have hlt := order.value_lt bytes
  rw [hlength] at hlt
  rw [← order.bytes_value hlength] at hbytes
  exact ⟨ofByte op (operandOf op (order.value bytes)) (pos - start),
    ⟨_, hlt, hop.append hbytes rfl, rfl⟩, rfl, rfl, rfl⟩

theorem spans_read (start : Nat) :
    Spans id data order (read start) (StandsAt data order start) := by
  -- The distance of an instruction is taken before its code byte is read.
  have hop : Spans id data order Decode.u8 _ := Decode.spans_u8
  have hread (distance : Nat) := spans_bind hop fun op =>
    spans_bind (Decode.spans_require (operandWidth op)) fun _ =>
      spans_bind (Decode.spans_word (operandWidth op)) fun word =>
        spans_pure (ofByte op (operandOf op word) distance)
  refine Spans.congr (spans_get_bind fun c pos hc => by
    rw [show c.pos = pos from congrArg Cursor.pos hc]
    exact hread (pos - start)) fun pos i next => ?_
  constructor
  · rintro ⟨op, _, ⟨hop, rfl⟩, _, _, ⟨-, rfl⟩, word, _, ⟨hword, hlt, rfl⟩, rfl, rfl⟩
    rw [ByteOrder.bytes_one, UInt8.ofNat_toNat] at hop
    exact ⟨⟨word, hlt, hop.append hword rfl, rfl⟩, rfl, rfl, Nat.add_right_comm pos 1 _⟩
  · rintro ⟨⟨word, hlt, hwritten, hoperand⟩, hopcode, hpos, rfl⟩
    have hsplit : Holds data pos ([i.op] ++ order.bytes (operandWidth i.op) word) := hwritten
    have hword := hsplit.append_right
    have hfits := hword.fits
    rw [ByteOrder.length_bytes] at hfits
    refine ⟨i.op, pos + 1, ⟨?_, rfl⟩, (), pos + 1, ⟨?_, rfl⟩, word, _, ⟨hword, hlt, rfl⟩, ?_, ?_⟩
    · rw [ByteOrder.bytes_one, UInt8.ofNat_toNat]
      exact hsplit.append_left
    · rw [List.length_singleton] at hfits
      omega
    · rw [ofByte, ← hoperand, ← hopcode, ← hpos]
    · rw [byteCount]
      omega

theorem runs_of_readUntil {count : Nat} {d : Cursor} (hcount : stop ≤ pos + count)
    (h : readUntil start stop count ⟨data, pos, order⟩ = .ok code d) :
    ∃ last, Runs data order start stop pos code last ∧ d = ⟨data, last, order⟩ := by
  induction count generalizing pos code with
  | zero =>
    cases h
    exact ⟨pos, .done hcount, rfl⟩
  | succ count ih =>
    unfold readUntil at h
    rw [Decode.pos_bind] at h
    split at h
    next hend =>
      cases h
      exact ⟨pos, .done hend, rfl⟩
    next hinside =>
      obtain ⟨first, d', hread, h⟩ := exists_of_bind_ok h
      obtain ⟨rest, _, hmore, hcode⟩ := exists_of_bind_ok h
      obtain ⟨next, hfirst, hplace⟩ := (spans_read start).of_ok rfl hread
      obtain rfl : d' = ⟨data, next, order⟩ := hplace
      have hnext := hfirst.next_eq
      unfold byteCount at hnext
      have hleft : stop ≤ next + count := by omega
      cases hcode
      obtain ⟨last, hrest, rfl⟩ := ih hleft hmore
      exact ⟨last, .step (Nat.not_le.mp hinside) hfirst hrest, rfl⟩

theorem readUntil_of_runs {count : Nat} (hcount : stop ≤ pos + count)
    (h : Runs data order start stop pos code last) :
    readUntil start stop count ⟨data, pos, order⟩ = .ok code ⟨data, last, order⟩ := by
  induction h generalizing count with
  | done hpos =>
    cases count with
    | zero => rfl
    | succ count =>
      unfold readUntil
      rw [Decode.pos_bind, if_pos hpos]
      rfl
  | step hpos hfirst hrest ih =>
    cases count with
    | zero => omega
    | succ count =>
      have hnext := hfirst.next_eq
      unfold byteCount at hnext
      obtain ⟨d, hread, hplace⟩ := (spans_read start).to_ok rfl hfirst
      obtain rfl : d = _ := hplace
      have hmore := @ih count (by omega)
      unfold readUntil
      rw [Decode.pos_bind, if_neg (by dsimp only; omega), bind_ok hread, bind_ok hmore]
      rfl

/-- A code is read from a span if the span and all its instructions fit in the stream. -/
theorem readSpan_eq_ok_iff {c d : Cursor} {offset length : Nat} :
    readSpan offset length c = .ok code d ↔
      offset + length ≤ c.data.size ∧
      ∃ last, Runs c.data c.order offset (offset + length) offset code last ∧
        d = { c with pos := last } := by
  constructor
  · intro h
    have hplaced : Spans id c.data c.order _ _ :=
      spans_bind (Decode.spans_seek offset) fun _ => Decode.spans_require length
    rw [readSpan, ← bind_assoc] at h
    obtain ⟨_, d', hstart, hcode⟩ := exists_of_bind_ok h
    obtain ⟨_, ⟨_, _, ⟨hoffset, rfl⟩, hlength, rfl⟩, hplace⟩ := hplaced.of_ok rfl hstart
    obtain rfl : d' = ⟨c.data, _, c.order⟩ := hplace
    exact ⟨by omega, runs_of_readUntil (Nat.le_refl _) hcode⟩
  · rintro ⟨hfits, last, hruns, rfl⟩
    unfold readSpan
    rw [bind_ok (Decode.seek_ok (by omega)), bind_ok (Decode.require_ok hfits)]
    exact readUntil_of_runs (Nat.le_refl _) hruns

namespace Runs

theorem last_eq (h : Runs data order start stop pos code last) : last = pos + extent code := by
  induction h with
  | done => rfl
  | step _ hfirst _ ih =>
    have hnext := hfirst.next_eq
    rw [extent]
    omega

theorem end_le_last (h : Runs data order start stop pos code last) (hstart : start ≤ pos) :
    ∀ i ∈ code, start + i.pos + byteCount i.op ≤ last := by
  induction h with
  | done => simp
  | step _ hfirst hrest ih =>
    have hnext := hfirst.next_eq
    have hpos := hfirst.pos_eq
    have hlast := hrest.last_eq
    intro i hi
    rcases List.mem_cons.mp hi with rfl | hmem
    · omega
    · exact ih (by omega) i hmem

theorem last_eq_or_crosses (h : Runs data order start stop pos code last)
    (hpos : Boundary data start pos) (hle : pos ≤ stop) :
    last = stop ∨ Crosses data start stop last ∧ last ≤ data.size := by
  induction h with
  | done hend => exact .inl (Nat.le_antisymm hle hend)
  | @step pos next last first rest hinside hfirst hrest ih =>
    have hnext := hfirst.next_eq
    rcases Nat.lt_or_ge stop next with hover | hle
    · have hlast : last = next := by
        cases hrest with
        | done => rfl
        | step hnext _ _ => omega
      subst hlast
      exact .inr ⟨⟨pos, first.op, hpos, hfirst.holds_op, hinside, hover, hnext⟩,
        hfirst.next_le_size⟩
    · subst hnext
      exact ih (hpos.next hfirst.holds_op) hle

/-- A run meets every boundary inside its span. -/
theorem exists_tail (h : Runs data order start stop start code last)
    (hpos : Boundary data start pos) (hinside : pos < stop) :
    ∃ tail, Runs data order start stop pos tail last := by
  induction hpos with
  | first => exact ⟨code, h⟩
  | @next pos op _ hop ih =>
    obtain ⟨tail, htail⟩ := ih (by omega)
    cases htail with
    | done hend => omega
    | step _ hfirst hrest =>
      rw [hop.byte_unique hfirst.holds_op, ← hfirst.next_eq]
      exact ⟨_, hrest⟩

theorem exists_whole {tail : List Instruction} (h : Runs data order start stop pos tail last)
    (hpos : Boundary data start pos) (hinside : pos < stop) (hstop : stop ≤ data.size) :
    ∃ code, Runs data order start stop start code last := by
  induction hpos generalizing tail with
  | first => exact ⟨tail, h⟩
  | @next pos op _ hop ih =>
    obtain ⟨i, hi⟩ := exists_standsAt order start hop (by omega)
    exact ih (.step (by omega) hi h) (by omega)

end Runs

theorem Crosses.last_eq (hcrosses : Crosses data start stop next)
    (h : Runs data order start stop start code last) : last = next ∧ next ≤ data.size := by
  obtain ⟨pos, op, hpos, hop, hinside, hover, rfl⟩ := hcrosses
  obtain ⟨tail, htail⟩ := h.exists_tail hpos hinside
  cases htail with
  | done hend => omega
  | step _ hfirst hrest =>
    rw [hop.byte_unique hfirst.holds_op, ← hfirst.next_eq] at hover ⊢
    cases hrest with
    | done => exact ⟨rfl, hfirst.next_le_size⟩
    | step hnext _ _ => omega

theorem Crosses.exists_runs (order : ByteOrder) (hcrosses : Crosses data start stop next)
    (hfits : next ≤ data.size) : ∃ code, Runs data order start stop start code next := by
  obtain ⟨pos, op, hpos, hop, hinside, hover, rfl⟩ := hcrosses
  obtain ⟨i, hi⟩ := exists_standsAt order start hop hfits
  exact (Runs.step hinside hi (.done (by omega))).exists_whole hpos hinside (by omega)

structure Contained (c : Cursor) (offset length : Nat) : Prop where
  within : ∀ code d, readSpan offset length c = .ok code d →
    ∀ i ∈ code, i.pos + byteCount i.op ≤ length
  extent_eq : ∀ code d, readSpan offset length c = .ok code d → extent code = length
  refused : ∀ next, Crosses c.data offset (offset + length) next →
    ∃ e d, readSpan offset length c = .error e d

/-- An instruction that crosses the end of the span is refused only where the stream cuts it. -/
theorem contained_iff (c : Cursor) (offset length : Nat) :
    Contained c offset length ↔
      ∀ next, Crosses c.data offset (offset + length) next → c.data.size < next := by
  constructor
  · intro h next hcrosses
    refine Nat.not_le.mp fun hfits => ?_
    obtain ⟨e, d, herror⟩ := h.refused next hcrosses
    obtain ⟨code, hruns⟩ := hcrosses.exists_runs c.order hfits
    obtain ⟨-, -, -, -, -, hover, -⟩ := hcrosses
    rw [readSpan_eq_ok_iff.mpr ⟨by omega, next, hruns, rfl⟩] at herror
    cases herror
  · intro h
    have hlast {code : List Instruction} {last : Nat}
        (hruns : Runs c.data c.order offset (offset + length) offset code last) :
        last = offset + length := by
      rcases hruns.last_eq_or_crosses .first (by omega) with hend | ⟨hcrosses, hfits⟩
      · exact hend
      · exact absurd (h last hcrosses) (by omega)
    refine ⟨fun code d hok i hi => ?_, fun code d hok => ?_, fun next hcrosses => ?_⟩
    · obtain ⟨-, last, hruns, -⟩ := readSpan_eq_ok_iff.mp hok
      have hend := hruns.end_le_last (Nat.le_refl _) i hi
      have := hlast hruns
      omega
    · obtain ⟨-, last, hruns, -⟩ := readSpan_eq_ok_iff.mp hok
      have hextent := hruns.last_eq
      have := hlast hruns
      omega
    · cases hresult : readSpan offset length c with
      | error e d => exact ⟨e, d, rfl⟩
      | ok code d =>
        obtain ⟨-, last, hruns, -⟩ := readSpan_eq_ok_iff.mp hresult
        have hfits := (hcrosses.last_eq hruns).2
        exact absurd (h next hcrosses) (by omega)

theorem readSpan_crossing :
    (readSpan 0 1 ⟨[0x41, 5].toByteArray, 0, .big⟩ =
      .ok [.ofByte 0x41 5 0] ⟨[0x41, 5].toByteArray, 2, .big⟩) ∧
    ¬Contained ⟨[0x41, 5].toByteArray, 0, .big⟩ 0 1 := by
  have hok : readSpan 0 1 ⟨[0x41, 5].toByteArray, 0, .big⟩ =
      .ok [.ofByte 0x41 5 0] ⟨[0x41, 5].toByteArray, 2, .big⟩ := rfl
  exact ⟨hok, fun h => absurd (h.extent_eq _ _ hok) (by decide)⟩

end Instruction
end Shockwave
