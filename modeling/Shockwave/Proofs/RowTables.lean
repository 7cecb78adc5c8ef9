import Shockwave.Proofs.Finding

/-!
The two row tables of a classic movie, told by the bytes that stand in the stream. Sizes and counts
are taken from the table itself and none of them need fit: a table has as many rows as there is room
for in its chunk and in the stream.
-/
namespace Shockwave

/-- Rows of one size that stand one after the other from a position on. Of those promised there are as
many as fit before the limit. -/
structure Tabled {α : Type} (stands : Nat → Nat → α → Prop) (limit size pos count : Nat)
    (rows : List α) : Prop where
  length_eq : rows.length = min count ((limit - pos) / size)
  row : ∀ i row, rows[i]? = some row →
    pos + (i + 1) * size ≤ limit ∧ stands i (pos + i * size) row

section

variable {α : Type} {stands : Nat → Nat → α → Prop} {limit size pos count : Nat}

theorem tabled_nil (h : count = 0 ∨ limit < pos + size ∨ size = 0) :
    Tabled stands limit size pos count [] where
  length_eq := by
    have hnone : count = 0 ∨ (limit - pos) / size = 0 := by
      rw [Nat.div_eq_zero_iff]
      omega
    rcases hnone with hnone | hnone <;> simp [hnone]
  row := by simp

theorem Tabled.cons {row : α} {rest : List α} (hsize : 0 < size) (hfits : pos + size ≤ limit)
    (hrow : stands 0 pos row)
    (hrest : Tabled (fun i => stands (i + 1)) limit size (pos + size) count rest) :
    Tabled stands limit size pos (count + 1) (row :: rest) where
  length_eq := by
    have hdiv : (limit - pos) / size = (limit - (pos + size)) / size + 1 := by
      rw [Nat.div_eq_sub_div hsize (by omega), Nat.sub_sub]
    rw [List.length_cons, hrest.length_eq, hdiv, Nat.add_min_add_right]
  row i other hother := by
    cases i with
    | zero =>
      cases hother
      simpa using ⟨hfits, hrow⟩
    | succ i =>
      have hnext := hrest.row i other hother
      have hplace (k : Nat) : pos + size + k * size = pos + (k + 1) * size := by
        rw [Nat.add_one_mul]
        omega
      rwa [hplace, hplace] at hnext

end

theorem ByteOrder.bytes_half (order : ByteOrder) {bytes : List UInt8} (h : bytes.length = 2) :
    order.bytes 2 (UInt16.ofNat (order.value bytes)).toNat = bytes := by
  have hlt := order.value_lt bytes
  rw [h] at hlt
  have hhalf : (UInt16.ofNat (order.value bytes)).toNat = order.value bytes :=
    UInt16.toNat_ofNat_of_lt hlt
  rw [hhalf, order.bytes_value h]

theorem Cursor.fits_of_le_remaining {c : Cursor} {n : Nat} (hn : 0 < n) (h : n ≤ c.remaining) :
    c.pos + n ≤ c.data.size := by
  unfold remaining size at h
  omega

def tableFront (order : ByteOrder) (size rowSize : UInt16) (count used : UInt32) : List UInt8 :=
  order.bytes 2 size.toNat ++ order.bytes 2 rowSize.toNat ++ order.bytes 4 count.toNat ++
    order.bytes 4 used.toNat

@[simp] theorem length_tableFront (order : ByteOrder) (size rowSize : UInt16)
    (count used : UInt32) : (tableFront order size rowSize count used).length = 12 := by
  simp [tableFront]

namespace Holds

variable {data : ByteArray} {pos : Nat}

theorem exists_half (order : ByteOrder) (h : pos + 2 ≤ data.size) :
    ∃ n : UInt16, Holds data pos (order.bytes 2 n.toNat) := by
  obtain ⟨bytes, hbytes, hlength⟩ := Holds.of_fits h
  rw [← order.bytes_half hlength] at hbytes
  exact ⟨_, hbytes⟩

theorem exists_tableFront (order : ByteOrder) (h : pos + 12 ≤ data.size) :
    ∃ size rowSize count used, Holds data pos (tableFront order size rowSize count used) := by
  obtain ⟨size, hsize⟩ : ∃ n : UInt16, Holds data pos (order.bytes 2 n.toNat) :=
    exists_half order (by omega)
  obtain ⟨rowSize, hrowSize⟩ : ∃ n : UInt16, Holds data (pos + 2) (order.bytes 2 n.toNat) :=
    exists_half order (by omega)
  obtain ⟨count, hcount⟩ : ∃ n : UInt32, Holds data (pos + 4) (order.bytes 4 n.toNat) :=
    exists_word order (by omega)
  obtain ⟨used, hused⟩ : ∃ n : UInt32, Holds data (pos + 8) (order.bytes 4 n.toNat) :=
    exists_word order (by omega)
  have hsizes := hsize.append hrowSize (by simp)
  have hcounts := hsizes.append hcount (by simp)
  exact ⟨size, rowSize, count, used, hcounts.append hused (by simp)⟩

theorem tableFront_parts {order : ByteOrder} {size rowSize : UInt16} {count used : UInt32}
    (h : Holds data pos (tableFront order size rowSize count used)) :
    Holds data pos (order.bytes 2 size.toNat) ∧ Holds data (pos + 2) (order.bytes 2 rowSize.toNat) ∧
      Holds data (pos + 2 + 2) (order.bytes 4 count.toNat) ∧
      Holds data (pos + 2 + 2 + 4) (order.bytes 4 used.toNat) := by
  have hcounts := h.append_left
  have hsizes := hcounts.append_left
  refine ⟨hsizes.append_left, ?_, ?_, ?_⟩
  · simpa using hsizes.append_right
  · simpa using hcounts.append_right
  · simpa using h.append_right

end Holds

/-- The twenty bytes of a record, from a row that may be shorter or longer. -/
def recordOf (row : List UInt8) : List UInt8 := (row ++ List.replicate 20 0).take 20

structure Entry.Recorded (data : ByteArray) (order : ByteOrder) (size index pos : Nat) (e : Entry) :
    Prop where
  id_eq : e.id = Int32.ofNat index
  storage_eq : e.storage = .chunk
  row : ∃ row, row.length = size ∧ Holds data pos row ∧ e.written order = recordOf row

/-- A field of the header that is there just if it ends by the given position. -/
def FieldAt (data : ByteArray) (order : ByteOrder) (stop pos : Nat) : Option UInt32 → Prop
  | some n => pos + 4 ≤ stop ∧ Holds data pos (order.bytes 4 n.toNat)
  | none => stop < pos + 4

namespace MemoryMap

/-- Where the rows start: after the header, or at the end of a stream that it reaches past. -/
def rowsAt (m : MemoryMap) (c : Cursor) : Nat := min (c.pos + m.headerSize.toNat) c.size

def freeFields (m : MemoryMap) : List (Option UInt32) := [m.freeListHead, m.freeListEnd, m.freeCount]

structure Stands (m : MemoryMap) (c : Cursor) (length : Nat) : Prop where
  front : Holds c.data c.pos (tableFront c.order m.headerSize m.entrySize m.totalCount m.usedCount)
  free : ∀ k field, m.freeFields[k]? = some field →
    FieldAt c.data c.order (m.rowsAt c) (c.pos + 12 + 4 * k) field
  rows : Tabled (Entry.Recorded c.data c.order m.entrySize.toNat) (min (c.pos + length) c.size)
    m.entrySize.toNat (m.rowsAt c) m.totalCount.toNat m.entries

theorem take_record (row : List UInt8) :
    (row ++ List.replicate (20 - row.length) 0).take 20 = recordOf row := by
  simp only [recordOf, List.take_append, List.take_replicate]
  congr 2
  omega

theorem written_entryOfRow (order : ByteOrder) (index : Nat) (row : List UInt8) :
    (entryOfRow order index row).written order = recordOf row := by
  rw [← take_record]
  unfold entryOfRow Entry.written Tag.written
  dsimp only
  generalize hfull : row ++ List.replicate (20 - row.length) 0 = full
  have hlength : 20 ≤ full.length := by
    rw [← hfull, List.length_append, List.length_replicate]
    omega
  have hpart (start width : Nat) (h : start + width ≤ 20) :
      ((full.drop start).take width).length = width := by
    rw [List.length_take, List.length_drop]
    omega
  rw [order.bytes_word (hpart 0 4 (by decide)), order.bytes_word (hpart 4 4 (by decide)),
    order.bytes_word (hpart 8 4 (by decide)), order.bytes_half (hpart 12 2 (by decide)),
    order.bytes_half (hpart 14 2 (by decide)), order.bytes_word (hpart 16 4 (by decide)),
    List.drop_zero, ← List.take_add, ← List.take_add, ← List.take_add, ← List.take_add,
    ← List.take_add]

theorem rows_tabled {c : Cursor} {limit : Nat} (hlimit : limit ≤ c.data.size)
    (size index count : Nat) :
    ∃ entries d, rows limit size index count c = .ok entries d ∧
      Tabled (fun i => Entry.Recorded c.data c.order size (index + i)) limit size c.pos count
        entries := by
  induction count generalizing c index with
  | zero => exact ⟨[], c, rfl, tabled_nil (.inl rfl)⟩
  | succ count ih =>
    unfold rows
    rw [Decode.pos_bind]
    split
    next hcut => exact ⟨[], c, rfl, tabled_nil (.inr hcut)⟩
    next hroom =>
      obtain ⟨row, hrow, hlength⟩ : ∃ row, Holds c.data c.pos row ∧ row.length = size :=
        Holds.of_fits (by omega)
      obtain ⟨rest, d, hrest, htabled⟩ := ih (c := { c with pos := c.pos + size }) hlimit (index + 1)
      refine ⟨_, d, by rw [get_bind, bind_ok (Decode.bytes_ok hrow hlength), bind_ok hrest]; rfl, ?_⟩
      refine Tabled.cons (by omega) (by omega) ?_ ?_
      · rw [octets_toByteArray]
        exact ⟨rfl, rfl, row, hlength, hrow, written_entryOfRow _ _ _⟩
      · simpa only [Nat.add_assoc, Nat.add_comm 1] using htabled

def Reaches (stop pos place : Nat) : Prop := place = pos ∨ place ≤ pos ∧ stop < place + 4

theorem optionalField_at {data : ByteArray} {stop pos place : Nat} (order : ByteOrder)
    (hstop : stop ≤ data.size) (h : Reaches stop pos place) :
    ∃ field next, optionalField stop ⟨data, place, order⟩ = .ok field ⟨data, next, order⟩ ∧
      FieldAt data order stop pos field ∧ Reaches stop (pos + 4) next := by
  unfold Reaches at h ⊢
  unfold optionalField
  rw [Decode.pos_bind]
  dsimp only
  split
  next hroom =>
    obtain rfl : place = pos := by omega
    obtain ⟨n, hn⟩ := Holds.exists_word order (Nat.le_trans hroom hstop)
    refine ⟨some n, place + 4, ?_, ⟨hroom, hn⟩, .inl rfl⟩
    rw [bind_ok (Decode.u32_ok hn), UInt32.ofNat_toNat]
    rfl
  next hcut =>
    refine ⟨none, place, rfl, ?_, ?_⟩
    · unfold FieldAt
      omega
    · omega

section

variable {c : Cursor} {headerSize entrySize : UInt16} {totalCount usedCount : UInt32}

theorem read_of_small (hfront : Holds c.data c.pos
      (tableFront c.order headerSize entrySize totalCount usedCount))
    (hsmall : headerSize.toNat < minHeaderSize) (length : Nat) :
    ∃ d, read length c = .error (.headerTooSmall headerSize.toNat) d := by
  have hfits := hfront.fits
  simp only [length_tableFront] at hfits
  obtain ⟨hsize, hrowSize, hcount, hused⟩ := hfront.tableFront_parts
  unfold read
  rw [Decode.pos_bind, get_bind, bind_ok (Decode.require_ok (by unfold minHeaderSize; omega)),
    bind_ok (Decode.u16_ok hsize), bind_ok (Decode.u16_ok (c := { c with pos := _ }) hrowSize),
    bind_ok (Decode.u32_ok (c := { c with pos := _ }) hcount),
    bind_ok (Decode.u32_ok (c := { c with pos := _ }) hused), UInt16.ofNat_toNat, if_pos hsmall]
  exact ⟨_, rfl⟩

theorem read_of_large (hfront : Holds c.data c.pos
      (tableFront c.order headerSize entrySize totalCount usedCount))
    (hlarge : minHeaderSize ≤ headerSize.toNat) (length : Nat) :
    ∃ m d, read length c = .ok m d ∧ m.Stands c length := by
  have hfits := hfront.fits
  simp only [length_tableFront] at hfits
  obtain ⟨hsize, hrowSize, hcount, hused⟩ := hfront.tableFront_parts
  have hend : min (c.pos + headerSize.toNat) c.size ≤ c.data.size := Nat.min_le_right _ _
  have hlimit : min (c.pos + length) c.size ≤ c.data.size := Nat.min_le_right _ _
  obtain ⟨first, p, hfirst, hfirstAt, hreach⟩ :
      ∃ field next, optionalField _ ⟨c.data, c.pos + 12, c.order⟩ = _ ∧ _ :=
    optionalField_at c.order hend (.inl rfl)
  obtain ⟨second, q, hsecond, hsecondAt, hreach⟩ := optionalField_at c.order hend hreach
  obtain ⟨third, r, hthird, hthirdAt, -⟩ := optionalField_at c.order hend hreach
  obtain ⟨entries, d, hrows, htabled⟩ := rows_tabled
    (c := { c with pos := min (c.pos + headerSize.toNat) c.size }) hlimit entrySize.toNat 0
    totalCount.toNat
  refine ⟨⟨headerSize, entrySize, totalCount, usedCount, first, second, third, entries⟩, d, ?_, ?_⟩
  · unfold read
    rw [Decode.pos_bind, get_bind, bind_ok (Decode.require_ok (by unfold minHeaderSize; omega)),
      bind_ok (Decode.u16_ok hsize), bind_ok (Decode.u16_ok (c := { c with pos := _ }) hrowSize),
      bind_ok (Decode.u32_ok (c := { c with pos := _ }) hcount),
      bind_ok (Decode.u32_ok (c := { c with pos := _ }) hused)]
    simp only [UInt16.ofNat_toNat, UInt32.ofNat_toNat]
    rw [if_neg (Nat.not_lt.mpr hlarge), bind_ok hfirst, bind_ok hsecond, bind_ok hthird,
      bind_ok (Decode.seek_ok (c := { c with pos := r }) hend), bind_ok hrows]
    rfl
  · simp only [Nat.zero_add] at htabled
    refine ⟨hfront, ?_, htabled⟩
    intro k field hk
    match k, hk with
    | 0, rfl => exact hfirstAt
    | 1, rfl => exact hsecondAt
    | 2, rfl => exact hthirdAt

theorem read_of_cut (h : c.remaining < minHeaderSize) (length : Nat) :
    ∃ e, read length c = .error e c := by
  unfold read
  rw [Decode.pos_bind, get_bind, bind_error (Decode.require_error h)]
  exact ⟨_, rfl⟩

end

theorem read_cases (c : Cursor) (length : Nat) :
    (∃ e d, read length c = .error e d ∧
      (c.remaining < 12 ∨ ∃ n, n < 12 ∧ Holds c.data c.pos (c.order.bytes 2 n))) ∨
    ∃ m d, read length c = .ok m d ∧ m.Stands c length ∧
      ¬(c.remaining < 12 ∨ ∃ n, n < 12 ∧ Holds c.data c.pos (c.order.bytes 2 n)) := by
  rcases Nat.lt_or_ge c.remaining 12 with hcut | hroom
  · obtain ⟨e, hread⟩ := read_of_cut hcut length
    exact .inl ⟨e, c, hread, .inl hcut⟩
  obtain ⟨headerSize, entrySize, totalCount, usedCount, hfront⟩ := Holds.exists_tableFront c.order
    (Cursor.fits_of_le_remaining (by decide) hroom)
  have hsize := hfront.tableFront_parts.1
  rcases Nat.lt_or_ge headerSize.toNat minHeaderSize with hsmall | hlarge
  · obtain ⟨d, hread⟩ := read_of_small hfront hsmall length
    exact .inl ⟨_, d, hread, .inr ⟨headerSize.toNat, hsmall, hsize⟩⟩
  · obtain ⟨m, d, hread, hstands⟩ := read_of_large hfront hlarge length
    refine .inr ⟨m, d, hread, hstands, ?_⟩
    rintro (hcut | ⟨n, hlt, hn⟩)
    · exact absurd hcut (Nat.not_lt.mpr hroom)
    · have hsame := hsize.word_unique hn headerSize.toNat_lt (Nat.lt_trans hlt (by decide))
      exact absurd (hsame ▸ hlarge) (Nat.not_le.mpr hlt)

end MemoryMap

namespace KeyTable

structure Stands (t : KeyTable) (c : Cursor) (length : Nat) : Prop where
  front : Holds c.data c.pos
    (tableFront c.order t.entrySize t.entrySizeAgain t.entryCount t.usedCount)
  rows : Tabled (fun _ pos l => Holds c.data pos (Link.written c.order l))
    (min (c.pos + length) c.size) (max t.entrySize.toNat 12) (c.pos + 12) t.entryCount.toNat t.links

theorem exists_written {data : ByteArray} {pos : Nat} (order : ByteOrder)
    (h : pos + 12 ≤ data.size) : ∃ l : Link, Holds data pos (l.written order) := by
  obtain ⟨child, hchild⟩ : ∃ n : UInt32, Holds data pos (order.bytes 4 n.toNat) :=
    Holds.exists_word order (by omega)
  obtain ⟨parent, hparent⟩ : ∃ n : UInt32, Holds data (pos + 4) (order.bytes 4 n.toNat) :=
    Holds.exists_word order (by omega)
  obtain ⟨tag, htag⟩ : ∃ n : UInt32, Holds data (pos + 8) (order.bytes 4 n.toNat) :=
    Holds.exists_word order (by omega)
  have hids := hchild.append hparent (by simp)
  refine ⟨⟨child.toInt32, parent.toInt32, ⟨tag⟩⟩, ?_⟩
  simpa [Link.written, Tag.written] using hids.append htag (by simp)

theorem rows_tabled {c : Cursor} {limit size : Nat} (hlimit : limit ≤ c.data.size)
    (hsize : 12 ≤ size) (count : Nat) :
    ∃ links d, rows limit size count c = .ok links d ∧
      Tabled (fun _ pos l => Holds c.data pos (Link.written c.order l)) limit size c.pos count
        links := by
  induction count generalizing c with
  | zero => exact ⟨[], c, rfl, tabled_nil (.inl rfl)⟩
  | succ count ih =>
    unfold rows
    rw [Decode.pos_bind]
    split
    next hcut => exact ⟨[], c, rfl, tabled_nil (.inr (.inl hcut))⟩
    next hroom =>
      obtain ⟨l, hrow⟩ := exists_written c.order (show c.pos + 12 ≤ c.data.size by omega)
      have hchild : Holds c.data c.pos (c.order.bytes 4 l.child.toUInt32.toNat) :=
        hrow.append_left.append_left
      have hparent : Holds c.data (c.pos + 4) (c.order.bytes 4 l.parent.toUInt32.toNat) := by
        simpa using hrow.append_left.append_right
      have htag : Holds c.data (c.pos + 4 + 4) (l.tag.written c.order) := by
        simpa using hrow.append_right
      obtain ⟨rest, d, hrest, htabled⟩ := ih (c := { c with pos := c.pos + size }) hlimit
      refine ⟨l :: rest, d, ?_, Tabled.cons (by omega) (by omega) hrow htabled⟩
      rw [bind_ok (Decode.i32_ok hchild),
        bind_ok (Decode.i32_ok (c := { c with pos := _ }) hparent),
        bind_ok (Decode.tag_ok (c := { c with pos := _ }) htag),
        bind_ok (Decode.seek_ok (by dsimp only; omega)), bind_ok hrest]
      simp only [UInt32.ofNat_toNat, Int32.toInt32_toUInt32]
      rfl

theorem read_of_front {c : Cursor} {entrySize entrySizeAgain : UInt16}
    {entryCount usedCount : UInt32} (hfront : Holds c.data c.pos
      (tableFront c.order entrySize entrySizeAgain entryCount usedCount)) (length : Nat) :
    ∃ t d, read length c = .ok t d ∧ t.Stands c length := by
  have hfits := hfront.fits
  simp only [length_tableFront] at hfits
  obtain ⟨hsize, hsizeAgain, hcount, hused⟩ := hfront.tableFront_parts
  have hlimit : min (c.pos + length) c.size ≤ c.data.size := Nat.min_le_right _ _
  obtain ⟨links, d, hrows, htabled⟩ := rows_tabled (c := { c with pos := c.pos + 12 }) hlimit
    (Nat.le_max_right entrySize.toNat minRowSize) entryCount.toNat
  refine ⟨⟨entrySize, entrySizeAgain, entryCount, usedCount, links⟩, d, ?_, hfront, htabled⟩
  unfold read
  rw [Decode.pos_bind, get_bind, bind_ok (Decode.require_ok hfits), bind_ok (Decode.u16_ok hsize),
    bind_ok (Decode.u16_ok (c := { c with pos := _ }) hsizeAgain),
    bind_ok (Decode.u32_ok (c := { c with pos := _ }) hcount),
    bind_ok (Decode.u32_ok (c := { c with pos := _ }) hused)]
  simp only [UInt16.ofNat_toNat, UInt32.ofNat_toNat]
  rw [bind_ok hrows]
  rfl

theorem read_of_cut {c : Cursor} (h : c.remaining < 12) (length : Nat) :
    ∃ e, read length c = .error e c := by
  unfold read
  rw [Decode.pos_bind, get_bind, bind_error (Decode.require_error h)]
  exact ⟨_, rfl⟩

theorem read_cases (c : Cursor) (length : Nat) :
    (∃ e d, read length c = .error e d ∧ c.remaining < 12) ∨
    ∃ t d, read length c = .ok t d ∧ t.Stands c length ∧ ¬c.remaining < 12 := by
  rcases Nat.lt_or_ge c.remaining 12 with hcut | hroom
  · obtain ⟨e, hread⟩ := read_of_cut hcut length
    exact .inl ⟨e, c, hread, hcut⟩
  · obtain ⟨entrySize, entrySizeAgain, entryCount, usedCount, hfront⟩ :=
      Holds.exists_tableFront c.order (Cursor.fits_of_le_remaining (by decide) hroom)
    obtain ⟨t, d, hread, hstands⟩ := read_of_front hfront length
    exact .inr ⟨t, d, hread, hstands, Nat.not_lt.mpr hroom⟩

end KeyTable

/-- The two tables are refused for a short stream or a small header alone, and what is read from them
is what stands in the stream, up to the end of the chunk and no further. -/
theorem rowTables_exact (c : Cursor) (length : Nat) :
    ((∃ e d, MemoryMap.read length c = .error e d) ↔
      c.remaining < 12 ∨ ∃ n, n < 12 ∧ Holds c.data c.pos (c.order.bytes 2 n)) ∧
    (∀ m d, MemoryMap.read length c = .ok m d → m.Stands c length) ∧
    ((∃ e d, KeyTable.read length c = .error e d) ↔ c.remaining < 12) ∧
    ∀ t d, KeyTable.read length c = .ok t d → t.Stands c length := by
  refine and_assoc.mp ⟨?_, ?_⟩
  · rcases MemoryMap.read_cases c length with ⟨e, d, hread, hrefused⟩ | ⟨m, d, hread, hstands, hfine⟩
    · simp [hread, hrefused]
    · simpa [hread, hfine] using hstands
  · rcases KeyTable.read_cases c length with ⟨e, d, hread, hcut⟩ | ⟨t, d, hread, hstands, hroom⟩
    · simp [hread, hcut]
    · simpa [hread, hroom] using hstands

end Shockwave
