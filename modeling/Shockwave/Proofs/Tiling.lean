import Shockwave.Proofs.Layout
import Shockwave.Proofs.Survey

/-!
Reading back the chunks of a written movie. They tile the container, so a walk that starts at an
even position meets each of them at its head, and each table reads as the rows it was written from.
-/
namespace Shockwave

namespace ChunkHead

variable {data : ByteArray} {order : ByteOrder} {pos : Nat} {c : Chunk}

theorem parse_written (h : Holds data pos (c.written order))
    (hlength : c.body.length < 0x100000000) :
    parse data order pos = { pos, tag := c.tag, length := c.body.length } := by
  have htag : Holds data pos (c.tag.written order) := h.append_left.append_left.append_left
  have hword : Holds data (pos + 4) (order.bytes 4 c.body.length) := by
    simpa using h.append_left.append_left.append_right
  unfold parse
  dsimp only
  rw [htag.octets_extract (by simp), hword.octets_extract (by simp), Tag.written,
    order.value_bytes_of_lt (by simpa using c.tag.code.toNat_lt),
    order.value_bytes_of_lt (by simpa using hlength), UInt32.ofNat_toNat]

def headsFrom (pos : Nat) : List Chunk → List ChunkHead
  | [] => []
  | c :: rest =>
    { pos, tag := c.tag, length := c.body.length } :: headsFrom (pos + c.extent) rest

theorem headsFrom_append (pos : Nat) (left right : List Chunk) :
    headsFrom pos (left ++ right) =
      headsFrom pos left ++ headsFrom (pos + Chunk.extents left) right := by
  induction left generalizing pos with
  | nil => rfl
  | cons c rest ih =>
    simp only [List.cons_append, headsFrom, Chunk.extents, ih, Nat.add_assoc]

theorem exists_mem_of_mem_headsFrom {chunks : List Chunk} {head : ChunkHead} {pos : Nat}
    (h : head ∈ headsFrom pos chunks) : ∃ c ∈ chunks, head.tag = c.tag := by
  induction chunks generalizing pos with
  | nil => simp [headsFrom] at h
  | cons c rest ih =>
    rcases List.mem_cons.mp h with rfl | hrest
    · exact ⟨c, by simp, rfl⟩
    · obtain ⟨d, hd, htag⟩ := ih hrest
      exact ⟨d, by simp [hd], htag⟩

/-- From an even position on, a head is followed by the next one. -/
theorem next_eq (heven : pos % 2 = 0) :
    next { pos, tag := c.tag, length := c.body.length } = pos + c.extent := by
  unfold next body Chunk.extent
  dsimp only
  omega

end ChunkHead

theorem chunkChain_written {data : ByteArray} {order : ByteOrder} {pos stop : Nat}
    {chunks : List Chunk} (h : Holds data pos (chunks.flatMap (Chunk.written order)))
    (heven : pos % 2 = 0) (hlength : ∀ c ∈ chunks, c.body.length < 0x100000000)
    (hstop : stop = pos + Chunk.extents chunks) :
    chunkChain data order stop pos = ChunkHead.headsFrom pos chunks := by
  induction chunks generalizing pos with
  | nil =>
    rw [chunkChain, if_neg (by simp only [hstop, Chunk.extents]; omega), ChunkHead.headsFrom]
  | cons c rest ih =>
    rw [List.flatMap_cons] at h
    have hparse := ChunkHead.parse_written h.append_left (hlength c (by simp))
    have hrest : Holds data (pos + c.extent) (rest.flatMap (Chunk.written order)) := by
      simpa using h.append_right
    have hextent : 8 ≤ c.extent := by unfold Chunk.extent; omega
    have hnext : (pos + c.extent) % 2 = 0 := by
      have := c.even_extent
      omega
    rw [Chunk.extents] at hstop
    rw [chunkChain, if_pos (by omega)]
    dsimp only
    rw [hparse, ChunkHead.next_eq heven, ChunkHead.headsFrom]
    congr 1
    exact ih hrest hnext (fun d hd => hlength d (by simp [hd])) (by omega)

theorem Holds.body {data : ByteArray} {order : ByteOrder} {pos : Nat} {c : Chunk}
    (h : Holds data pos (c.written order)) : Holds data (pos + 8) c.body := by
  simpa using h.append_left.append_right

theorem Holds.tableHeader {data : ByteArray} {order : ByteOrder} {pos size rowSize count : Nat}
    (h : Holds data pos (tableHeader order size rowSize count)) :
    Holds data pos (order.bytes 2 size) ∧ Holds data (pos + 2) (order.bytes 2 rowSize) ∧
      Holds data (pos + 2 + 2) (order.bytes 4 count) ∧
      Holds data (pos + 2 + 2 + 4) (order.bytes 4 count) := by
  refine ⟨h.append_left.append_left.append_left, ?_, ?_, ?_⟩
  · simpa using h.append_left.append_left.append_right
  · simpa using h.append_left.append_right
  · simpa using h.append_right

namespace MemoryMap

theorem entryOfRow_written (order : ByteOrder) (index : Nat) (e : Entry) :
    entryOfRow order index (e.written order) =
      { e with id := Int32.ofNat index, storage := .chunk } := by
  have hword (n : UInt32) : UInt32.ofNat (order.value (order.bytes 4 n.toNat)) = n := by
    rw [order.value_bytes_of_lt (by simpa using n.toNat_lt), UInt32.ofNat_toNat]
  have hhalf (n : UInt16) : UInt16.ofNat (order.value (order.bytes 2 n.toNat)) = n := by
    rw [order.value_bytes_of_lt (by simpa using n.toNat_lt), UInt16.ofNat_toNat]
  simp [entryOfRow, Entry.written, Tag.written, List.drop_append,
    List.drop_eq_nil_of_le, List.take_of_length_le, hword, hhalf]

theorem rows_ok {c : Cursor} {stop index offset : Nat} {chunks : List Chunk}
    (h : Holds c.data c.pos ((rowsFrom index offset chunks).flatMap (Entry.written c.order)))
    (hstop : c.pos + 20 * chunks.length ≤ stop) :
    rows stop 20 index chunks.length c =
      .ok (rowsFrom index offset chunks) { c with pos := c.pos + 20 * chunks.length } := by
  induction chunks generalizing c index offset with
  | nil => rfl
  | cons chunk rest ih =>
    rw [List.length_cons] at hstop
    rw [rowsFrom, List.flatMap_cons] at h
    have hrow := Decode.bytes_ok h.append_left (Entry.length_written ..)
    have hrest := h.append_right
    rw [Entry.length_written] at hrest
    have hih := ih (c := { c with pos := c.pos + 20 }) hrest (by dsimp only; omega)
    rw [List.length_cons, rows, Decode.pos_bind, if_neg (by omega), get_bind,
      bind_ok hrow, bind_ok hih, octets_toByteArray, entryOfRow_written, rowsFrom]
    simp only [pure, EStateM.pure, Nat.mul_add, Nat.add_assoc, Nat.add_comm, Nat.mul_one]

theorem read_ok {c : Cursor} {offset length : Nat} {chunks : List Chunk}
    (h : Holds c.data c.pos (tableHeader c.order 12 20 chunks.length ++
      (rowsFrom 0 offset chunks).flatMap (Entry.written c.order)))
    (hcount : chunks.length < 0x100000000) (hlength : length = 12 + 20 * chunks.length) :
    Decode.outcome (read length) c = .ok
      { headerSize := 12, entrySize := 20, totalCount := UInt32.ofNat chunks.length,
        usedCount := UInt32.ofNat chunks.length, freeListHead := none, freeListEnd := none,
        freeCount := none, entries := rowsFrom 0 offset chunks } := by
  have hfits := h.fits
  simp only [List.length_append, length_tableHeader, List.length_flatMap, Entry.length_written,
    List.map_const', length_rowsFrom, List.sum_replicate_nat] at hfits
  obtain ⟨hsize, hrowSize, htotal, hused⟩ := h.append_left.tableHeader
  have hrows := h.append_right
  rw [length_tableHeader] at hrows
  have hoptional {d : Cursor} (hd : d.pos = c.pos + 12) :
      optionalField (c.pos + 12) d = .ok none d := by
    rw [optionalField, Decode.pos_bind, if_neg (by omega)]
    rfl
  have hminimum : min (c.pos + 12) c.size = c.pos + 12 := by
    unfold Cursor.size
    omega
  have hstop : c.pos + 12 + 20 * chunks.length ≤ min (c.pos + length) c.size := by
    unfold Cursor.size
    omega
  have hentries := rows_ok (c := { c with pos := c.pos + 12 }) hrows hstop
  unfold Decode.outcome read
  rw [Decode.pos_bind, get_bind, bind_ok (Decode.require_ok (by unfold minHeaderSize; omega)),
    bind_ok (Decode.u16_ok hsize), bind_ok (Decode.u16_ok (c := { c with pos := _ }) hrowSize),
    bind_ok (Decode.u32_ok (c := { c with pos := _ }) htotal),
    bind_ok (Decode.u32_ok (c := { c with pos := _ }) hused)]
  rw [if_neg (by decide)]
  dsimp only
  rw [show (UInt16.ofNat 12).toNat = 12 from rfl, show (UInt16.ofNat 20).toNat = 20 from rfl,
    UInt32.toNat_ofNat', Nat.mod_eq_of_lt hcount, hminimum, bind_ok (hoptional rfl),
    bind_ok (hoptional rfl), bind_ok (hoptional rfl),
    bind_ok (Decode.seek_ok (by dsimp only; omega)), bind_ok hentries]
  rfl

end MemoryMap

namespace KeyTable

theorem rows_ok {c : Cursor} {stop : Nat} {links : List Link}
    (h : Holds c.data c.pos (links.flatMap (Link.written c.order)))
    (hstop : c.pos + 12 * links.length ≤ stop) :
    ∃ d, rows stop 12 links.length c = .ok links d := by
  induction links generalizing c with
  | nil => exact ⟨c, rfl⟩
  | cons l rest ih =>
    rw [List.length_cons] at hstop
    rw [List.flatMap_cons] at h
    have hrow : Holds c.data c.pos (l.written c.order) := h.append_left
    have hfits := hrow.fits
    rw [Link.length_written] at hfits
    have hchild : Holds c.data c.pos (c.order.bytes 4 l.child.toUInt32.toNat) :=
      hrow.append_left.append_left
    have hparent : Holds c.data (c.pos + 4) (c.order.bytes 4 l.parent.toUInt32.toNat) := by
      simpa using hrow.append_left.append_right
    have htag : Holds c.data (c.pos + 4 + 4) (l.tag.written c.order) := by
      simpa using hrow.append_right
    have hrest := h.append_right
    rw [Link.length_written] at hrest
    obtain ⟨d, hd⟩ := ih (c := { c with pos := c.pos + 12 }) hrest (by dsimp only; omega)
    refine ⟨d, ?_⟩
    rw [List.length_cons, rows, Decode.pos_bind, if_neg (by omega), bind_ok (Decode.i32_ok hchild),
      bind_ok (Decode.i32_ok (c := { c with pos := _ }) hparent),
      bind_ok (Decode.tag_ok (c := { c with pos := _ }) htag),
      bind_ok (Decode.seek_ok (by dsimp only; omega)), bind_ok hd]
    simp only [UInt32.ofNat_toNat, Int32.toInt32_toUInt32]
    rfl

theorem read_ok {c : Cursor} {length : Nat} {links : List Link}
    (h : Holds c.data c.pos (tableHeader c.order 12 12 links.length ++
      links.flatMap (Link.written c.order)))
    (hcount : links.length < 0x100000000) (hlength : length = 12 + 12 * links.length) :
    Decode.outcome (read length) c = .ok
      { entrySize := 12, entrySizeAgain := 12, entryCount := UInt32.ofNat links.length,
        usedCount := UInt32.ofNat links.length, links } := by
  have hfits := h.fits
  simp only [List.length_append, length_tableHeader, List.length_flatMap, Link.length_written,
    List.map_const', List.sum_replicate_nat] at hfits
  obtain ⟨hsize, hsizeAgain, hcountWord, hused⟩ := h.append_left.tableHeader
  have hrows := h.append_right
  rw [length_tableHeader] at hrows
  have hstop : c.pos + 12 + 12 * links.length ≤ min (c.pos + length) c.size := by
    unfold Cursor.size
    omega
  obtain ⟨d, hd⟩ := rows_ok (c := { c with pos := c.pos + 12 }) hrows hstop
  unfold Decode.outcome read
  rw [Decode.pos_bind, get_bind, bind_ok (Decode.require_ok (by omega)),
    bind_ok (Decode.u16_ok hsize), bind_ok (Decode.u16_ok (c := { c with pos := _ }) hsizeAgain),
    bind_ok (Decode.u32_ok (c := { c with pos := _ }) hcountWord),
    bind_ok (Decode.u32_ok (c := { c with pos := _ }) hused),
    show max (UInt16.ofNat 12).toNat minRowSize = 12 from rfl, UInt32.toNat_ofNat',
    Nat.mod_eq_of_lt hcount, bind_ok hd]
  rfl

end KeyTable

namespace ClassicLayout

variable (m : ClassicLayout)

def initialMap : InitialMap :=
  { length := 16, mapVersion := m.mapVersion, mapOffset := 36, archiveVersion := m.archiveVersion }

def memoryMap : MemoryMap :=
  { headerSize := 12, entrySize := 20, totalCount := UInt32.ofNat m.stored.length,
    usedCount := UInt32.ofNat m.stored.length, freeListHead := none, freeListEnd := none,
    freeCount := none, entries := m.entries }

def keyTable : KeyTable :=
  { entrySize := 12, entrySizeAgain := 12, entryCount := UInt32.ofNat m.links.length,
    usedCount := UInt32.ofNat m.links.length, links := m.links }

def map : ClassicMap :=
  { initial := some m.initialMap
    memory := some m.memoryMap
    keys := if m.links.isEmpty then none else some m.keyTable }

def blockAt (offset : Nat) : Block :=
  { declaredSize := UInt32.ofNat (m.size - 12)
    start := offset + 12
    format := { codecTag := m.codec, order := m.order } }

theorem outcome_initialMap {data : ByteArray} {pos : Nat}
    (h : Holds data pos m.initialChunk.body) :
    Decode.outcome InitialMap.read { data, pos, order := m.order } = .ok m.initialMap := by
  have hfits := h.fits
  rw [length_initialBody] at hfits
  have hlength : Holds data pos (m.order.bytes 4 16) := h.append_left.append_left.append_left
  have hversion : Holds data (pos + 4) (m.order.bytes 4 m.mapVersion.toNat) := by
    simpa using h.append_left.append_left.append_right
  have hoffset : Holds data (pos + 4 + 4) (m.order.bytes 4 36) := by
    simpa using h.append_left.append_right
  have harchive : Holds data (pos + 4 + 4 + 4) (m.order.bytes 4 m.archiveVersion.toNat) := by
    simpa using h.append_right
  unfold Decode.outcome InitialMap.read
  rw [bind_ok (Decode.require_ok hfits), bind_ok (Decode.u32_ok hlength),
    bind_ok (Decode.u32_ok (c := ⟨data, _, m.order⟩) hversion),
    bind_ok (Decode.u32_ok (c := ⟨data, _, m.order⟩) hoffset),
    bind_ok (Decode.u32_ok (c := ⟨data, _, m.order⟩) harchive), UInt32.ofNat_toNat,
    UInt32.ofNat_toNat]
  rfl

end ClassicLayout

namespace ClassicMap

variable {data : ByteArray} {order : ByteOrder}

theorem survey_plain {heads : List ChunkHead} (hplain : ∀ head ∈ heads, head.tag.IsPlain)
    (rest : List ChunkHead) (map : ClassicMap) :
    survey data order (heads ++ rest) map = survey data order rest map := by
  induction heads with
  | nil => rfl
  | cons head heads ih =>
    obtain ⟨himap, hmmap, hkeys⟩ := hplain head (by simp)
    rw [List.cons_append, survey_other himap hmmap hkeys]
    apply ih
    intro other hother
    exact hplain other (by simp [hother])

end ClassicMap

namespace ClassicMovie

variable (m : ClassicMovie)

theorem length_stored_lt : m.stored.length < 0x100000000 := by
  have hfits := m.fits
  rw [ClassicLayout.size_eq, ClassicLayout.firstOffset] at hfits
  omega

theorem body_lt {c : Chunk} (h : c ∈ m.chunks) : c.body.length < 0x100000000 := by
  have hfits := m.fits
  have hextent := Chunk.extent_le_extents h
  have hbody := c.body_lt_extent
  rw [ClassicLayout.size] at hfits
  omega

theorem length_links_lt (h : ¬m.links.isEmpty) : m.links.length < 0x100000000 := by
  have hmem : m.keyChunk ∈ m.chunks := by simp [ClassicLayout.chunks, ClassicLayout.stored, h]
  have hbody := m.body_lt hmem
  rw [ClassicLayout.length_keyBody] at hbody
  omega

theorem survey_stored {data : ByteArray} {pos : Nat}
    (h : Holds data pos (m.stored.flatMap (Chunk.written m.order))) (map : ClassicMap) :
    ClassicMap.survey data m.order (ChunkHead.headsFrom pos m.stored) map =
      { map with keys := if m.links.isEmpty then map.keys else some m.keyTable } := by
  have hplain (head) (hhead : head ∈ ChunkHead.headsFrom pos m.resources) : head.tag.IsPlain := by
    obtain ⟨c, hc, htag⟩ := ChunkHead.exists_mem_of_mem_headsFrom hhead
    rw [htag]
    exact m.plain c hc
  rw [ClassicLayout.stored, ChunkHead.headsFrom_append, ClassicMap.survey_plain hplain]
  rw [ClassicLayout.stored, List.flatMap_append] at h
  have hkeys := h.append_right
  rw [Chunk.length_flatMap_written] at hkeys
  by_cases hlinks : m.links.isEmpty
  · rw [if_pos hlinks, if_pos hlinks]
    rfl
  · rw [if_neg hlinks, List.flatMap_singleton] at hkeys
    have hread := KeyTable.read_ok (c := ⟨data, _, m.order⟩) hkeys.body (m.length_links_lt hlinks)
      m.length_keyBody
    rw [if_neg hlinks, if_neg hlinks, ChunkHead.headsFrom]
    exact Eq.trans (ClassicMap.survey_keys rfl hread) rfl

theorem outcome_memoryMap {data : ByteArray} {pos : Nat} (h : Holds data pos m.memoryChunk.body) :
    Decode.outcome (MemoryMap.read m.memoryChunk.body.length) { data, pos, order := m.order } =
      .ok m.memoryMap :=
  MemoryMap.read_ok (c := ⟨data, pos, m.order⟩) h m.length_stored_lt m.length_memoryBody

/-- The chunks of a written movie lead to its map. -/
theorem survey_chunks {data : ByteArray} {pos : Nat}
    (h : Holds data pos (m.chunks.flatMap (Chunk.written m.order))) :
    ClassicMap.survey data m.order (ChunkHead.headsFrom pos m.chunks) {} = m.map := by
  rw [ClassicLayout.chunks, List.flatMap_cons, List.flatMap_cons] at h
  have hinitial := m.outcome_initialMap h.append_left.body
  have hmemory := m.outcome_memoryMap h.append_right.append_left.body
  have hstored := m.survey_stored h.append_right.append_right
  simp only [Chunk.length_written] at hmemory hstored
  rw [ClassicLayout.chunks, ChunkHead.headsFrom, ChunkHead.headsFrom]
  refine Eq.trans (ClassicMap.survey_imap rfl hinitial) ?_
  refine Eq.trans (ClassicMap.survey_mmap rfl hmemory) ?_
  rw [hstored]
  rfl

theorem holds_chunks {data : ByteArray} {pos : Nat} (h : Holds data pos m.bytes) :
    Holds data (pos + 12) (m.chunks.flatMap (Chunk.written m.order)) := by
  simpa [ClassicLayout.bytes] using h.append_right

theorem stop_eq {data : ByteArray} {pos : Nat} (h : Holds data pos m.bytes) :
    min (m.blockAt pos).stop data.size = pos + 12 + Chunk.extents m.chunks := by
  have hfits := h.fits
  have hsize := m.fits
  rw [ClassicLayout.length_bytes] at hfits
  rw [Block.stop, ClassicLayout.blockAt]
  dsimp only
  rw [UInt32.toNat_ofNat', Nat.mod_eq_of_lt (by omega)]
  rw [ClassicLayout.size] at *
  omega

/-- The map of a container at an even position of a stream is the one that was written. -/
theorem found_eq {data : ByteArray} {pos : Nat} (h : Holds data pos m.bytes) (heven : pos % 2 = 0)
    (offset : Nat) : ClassicMap.found data m.order offset (m.blockAt pos) = m.map := by
  have hchunks := m.holds_chunks h
  have hchain := chunkChain_written hchunks (by omega) (fun c hc => m.body_lt hc) (m.stop_eq h)
  unfold ClassicMap.found
  rw [ClassicLayout.blockAt] at *
  dsimp only at *
  rw [hchain, m.survey_chunks hchunks]
  rfl

end ClassicMovie
end Shockwave
