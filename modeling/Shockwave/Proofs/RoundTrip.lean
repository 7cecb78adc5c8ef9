import Shockwave.Proofs.Locating
import Shockwave.Proofs.Opening

/-!
A written movie reads back: its rows, links and versions, and the bytes of each resource.
-/
namespace Shockwave

namespace ChunkHead

variable {data : ByteArray} {order : ByteOrder} {pos : Nat} {c : Chunk}

theorem at?_written (h : Holds data pos (c.written order)) (hlength : c.body.length < 0x100000000) :
    at? data order pos = some { pos, tag := c.tag, length := c.body.length } := by
  have hfits := h.fits
  have hextent : 8 ≤ (c.written order).length := by
    rw [Chunk.length_written, Chunk.extent]
    omega
  rw [at?, if_pos (by omega), parse_written h hlength]

theorem under?_written (h : Holds data pos (c.written order))
    (hlength : c.body.length < 0x100000000) :
    under? data order c.tag pos = some { pos, tag := c.tag, length := c.body.length } :=
  under?_of_eq (at?_written h hlength) rfl

theorem body?_written (h : Holds data pos (c.written order)) :
    body? { pos, tag := c.tag, length := c.body.length } data = some c.body.toByteArray := by
  have hbody := h.body
  unfold body? body
  dsimp only
  rw [if_pos hbody.fits, hbody.extract rfl]

end ChunkHead

namespace ClassicMovie

variable (m : ClassicMovie)

/-- A row leads to a chunk: it tells the chunk's tag and its place in the container. -/
structure Leads (e : Entry) (c : Chunk) : Prop where
  mem : e ∈ m.entries
  tag_eq : e.tag = c.tag
  length_lt : c.body.length < 0x100000000
  holds : ∀ {data pos}, Holds data pos m.bytes →
    Holds data (pos + e.offset.toNat) (c.written m.order)

theorem exists_leads {i : Nat} {c : Chunk} (hc : m.stored[i]? = some c) :
    ∃ e, m.entries[i]? = some e ∧ e.id = Int32.ofNat i ∧ m.Leads e c := by
  have hrow := getElem?_rowsFrom 0 m.firstOffset m.stored i
  rw [hc, Option.map_some, Nat.zero_add] at hrow
  have hmem : c ∈ m.chunks := by
    rw [ClassicLayout.chunks]
    exact List.mem_cons_of_mem _ (List.mem_cons_of_mem _ (List.mem_of_getElem? hc))
  refine ⟨_, hrow, rfl, List.mem_of_getElem? hrow, rfl, m.body_lt hmem, ?_⟩
  intro data pos h
  have hend := Chunk.extents_take_add_le hc
  have hsize := m.fits
  rw [ClassicLayout.size_eq] at hsize
  have hchunks := m.holds_chunks h
  rw [ClassicLayout.chunks, List.flatMap_cons, List.flatMap_cons] at hchunks
  have hstored := hchunks.append_right.append_right.chunk hc
  have hplace : pos + 12 + m.initialChunk.extent + m.memoryChunk.extent =
      pos + m.firstOffset := by
    simp only [Chunk.extent, ClassicLayout.length_initialBody, ClassicLayout.length_memoryBody,
      ClassicLayout.firstOffset]
    omega
  rw [Chunk.length_written, Chunk.length_written, hplace, Nat.add_assoc] at hstored
  dsimp only
  rwa [UInt32.toNat_ofNat', Nat.mod_eq_of_lt (by omega)]

theorem exists_leads_of_mem {e : Entry} (he : e ∈ m.entries) : ∃ c, m.Leads e c := by
  obtain ⟨i, hi⟩ := List.mem_iff_getElem?.mp he
  have hrow := getElem?_rowsFrom 0 m.firstOffset m.stored i
  rw [← ClassicLayout.entries, hi] at hrow
  cases hc : m.stored[i]? with
  | none =>
    rw [hc] at hrow
    cases hrow
  | some c =>
    obtain ⟨e', he', hid, hleads⟩ := m.exists_leads hc
    rw [hi, Option.some.injEq] at he'
    exact ⟨c, he' ▸ hleads⟩

/-- A head under the tag of a row, at the row's offset counted from the start of the stream. -/
def strayHead? (data : ByteArray) (order : ByteOrder) (e : Entry) : Option ChunkHead :=
  ChunkHead.under? data order e.tag e.offset.toNat

theorem strayHead?_eq_some {data : ByteArray} {order : ByteOrder} {e : Entry} {c : Chunk}
    (htag : e.tag = c.tag) (h : Holds data e.offset.toNat (c.written order))
    (hlength : c.body.length < 0x100000000) :
    strayHead? data order e =
      some { pos := e.offset.toNat, tag := c.tag, length := c.body.length } := by
  rw [strayHead?, htag, ChunkHead.under?_written h hlength]

variable {m}

/-- The offset of a row is first counted from the start of the stream. Only when it leads to no
chunk of the row's tag there, the bytes are those of the movie. -/
theorem Leads.bodyOf_eq {e : Entry} {c : Chunk} (hleads : m.Leads e c) {data : ByteArray}
    {pos : Nat} (h : Holds data pos m.bytes) (hsize : pos = 0 ∨ data.size < 0x10000000000000000) :
    Payload.bodyOf data m.order pos e =
      ((strayHead? data m.order e).map (·.body? data)).getD (some c.body.toByteArray) := by
  have hchunk := hleads.holds h
  have hfits := hchunk.fits
  have hoffset := e.offset.toNat_lt
  have hplace : further pos e.offset.toNat = pos + e.offset.toNat := by
    unfold further
    omega
  have hown := ChunkHead.under?_written hchunk hleads.length_lt
  rw [← hleads.tag_eq] at hown
  unfold Payload.bodyOf Payload.probe
  rw [hplace, List.eraseDups_cons]
  cases hstray : strayHead? data m.order e with
  | some head =>
    rw [ChunkHead.firstUnder?_of_some hstray]
    rfl
  | none =>
    -- the two candidates differ, since the second one is a chunk of the tag
    have hne : ¬pos + e.offset.toNat = e.offset.toNat := by
      intro heq
      rw [heq] at hown
      rw [strayHead?, hown] at hstray
      cases hstray
    have hsecond : ([pos + e.offset.toNat].filter fun b => !b == e.offset.toNat).eraseDups =
        [pos + e.offset.toNat] := by
      rw [List.filter_cons_of_pos (by simpa using hne)]
      rfl
    rw [ChunkHead.firstUnder?_of_none hstray, hsecond, ChunkHead.firstUnder?_of_some hown,
      hleads.tag_eq]
    exact ChunkHead.body?_written hchunk

theorem Registered.yields_loadId {ε : Type} {data : ByteArray} {pos : Nat} {s : Session}
    (hs : m.Registered data pos s) (id : Int32) :
    Step.Yields (Payload.loadId id : Step ε _) s
      ((m.entries.find? (·.id == id)).bind (Payload.bodyOf data m.order pos)) := by
  have hload := Payload.yields_loadId (ε := ε) id s
  rw [Payload.content_of_classic hs.archive_eq, hs.resources_eq, hs.data_eq, hs.order_eq,
    hs.offset_eq] at hload
  exact hload

theorem Leads.find?_eq {e : Entry} {c : Chunk} (hleads : m.Leads e c) :
    m.entries.find? (·.id == e.id) = some e :=
  Container.find?_eq_some (c := { entries := m.entries }) m.nodup_ids hleads.mem

theorem Leads.bodyOf_start {e : Entry} {c : Chunk} (hleads : m.Leads e c) {data : ByteArray}
    (h : Holds data 0 m.bytes) :
    Payload.bodyOf data m.order 0 e = some c.body.toByteArray := by
  have hchunk := hleads.holds h
  rw [Nat.zero_add] at hchunk
  rw [hleads.bodyOf_eq h (.inl rfl), strayHead?_eq_some hleads.tag_eq hchunk hleads.length_lt,
    Option.map_some, Option.getD_some, ChunkHead.body?_written hchunk]

variable (m)

theorem rows_eq : m.entries.map (fun e => (e.id, e.tag, e.size)) =
    m.stored.mapIdx fun i c => (Int32.ofNat i, c.tag, UInt32.ofNat c.body.length) := by
  apply List.ext_getElem?
  intro i
  rw [List.getElem?_map, ClassicLayout.entries, getElem?_rowsFrom, List.getElem?_mapIdx,
    Option.map_map, Nat.zero_add]
  rfl

/-- A written movie, with anything after it, reads back as its rows in order, its links and its
versions, and each stored chunk is loaded by its row number. -/
theorem readFrom_written {ε : Type} (trailing : List UInt8) (fileName : String)
    (options : Options) :
    ∃ movie s,
      Movie.readFrom options (.ofBytes fileName (m.bytes ++ trailing).toByteArray) = .ok movie s ∧
      Movie.read fileName (m.bytes ++ trailing).toByteArray options = .ok movie ∧
      movie.offset = 0 ∧
      movie.resources.map (fun e => (e.id, e.tag, e.size)) =
        m.stored.mapIdx (fun i c => (Int32.ofNat i, c.tag, UInt32.ofNat c.body.length)) ∧
      movie.links = m.links ∧
      movie.block.format.mapVersion = m.mapVersion ∧
      movie.block.format.archiveVersion = m.archiveVersion ∧
      ∀ i c, m.stored[i]? = some c →
        ∃ t, (Payload.loadId (Int32.ofNat i) : Step ε _) s = .ok (some c.body.toByteArray) t := by
  have h := Holds.start m.bytes trailing
  generalize (m.bytes ++ trailing).toByteArray = data at h
  have hlocate := m.locate_start (s := (Session.ofBytes fileName data).reset) h options.search
  obtain ⟨movie, s, hread, hs, hoffset, hblock, hrows, hlinks⟩ :=
    m.readFrom_eq (s := Session.ofBytes fileName data) h rfl hlocate
  change m.Registered data 0 s at hs
  have hmovie : Movie.read fileName data options = .ok movie := by
    rw [Movie.read, hread]
  refine ⟨movie, s, hread, hmovie, hoffset, by rw [hrows, m.rows_eq], hlinks, by rw [hblock]; rfl,
    by rw [hblock]; rfl, ?_⟩
  intro i c hc
  obtain ⟨e, he, hid, hleads⟩ := m.exists_leads hc
  obtain ⟨t, hload, hkeeps⟩ := hs.yields_loadId (ε := ε) e.id
  refine ⟨t, ?_⟩
  rw [← hid, hload, hleads.find?_eq, Option.bind_some, hleads.bodyOf_start h]

end ClassicMovie
end Shockwave
