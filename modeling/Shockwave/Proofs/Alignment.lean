import Shockwave.Proofs.RoundTrip

/-!
The walk over the chunks of a container goes on at even positions of the stream. A container at an
even position is read as if it were alone; at an odd one the walk is a byte off behind the initial
map.
-/
namespace Shockwave

def mapAt (offset : Nat) : Step Halt Block := do
  modify fun s => { s with offset }
  let block ← Movie.orFail (readBlock offset)
  Movie.readMap block

/-- What stands in front of a memory map: a walk one byte off takes its head from there. -/
def memoryFront (order : ByteOrder) (length : Nat) : List UInt8 :=
  Tag.mmap.written order ++ order.bytes 4 length ++ order.bytes 2 12

theorem length_memoryFront (order : ByteOrder) (length : Nat) :
    (memoryFront order length).length = 10 := by
  simp [memoryFront]

theorem isPlain_of_memoryFront (order : ByteOrder) {length : Nat} (hlength : length < 0x1000000) :
    Tag.IsPlain ⟨UInt32.ofNat (order.value (((memoryFront order length).drop 1).take 4))⟩ := by
  -- the tags of a map end in other bytes
  have hlow : order.value (((memoryFront order length).drop 1).take 4) % 256 ∈ [0x00, 0x61] := by
    cases order with
    | big =>
      simp [memoryFront, Tag.written, Tag.mmap, ByteOrder.bytes, ByteOrder.bigBytes,
        ByteOrder.value, ByteOrder.bigValue]
      omega
    | little =>
      simp [memoryFront, Tag.written, Tag.mmap, ByteOrder.bytes, ByteOrder.bigBytes,
        ByteOrder.value, ByteOrder.bigValue]
  generalize order.value (((memoryFront order length).drop 1).take 4) = code at hlow
  simp only [List.mem_cons, List.not_mem_nil, or_false] at hlow
  have hne {tag : Tag} (htag : tag.code.toNat % 256 ∉ [0x00, 0x61]) :
      ⟨UInt32.ofNat code⟩ ≠ tag := by
    rintro rfl
    simp only [UInt32.toNat_ofNat', List.mem_cons, List.not_mem_nil, or_false] at htag
    omega
  exact ⟨hne (by decide), hne (by decide), hne (by decide)⟩

theorem le_value_memoryFront (order : ByteOrder) {length : Nat} (hlength : length < 0x1000000)
    (hheader : 12 ≤ length) : 3072 ≤ order.value (((memoryFront order length).drop 5).take 4) := by
  cases order with
  | big =>
    simp [memoryFront, Tag.written, Tag.mmap, ByteOrder.bytes, ByteOrder.bigBytes,
      ByteOrder.value, ByteOrder.bigValue]
    omega
  | little =>
    simp [memoryFront, Tag.written, Tag.mmap, ByteOrder.bytes, ByteOrder.bigBytes,
      ByteOrder.value, ByteOrder.bigValue]
    omega

namespace ClassicMovie

variable (m : ClassicMovie)

theorem mapAt_eq {data : ByteArray} {pos : Nat} (h : Holds data pos m.bytes) (fileName : String) :
    ∃ block t, mapAt pos (.ofBytes fileName data) = .ok block t ∧
      block.format =
        (ClassicMap.found data m.order pos (m.blockAt pos)).versions (m.blockAt 0).format ∧
      t.resources = (ClassicMap.found data m.order pos (m.blockAt pos)).registered {} := by
  let s : Session := { Session.ofBytes fileName data with offset := pos }
  obtain ⟨notes, hblock⟩ := m.readBlock_eq (s := s) h
  obtain ⟨t, hmap, place, notes', rfl⟩ := m.readMap_found
    (s := { s with cursor := ⟨data, pos + 12, m.order⟩, notes }) pos rfl
  exact ⟨_, _, Eq.trans modify_bind (Eq.trans (bind_ok (Movie.orFail_ok hblock)) hmap), rfl, rfl⟩

/-- The heads that the walk meets from one byte behind the initial map on. -/
def derailedChain (data : ByteArray) (pos : Nat) : List ChunkHead :=
  chunkChain data m.order (min (m.blockAt pos).stop data.size) (pos + 37)

def derailedMap (data : ByteArray) (pos : Nat) : ClassicMap :=
  let walked := ClassicMap.survey data m.order (m.derailedChain data pos)
    { initial := some m.initialMap }
  { walked with memory := walked.memoryFound data m.order pos (pos + 12) }

section

variable {data : ByteArray} {pos : Nat}

theorem holds_initialChunk (h : Holds data pos m.bytes) :
    Holds data (pos + 12) (m.initialChunk.written m.order) := by
  have hchunks := m.holds_chunks h
  rw [ClassicLayout.chunks, List.flatMap_cons] at hchunks
  exact hchunks.append_left

theorem holds_memoryChunk (h : Holds data pos m.bytes) :
    Holds data (pos + 36) (m.memoryChunk.written m.order) := by
  have hchunks := m.holds_chunks h
  rw [ClassicLayout.chunks, List.flatMap_cons, List.flatMap_cons] at hchunks
  have hmemory := hchunks.append_right.append_left
  simpa [Chunk.extent] using hmemory

theorem found_odd (h : Holds data pos m.bytes) (hodd : pos % 2 = 1) :
    ClassicMap.found data m.order pos (m.blockAt pos) = m.derailedMap data pos := by
  have hinitial := m.holds_initialChunk h
  have hparse := ChunkHead.parse_written hinitial (by simp)
  have hnext : (ChunkHead.next { pos := pos + 12, tag := .imap, length := 16 }) = pos + 37 := by
    unfold ChunkHead.next ChunkHead.body
    dsimp only
    omega
  have hroom : pos + 12 + 8 ≤ min (m.blockAt pos).stop data.size := by
    rw [m.stop_eq h, ClassicLayout.chunks, Chunk.extents, Chunk.extent]
    omega
  have hchain : chunkChain data m.order (min (m.blockAt pos).stop data.size) (pos + 12) =
      { pos := pos + 12, tag := .imap, length := 16 } :: m.derailedChain data pos := by
    rw [chunkChain, if_pos hroom]
    dsimp only
    rw [hparse, ClassicLayout.length_initialBody]
    exact congrArg _ (congrArg _ hnext)
  have hwalk : ClassicMap.survey data m.order
      (chunkChain data m.order (min (m.blockAt pos).stop data.size) (m.blockAt pos).start) {} =
        ClassicMap.survey data m.order (m.derailedChain data pos)
          { initial := some m.initialMap } :=
    Eq.trans (congrArg (ClassicMap.survey data m.order · {}) hchain)
      (ClassicMap.survey_imap rfl (m.outcome_initialMap hinitial.body))
  unfold ClassicMap.found derailedMap
  dsimp only
  rw [hwalk]
  rfl

/-- When the walk meets nothing of a map on its wrong way, the memory map is still found through the
initial map, unless a stray one lies at the same offset from the start of the stream. -/
theorem derailedMap_eq (h : Holds data pos m.bytes) (hodd : pos % 2 = 1)
    (hpos : pos + 36 < 0x10000000000000000)
    (hplain : ∀ head ∈ m.derailedChain data pos, head.tag.IsPlain)
    (hstray : ChunkHead.under? data m.order .mmap 36 = none) :
    m.derailedMap data pos = { initial := some m.initialMap, memory := some m.memoryMap } := by
  have hmemory := m.holds_memoryChunk h
  have hlength : m.memoryChunk.body.length < 0x100000000 :=
    m.body_lt (by simp [ClassicLayout.chunks])
  have hown : ChunkHead.under? data m.order .mmap (pos + 36) =
      some { pos := pos + 36, tag := .mmap, length := m.memoryChunk.body.length } :=
    ChunkHead.under?_written hmemory hlength
  have hplace : further pos 36 = pos + 36 := by
    unfold further
    omega
  have hread := m.outcome_memoryMap hmemory.body
  have hsurvey : ClassicMap.survey data m.order (m.derailedChain data pos)
      { initial := some m.initialMap } = { initial := some m.initialMap } := by
    rw [← List.append_nil (m.derailedChain data pos), ClassicMap.survey_plain hplain]
    rfl
  have hprobe : ClassicMap.probe data m.order
      [36, further pos 36, further (pos + 12) 36].eraseDups = some m.memoryMap := by
    rw [ClassicMap.probe, hplace, List.eraseDups_cons, ChunkHead.firstUnder?_of_none hstray,
      List.filter_cons_of_pos (by simp; omega), List.eraseDups_cons,
      ChunkHead.firstUnder?_of_some hown]
    exact congrArg Except.toOption hread
  unfold derailedMap
  rw [hsurvey]
  exact congrArg (ClassicMap.mk (some m.initialMap) · none) hprobe

theorem holds_memoryFront (h : Holds data pos m.bytes) :
    Holds data (pos + 36) (memoryFront m.order m.memoryChunk.body.length) := by
  have hbody : m.memoryChunk.body = m.order.bytes 2 12 ++ m.memoryChunk.body.drop 2 := by
    simp [ClassicLayout.memoryChunk, tableHeader]
  have hmemory := m.holds_memoryChunk h
  rw [Chunk.written] at hmemory
  generalize m.memoryChunk.body.length = length at hmemory ⊢
  rw [hbody, ← List.append_assoc] at hmemory
  exact hmemory.append_left.append_left

theorem derailedChain_plain (h : Holds data pos m.bytes) (hsmall : m.size ≤ 3072) :
    ∀ head ∈ m.derailedChain data pos, head.tag.IsPlain := by
  have hfront := m.holds_memoryFront h
  have hlength : 12 ≤ m.memoryChunk.body.length ∧ m.memoryChunk.body.length < 0x1000000 := by
    rw [ClassicLayout.size_eq, ClassicLayout.firstOffset] at hsmall
    rw [ClassicLayout.length_memoryBody]
    omega
  have htag := hfront.octets_extract_part 1 4 (by simp [length_memoryFront])
  have hword := hfront.octets_extract_part 5 4 (by simp [length_memoryFront])
  have hplain : (ChunkHead.parse data m.order (pos + 37)).tag.IsPlain := by
    have hfact := isPlain_of_memoryFront m.order hlength.2
    rw [← htag] at hfact
    exact hfact
  have hlarge : 3072 ≤ (ChunkHead.parse data m.order (pos + 37)).length := by
    have hfact := le_value_memoryFront m.order hlength.2 hlength.1
    rw [← hword] at hfact
    exact hfact
  have hrest : chunkChain data m.order (min (m.blockAt pos).stop data.size)
      (ChunkHead.parse data m.order (pos + 37)).next = [] := by
    rw [m.stop_eq h]
    rw [ClassicLayout.size] at hsmall
    have hpast : pos + 37 + 8 + 3072 ≤ (ChunkHead.parse data m.order (pos + 37)).next := by
      unfold ChunkHead.next ChunkHead.body
      change _ ≤ pos + 37 + 8 + _ + _
      omega
    rw [chunkChain, if_neg (by omega)]
  intro head hhead
  unfold derailedChain at hhead
  rw [chunkChain] at hhead
  split at hhead
  · dsimp only at hhead
    rw [hrest, List.mem_singleton] at hhead
    rw [hhead]
    exact hplain
  · cases hhead

end

/-- A map registers the rows and links of the movie and tells its versions. -/
structure Tells (map : ClassicMap) : Prop where
  entries_eq : (map.registered {}).entries = m.entries
  links_eq : (map.registered {}).links = m.links
  mapVersion_eq : (map.versions (m.blockAt 0).format).mapVersion = m.mapVersion
  archiveVersion_eq : (map.versions (m.blockAt 0).format).archiveVersion = m.archiveVersion

theorem tells_map : m.Tells m.map := by
  refine ⟨?_, ?_, rfl, rfl⟩
  · rw [m.registered_map]
  · rw [m.registered_map]

/-- A container behind other bytes gives the map that it gives alone exactly if it lies at an even
position or what the walk meets on its wrong way makes up for what it misses. When it meets nothing
of a map there, the rows are found all the same, and the links are lost. -/
theorem mapAt_embedded_iff (pre post : List UInt8) (fileName : String) :
    ∃ block s alone t,
      mapAt pre.length (.ofBytes fileName (pre ++ m.bytes ++ post).toByteArray) = .ok block s ∧
      mapAt 0 (.ofBytes fileName m.bytes.toByteArray) = .ok alone t ∧
      ((s.resources.entries = t.resources.entries ∧ s.resources.links = t.resources.links ∧
          block.format.mapVersion = alone.format.mapVersion ∧
          block.format.archiveVersion = alone.format.archiveVersion) ↔
        pre.length % 2 = 0 ∨
          m.Tells (m.derailedMap (pre ++ m.bytes ++ post).toByteArray pre.length)) ∧
      (pre.length % 2 = 1 → pre.length + 36 < 0x10000000000000000 →
        (∀ head ∈ m.derailedChain (pre ++ m.bytes ++ post).toByteArray pre.length,
          head.tag.IsPlain) →
        ChunkHead.under? (pre ++ m.bytes ++ post).toByteArray m.order .mmap 36 = none →
        s.resources.entries = t.resources.entries ∧ s.resources.links = []) := by
  have h := Holds.of_append pre m.bytes post
  have hwhole := Holds.start m.bytes []
  rw [List.append_nil] at hwhole
  generalize (pre ++ m.bytes ++ post).toByteArray = data at h
  generalize m.bytes.toByteArray = whole at hwhole
  generalize pre.length = pos at h
  obtain ⟨block, s, hread, hblock, hs⟩ := m.mapAt_eq h fileName
  obtain ⟨alone, t, halone, hformat, ht⟩ := m.mapAt_eq hwhole fileName
  rw [m.found_eq hwhole rfl] at hformat ht
  rw [m.registered_map] at ht
  refine ⟨block, s, alone, t, hread, halone, ?_, ?_⟩
  · rw [hblock, hs, hformat, ht]
    constructor
    · rintro ⟨hentries, hlinks, hmap, harchive⟩
      rcases Nat.mod_two_eq_zero_or_one pos with heven | hodd
      · exact .inl heven
      · rw [m.found_odd h hodd] at hentries hlinks hmap harchive
        exact .inr ⟨hentries, hlinks, hmap, harchive⟩
    · intro hcases
      have htells : m.Tells (ClassicMap.found data m.order pos (m.blockAt pos)) := by
        rcases Nat.mod_two_eq_zero_or_one pos with heven | hodd
        · rw [m.found_eq h heven]
          exact m.tells_map
        · rw [m.found_odd h hodd]
          exact hcases.resolve_left (by omega)
      exact ⟨htells.entries_eq, htells.links_eq, htells.mapVersion_eq, htells.archiveVersion_eq⟩
  · intro hodd hpos hplain hstray
    have hregistered : s.resources = { entries := m.entries } := by
      rw [hs, m.found_odd h hodd, m.derailedMap_eq h hodd hpos hplain hstray, m.registered_eq rfl]
      rfl
    rw [hregistered, ht]
    exact ⟨rfl, rfl⟩

end ClassicMovie

def oddLoader : List UInt8 := [0x4d, 0x5a, 0x90, 0, 3, 0, 0]

def linkedScript : ClassicMovie where
  order := .big
  codec := ⟨0x4d563933⟩
  mapVersion := 1
  archiveVersion := 0x4c7
  resources := [⟨⟨0x43415374⟩, [0, 0, 0, 0]⟩, ⟨⟨0x4c736372⟩, [0, 0, 0, 0]⟩]
  links := [{ child := 1, parent := 0, tag := ⟨0x4c736372⟩ }]
  not_archive := mv93_not_archive
  plain := by decide
  fits := by decide

theorem locate_oddLoader {s : Session}
    (h : Holds s.cursor.data 0 (oddLoader ++ linkedScript.bytes)) :
    locate true s = .ok oddLoader.length s := by
  have hmovie := h.append_right
  rw [Nat.zero_add] at hmovie
  have hfits := hmovie.fits
  rw [ClassicLayout.length_bytes] at hfits
  have hsize : linkedScript.size = 172 := by decide
  have hstart : Holds s.cursor.data 0 (oddLoader ++ [0x52, 0x49, 0x46, 0x58]) := by
    have hmagic : linkedScript.bytes = [0x52, 0x49, 0x46, 0x58] ++ linkedScript.bytes.drop 4 := rfl
    rw [hmagic, ← List.append_assoc] at h
    exact h.append_left
  have hword (k : Nat) (hk : k < 7) :
      octets (s.cursor.data.extract k (k + 4)) =
        ((oddLoader ++ [0x52, 0x49, 0x46, 0x58]).drop k).take 4 := by
    have hpart := hstart.octets_extract_part k 4 (by simp [oddLoader]; omega)
    rwa [Nat.zero_add] at hpart
  have hbefore : ∀ k < 7, isMagicAt s.cursor.data k = false := by
    intro k hk
    have hnone : ∀ k < 7, magicOrder? (((oddLoader ++ [0x52, 0x49, 0x46, 0x58]).drop k).take 4) =
        none := by decide
    rw [isMagicAt, hword k hk, hnone k hk]
    rfl
  have hmarker : octets (s.cursor.data.extract 0 4) ∉ projectorMarkers := by
    rw [hword 0 (by decide)]
    decide
  have hlength : oddLoader.length = 7 := rfl
  exact locate_of_search (by unfold headerSize; omega) (by decide) hmarker (by omega)
    (ClassicLayout.isMagicAt_of_holds hmovie) hbefore

/-- Behind seven bytes, the movie is found and its link is lost. -/
theorem mapAt_linkedScript_odd :
    ∃ u block s alone t,
      locate true (Session.ofBytes "embedded.dir"
        (oddLoader ++ linkedScript.bytes).toByteArray).reset = .ok oddLoader.length u ∧
      mapAt oddLoader.length (.ofBytes "embedded.dir"
        (oddLoader ++ linkedScript.bytes).toByteArray) = .ok block s ∧
      mapAt 0 (.ofBytes "embedded.dir" linkedScript.bytes.toByteArray) = .ok alone t ∧
      t.resources.links = [{ child := 1, parent := 0, tag := ⟨0x4c736372⟩ }] ∧
      s.resources.links = [] := by
  have h := Holds.start (oddLoader ++ linkedScript.bytes) []
  have hwhole := Holds.start linkedScript.bytes []
  rw [List.append_nil] at h hwhole
  generalize (oddLoader ++ linkedScript.bytes).toByteArray = data at h
  generalize linkedScript.bytes.toByteArray = whole at hwhole
  have hmovie := h.append_right
  rw [Nat.zero_add] at hmovie
  obtain ⟨block, s, hread, -, hs⟩ := linkedScript.mapAt_eq hmovie "embedded.dir"
  obtain ⟨alone, t, halone, -, ht⟩ := linkedScript.mapAt_eq hwhole "embedded.dir"
  refine ⟨_, block, s, alone, t, locate_oddLoader h, hread, halone, ?_, ?_⟩
  · rw [ht, linkedScript.found_eq hwhole rfl, linkedScript.registered_map]
    rfl
  · have hplain := linkedScript.derailedChain_plain hmovie (by decide)
    have hstray : ChunkHead.under? data linkedScript.order .mmap 36 = none := by
      have hbody := (linkedScript.holds_initialChunk hmovie).body
      have hword : octets (data.extract 36 (36 + 4)) =
          (linkedScript.initialChunk.body.drop 9).take 4 :=
        hbody.octets_extract_part 9 4 (by decide)
      have htag : (ChunkHead.parse data linkedScript.order 36).tag ≠ .mmap := by
        unfold ChunkHead.parse
        dsimp only
        rw [hword]
        decide
      by_cases hfits : 36 + 8 ≤ data.size
      · exact ChunkHead.under?_of_ne (if_pos hfits) htag
      · exact ChunkHead.under?_of_cut (if_neg hfits)
    rw [hs, linkedScript.found_odd hmovie rfl,
      linkedScript.derailedMap_eq hmovie rfl (by decide) hplain hstray,
      linkedScript.registered_eq rfl]
    rfl

end Shockwave
