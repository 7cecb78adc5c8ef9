import Shockwave.Movie.Read
import Shockwave.Proofs.Loading
import Shockwave.Proofs.Probing
import Shockwave.Proofs.Tiling

/-!
Opening a written movie that lies at an even position of a stream, alone or embedded: its header,
the registration of its rows and links, and the place of each resource.
-/
namespace Shockwave

theorem int32_ofNat_inj {i j : Nat} (hi : i < 0x100000000) (hj : j < 0x100000000)
    (h : Int32.ofNat i = Int32.ofNat j) : i = j := by
  have hword : UInt32.ofNat i = UInt32.ofNat j := congrArg Int32.toUInt32 h
  have hnat := congrArg UInt32.toNat hword
  rwa [UInt32.toNat_ofNat', UInt32.toNat_ofNat', Nat.mod_eq_of_lt hi, Nat.mod_eq_of_lt hj] at hnat

namespace Container

theorem has_eq_false {c : Container} {id : Int32} (h : id ∉ c.entries.map (·.id)) :
    c.has id = false := by
  unfold has find?
  rw [Option.isSome_eq_false_iff, Option.isNone_iff_eq_none, List.find?_eq_none]
  intro e he hid
  exact h (List.mem_map.mpr ⟨e, he, by simpa using hid⟩)

theorem foldl_insert {c : Container} {entries : List Entry}
    (h : ((c.entries ++ entries).map (·.id)).Nodup) :
    entries.foldl insert c = { c with entries := c.entries ++ entries } := by
  induction entries generalizing c with
  | nil => simp
  | cons e rest ih =>
    have hnew : e.id ∉ c.entries.map (·.id) := by
      rw [List.map_append, List.map_cons, List.nodup_append] at h
      intro hmem
      exact h.2.2 _ hmem _ (by simp) rfl
    have hinsert : c.insert e = { c with entries := c.entries ++ [e] } := by
      unfold insert
      rw [has_eq_false hnew]
      rfl
    rw [List.foldl_cons, hinsert, ih (by simpa using h)]
    simp

theorem foldl_link (c : Container) (links : List Link) :
    links.foldl link c = { c with links := c.links ++ links } := by
  induction links generalizing c with
  | nil => simp
  | cons l rest ih =>
    rw [List.foldl_cons, ih]
    simp [link]

theorem find?_eq_some {c : Container} {e : Entry} (hnodup : (c.entries.map (·.id)).Nodup)
    (h : e ∈ c.entries) : c.find? e.id = some e := by
  unfold find?
  generalize c.entries = entries at *
  induction entries with
  | nil => simp at h
  | cons d rest ih =>
    rw [List.map_cons, List.nodup_cons] at hnodup
    rcases List.mem_cons.mp h with rfl | hrest
    · simp
    · have hne : d.id ≠ e.id := fun hid =>
        hnodup.1 (List.mem_map.mpr ⟨e, hrest, hid.symm⟩)
      rw [List.find?_cons_of_neg (by simpa using hne)]
      exact ih hnodup.2 hrest

end Container

theorem map_id_rowsFrom (index offset : Nat) (chunks : List Chunk) :
    (rowsFrom index offset chunks).map (·.id) =
      (List.range' index chunks.length).map Int32.ofNat := by
  induction chunks generalizing index offset with
  | nil => rfl
  | cons c rest ih => simp [rowsFrom, ih, List.range'_succ]

theorem getElem?_rowsFrom (index offset : Nat) (chunks : List Chunk) (i : Nat) :
    (rowsFrom index offset chunks)[i]? = chunks[i]?.map fun c =>
      { id := Int32.ofNat (index + i), tag := c.tag, size := UInt32.ofNat c.body.length,
        offset := UInt32.ofNat (offset + Chunk.extents (chunks.take i)),
        nextFree := 0xFFFFFFFF } := by
  induction chunks generalizing index offset i with
  | nil => simp [rowsFrom]
  | cons c rest ih =>
    cases i with
    | zero => simp [rowsFrom, Chunk.extents]
    | succ i =>
      simp only [rowsFrom, List.getElem?_cons_succ, ih, List.take_succ_cons, Chunk.extents]
      congr 1
      funext d
      congr 2 <;> omega

theorem Chunk.extents_take_add_le {chunks : List Chunk} {i : Nat} {c : Chunk}
    (h : chunks[i]? = some c) : extents (chunks.take i) + c.extent ≤ extents chunks := by
  induction chunks generalizing i with
  | nil => simp at h
  | cons d rest ih =>
    cases i with
    | zero =>
      simp only [List.getElem?_cons_zero, Option.some.injEq] at h
      subst h
      simp [extents]
    | succ i =>
      rw [List.getElem?_cons_succ] at h
      have := ih h
      simp only [List.take_succ_cons, extents]
      omega

theorem Holds.chunk {data : ByteArray} {order : ByteOrder} {pos i : Nat} {chunks : List Chunk}
    {c : Chunk} (h : Holds data pos (chunks.flatMap (Chunk.written order)))
    (hc : chunks[i]? = some c) :
    Holds data (pos + Chunk.extents (chunks.take i)) (c.written order) := by
  induction chunks generalizing pos i with
  | nil => simp at hc
  | cons d rest ih =>
    rw [List.flatMap_cons] at h
    cases i with
    | zero =>
      simp only [List.getElem?_cons_zero, Option.some.injEq] at hc
      subst hc
      simpa [Chunk.extents] using h.append_left
    | succ i =>
      rw [List.getElem?_cons_succ] at hc
      have hrest := ih h.append_right hc
      rwa [Chunk.length_written, Nat.add_assoc] at hrest

theorem Codec.isArchive_ofTag {tag : Tag}
    (h : Tag.ofText? "FGDM" ≠ some tag ∧ Tag.ofText? "FGDC" ≠ some tag) :
    (Codec.ofTag tag).isArchive = false := by
  have hm : (Tag.ofText? fgdm.name == some tag) = false := by simpa [name] using h.1
  have hc : (Tag.ofText? fgdc.name == some tag) = false := by simpa [name] using h.2
  unfold ofTag
  simp only [List.find?_cons, List.find?_nil, hm, hc]
  split
  · rfl
  · split
    · rfl
    · split <;> rfl

def headerNotes (codec : Tag) : List Note :=
  if Codec.ofTag codec = .unknown then [.unknownCodec codec] else []

theorem readBlock_ok {s : Session} {pos declared : Nat} {order : ByteOrder} {codec : Tag}
    (h : Holds s.cursor.data pos
      (order.magic ++ (order.bytes 4 declared ++ codec.written order))) :
    readBlock pos s =
      .ok { declaredSize := UInt32.ofNat declared, start := pos + 12
            format := { codecTag := codec, order } }
        { s with
          cursor := ⟨s.cursor.data, pos + 12, order⟩
          notes := s.notes ++ headerNotes codec } := by
  have hfits := h.fits
  simp only [List.length_append, ByteOrder.length_magic, ByteOrder.length_bytes,
    Tag.length_written] at hfits
  have hrest := h.append_right
  rw [order.length_magic] at hrest
  have hcodec := hrest.append_right
  rw [ByteOrder.length_bytes] at hcodec
  unfold readBlock
  dsimp only
  rw [bind_ok (Step.readOr_ok (Decode.seek_ok (by omega))),
    bind_ok (Step.readOr_ok (Decode.bytes_ok (c := ⟨s.cursor.data, pos, s.cursor.order⟩)
      h.append_left order.length_magic)), octets_toByteArray, magicOrder?_magic]
  dsimp only
  rw [bind_ok (Step.readOr_ok (Decode.setOrder_ok order)),
    bind_ok (Step.readOr_ok (Decode.require_ok (by dsimp only; omega))),
    bind_ok (Step.readOr_ok (Decode.u32_ok (c := ⟨s.cursor.data, pos + 4, order⟩)
      hrest.append_left)),
    bind_ok (Step.readOr_ok (Decode.tag_ok (c := ⟨s.cursor.data, pos + 4 + 4, order⟩) hcodec))]
  by_cases hunknown : Codec.ofTag codec = .unknown
  · rw [headerNotes, if_pos hunknown]
    exact congrFun (if_pos hunknown) _
  · rw [headerNotes, if_neg hunknown, List.append_nil]
    exact congrFun (if_neg hunknown) _

namespace ClassicMovie

variable (m : ClassicMovie)

theorem readBlock_eq {s : Session} {pos : Nat} (h : Holds s.cursor.data pos m.bytes) :
    ∃ notes, readBlock pos s = .ok (m.blockAt pos)
      { s with cursor := ⟨s.cursor.data, pos + 12, m.order⟩, notes } := by
  have hheader := h.append_left
  rw [List.append_assoc] at hheader
  exact ⟨_, readBlock_ok hheader⟩

theorem nodup_ids : (m.entries.map (·.id)).Nodup := by
  have hlength := m.length_stored_lt
  have hrange : (List.range' 0 m.stored.length).Nodup := List.nodup_range' 1
  rw [ClassicLayout.entries, map_id_rowsFrom, List.Nodup, List.pairwise_map]
  refine List.Pairwise.imp_of_mem ?_ hrange
  intro i j hi hj hne hid
  rw [List.mem_range'_1] at hi hj
  exact hne (int32_ofNat_inj (by omega) (by omega) hid)

theorem registered_eq {map : ClassicMap} (hrows : map.rows = m.entries) :
    map.registered {} = { entries := m.entries, links := map.links } := by
  rw [ClassicMap.registered, hrows, Container.foldl_insert (by simpa using m.nodup_ids),
    Container.foldl_link]
  rfl

theorem registered_map : m.map.registered {} = { entries := m.entries, links := m.links } := by
  have hlinks : m.map.links = m.links := by
    unfold ClassicMap.links ClassicLayout.map
    by_cases h : m.links.isEmpty
    · rw [List.isEmpty_iff.mp h]
      rfl
    · rw [if_neg h]
      rfl
  rw [m.registered_eq rfl, hlinks]

end ClassicMovie

theorem keeping_locate (search : Bool) : Step.Keeping (locate search) := by
  intro s offset t h
  rcases Nat.lt_or_ge s.cursor.data.size headerSize with hsmall | hsize
  · rw [locate_of_small hsmall] at h
    cases h
  · rw [locate_eq hsize] at h
    cases hfound : container? search s.cursor.data with
    | none =>
      rw [hfound] at h
      cases h
    | some found =>
      rw [hfound] at h
      cases h
      exact ⟨s.cursor.pos, _, rfl⟩

namespace Movie

theorem orFail_ok {α : Type} {step : Step OpenError α} {s t : Session} {a : α}
    (h : step s = .ok a t) : orFail step s = .ok a t := by
  unfold orFail EStateM.adaptExcept
  rw [h]

/-- Once the map is read, nothing more is registered. -/
theorem readFrom_of_readMap {options : Options} {s t u v : Session} {pos : Nat}
    {header block : Block} (hlocate : locate options.search s.reset = .ok pos t)
    (hblock : readBlock pos { t with offset := pos } = .ok header u)
    (hmap : readMap header { u with notes := u.notes ++
      [.containerFound u.fileName pos header.format.codecTag header.declaredSize] } =
        .ok block v) :
    ∃ movie w, readFrom options s = .ok movie w ∧ v.Keeps w ∧ movie.offset = pos ∧
      movie.block = block ∧ movie.resources = v.resources.entries ∧
      movie.links = v.resources.links ∧ movie.archive = v.archive := by
  let mapped : Note := .movieMapped u.fileName block.format.label block.format.archiveVersion
    v.resources.entries.length
  have hmapped : v.Keeps { v with notes := v.notes ++ [mapped] } := ⟨v.cursor.pos, _, rfl⟩
  obtain ⟨scripts, x, hscripts, hx⟩ := ScriptEntry.quiet_collect (ε := Halt)
    block.format.archiveVersion options.decodeText { v with notes := v.notes ++ [mapped] }
  obtain ⟨scopes, w, hscopes, hw⟩ := Scope.quiet_collect (ε := Halt) x
  have hkeeps := (hmapped.trans hx).trans hw
  refine ⟨{ fileName := u.fileName, offset := pos, block, resources := w.resources.entries,
            links := w.resources.links, compressions := w.compressions.descriptors,
            archive := w.archive, scripts, scopes, lineEnding := options.lineEnding },
    w, ?_, hkeeps, rfl, rfl, ?_⟩
  · unfold readFrom
    rw [modify_bind, bind_ok (orFail_ok hlocate), modify_bind]
    refine Eq.trans (bind_ok (orFail_ok hblock)) ?_
    rw [get_bind]
    refine Eq.trans (modify_bind.trans (bind_ok hmap)) ?_
    rw [get_bind]
    refine Eq.trans (modify_bind.trans (bind_ok hscripts)) ?_
    rw [bind_ok hscopes, get_bind]
    rfl
  · obtain ⟨place, notes, rfl⟩ := hkeeps
    exact ⟨rfl, rfl, rfl⟩

end Movie

namespace ClassicMovie

variable (m : ClassicMovie)

structure Registered (m : ClassicMovie) (data : ByteArray) (offset : Nat) (s : Session) : Prop where
  data_eq : s.cursor.data = data
  order_eq : s.cursor.order = m.order
  offset_eq : s.offset = offset
  resources_eq : s.resources = { entries := m.entries, links := m.links }
  archive_eq : s.archive = none

theorem Registered.keeps {m : ClassicMovie} {data : ByteArray} {offset : Nat} {s t : Session}
    (h : m.Registered data offset s) (hkeeps : s.Keeps t) : m.Registered data offset t := by
  obtain ⟨pos, notes, rfl⟩ := hkeeps
  exact ⟨h.data_eq, h.order_eq, h.offset_eq, h.resources_eq, h.archive_eq⟩

def blockRead (offset : Nat) : Block :=
  { m.blockAt offset with format := m.map.versions (m.blockAt offset).format }

theorem readMap_found {s : Session} (pos : Nat) (horder : s.cursor.order = m.order) :
    let map := ClassicMap.found s.cursor.data m.order s.offset (m.blockAt pos)
    ∃ t, Movie.readMap (m.blockAt pos) s =
        .ok { m.blockAt pos with format := map.versions (m.blockAt pos).format } t ∧
      Session.Keeps { s with resources := map.registered s.resources } t := by
  have hread := ClassicMap.read_eq (ε := Halt) (m.blockAt pos) s
  rw [horder] at hread
  obtain ⟨t, ht, hkeeps⟩ := hread
  refine ⟨t, ?_, hkeeps⟩
  have hcodec : (m.blockAt pos).format.codec.isArchive = false :=
    Codec.isArchive_ofTag m.not_archive
  unfold Movie.readMap
  rw [if_neg (by simp [hcodec]), bind_ok ht]
  rfl

theorem readMap_eq {s : Session} {pos : Nat} (h : Holds s.cursor.data pos m.bytes)
    (heven : pos % 2 = 0) (horder : s.cursor.order = m.order) (hresources : s.resources = {})
    (harchive : s.archive = none) :
    ∃ t, Movie.readMap (m.blockAt pos) s = .ok (m.blockRead pos) t ∧
      m.Registered s.cursor.data s.offset t := by
  have hread := m.readMap_found pos horder
  rw [m.found_eq h heven, hresources] at hread
  dsimp only at hread
  rw [m.registered_map] at hread
  obtain ⟨t, ht, hkeeps⟩ := hread
  have hregistered : m.Registered s.cursor.data s.offset
      { s with resources := { entries := m.entries, links := m.links } } :=
    ⟨rfl, horder, rfl, rfl, harchive⟩
  exact ⟨t, ht, hregistered.keeps hkeeps⟩

/-- Opening a stream whose container is found at an even position. -/
theorem readFrom_eq {options : Options} {s t : Session} {pos : Nat}
    (h : Holds s.cursor.data pos m.bytes) (heven : pos % 2 = 0)
    (hlocate : locate options.search s.reset = .ok pos t) :
    ∃ movie u, Movie.readFrom options s = .ok movie u ∧ m.Registered s.cursor.data pos u ∧
      movie.offset = pos ∧ movie.block = m.blockRead pos ∧ movie.resources = m.entries ∧
      movie.links = m.links := by
  obtain ⟨place, notes, rfl⟩ := keeping_locate _ _ _ _ hlocate
  obtain ⟨notes', hblock⟩ := m.readBlock_eq
    (s := { s.reset with cursor := { s.cursor with pos := place }, notes, offset := pos }) h
  obtain ⟨u, hmap, hu⟩ := m.readMap_eq
    (s := { s.reset with
      cursor := ⟨s.cursor.data, pos + 12, m.order⟩
      notes := notes' ++ [.containerFound s.fileName pos m.codec (m.blockAt pos).declaredSize]
      offset := pos })
    h heven rfl rfl rfl
  obtain ⟨movie, w, hread, hkeeps, hoffset, hmovie, hrows, hlinks, harchive⟩ :=
    Movie.readFrom_of_readMap hlocate hblock hmap
  rw [hu.resources_eq] at hrows hlinks
  exact ⟨movie, w, hread, hu.keeps hkeeps, hoffset, hmovie, hrows, hlinks⟩

end ClassicMovie
end Shockwave
