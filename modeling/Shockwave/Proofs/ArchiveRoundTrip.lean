import Shockwave.Proofs.ArchiveReading
import Shockwave.Proofs.Locating
import Shockwave.Proofs.PlainStream

/-!
A written archive reads back: its versions, and the bytes of each resource, wherever they are kept.
-/
namespace Shockwave

theorem ArchiveLayout.length_header (m : ArchiveLayout) : m.header.length = 12 := by
  simp [ArchiveLayout.header]

theorem ArchiveLayout.entries_container (m : ArchiveLayout) :
    m.container.entries = m.rows.map (·.entry) :=
  Container.entries_setSegments _ _

namespace ArchiveMovie

variable (m : ArchiveMovie)

def blockAt (pos : Nat) : Block :=
  { declaredSize := m.declaredSize, start := pos + 12
    format := { codecTag := m.codec, order := m.order } }

def archiveAt (pos : Nat) : Archive :=
  { version := m.version, versionText := m.versionText?, bodyOffset := pos + m.bodyOffset }

theorem bodyOffset_lt : m.bodyOffset < 0x400000000 := by
  have hversion := m.versionRecord_fits
  have hschemes := m.schemeStream_fits
  have hmap := m.mapPart_fits
  have h₁ := Varint.length_written_le (UInt32.ofNat m.versionRecord.length)
  have h₂ := Varint.length_written_le (UInt32.ofNat m.schemeStream.length)
  have h₃ := Varint.length_written_le (UInt32.ofNat m.mapPart.length)
  have h₄ := Varint.length_written_le m.segmentHeader
  simp only [ArchiveLayout.bodyOffset, ArchiveLayout.length_header, length_archivePart,
    List.length_append]
  omega

theorem holds_body {data : ByteArray} {pos : Nat} (h : Holds data pos m.bytes) :
    Holds data (pos + m.bodyOffset) (m.segmentStream ++ m.body) := by
  have hbody := h.append_right.append_right.append_right.append_right.append_right.append_right
  rw [Tag.length_written] at hbody
  simpa only [ArchiveLayout.bodyOffset, Nat.add_assoc] using hbody

theorem readBlock_eq {s : Session} {pos : Nat} (h : Holds s.cursor.data pos m.bytes) :
    ∃ notes, readBlock pos s = .ok (m.blockAt pos)
      { s with cursor := ⟨s.cursor.data, pos + 12, m.order⟩, notes } := by
  have hblock := readBlock_ok h.append_left
  rw [UInt32.ofNat_toNat] at hblock
  exact ⟨_, hblock⟩

structure Registered (data : ByteArray) (pos : Nat) (s : Session) : Prop where
  data_eq : s.cursor.data = data
  resources_eq : s.resources = m.container
  compressions_eq : s.compressions = m.registry
  archive_eq : s.archive = some (m.archiveAt pos)

theorem read_eq {ε : Type} {s : Session} {pos : Nat} (h : Holds s.cursor.data pos m.bytes)
    (horder : s.cursor.order = m.order) (hresources : s.resources = {})
    (hcompressions : s.compressions = {}) :
    ∃ t, (Archive.read (m.blockAt pos) : Step ε _) s =
        .ok (.ok (m.archiveAt pos), m.versioned (m.blockAt pos)) t ∧
      m.Registered s.cursor.data pos { t with archive := some (m.archiveAt pos) } := by
  have hparts := h.append_right
  rw [ArchiveLayout.length_header] at hparts
  have hseek : Archive.readAs (Decode.seek (m.blockAt pos).start) s =
      .ok () (s.movedTo (pos + 12)) :=
    Step.readOr_ok (Decode.seek_ok (Nat.le_trans (Nat.le_add_right _ _) hparts.fits))
  obtain ⟨place, notes, htables⟩ :=
    m.readTables_eq m.versionText? horder hresources hcompressions hparts.append_right
  have hoffset : pos + 12 + (archivePart m.order .version m.versionRecord).length +
      (archivePart m.order .descriptors m.schemeStream).length +
      (archivePart m.order .archiveMap m.mapPart).length + 4 +
      (Varint.written m.segmentHeader).length = pos + m.bodyOffset := by
    simp only [ArchiveLayout.bodyOffset, ArchiveLayout.length_header, Nat.add_assoc]
  rw [hoffset] at htables
  refine ⟨{ s.movedTo place with resources := m.container, compressions := m.registry, notes }, ?_,
    rfl, rfl, rfl, rfl⟩
  unfold Archive.read
  dsimp only
  rw [bind_ok (Archive.inSession_ok hseek),
    bind_ok (m.readVersion_eq horder hparts.append_left)]
  dsimp only
  rw [Archive.inSession_ok htables]
  rfl

variable {m} {ε : Type} {data : ByteArray} {pos : Nat} {s : Session} {r : ArchivedResource}

theorem Registered.keeps {t : Session} (h : m.Registered data pos s) (hkeeps : s.Keeps t) :
    m.Registered data pos t := by
  obtain ⟨place, notes, rfl⟩ := hkeeps
  exact ⟨h.data_eq, h.resources_eq, h.compressions_eq, h.archive_eq⟩

theorem Registered.find?_eq (hs : m.Registered data pos s) (hr : r ∈ m.resources) :
    s.resources.find? r.id = some r.row.entry := by
  have hfind := m.find?_row (m.mem_rows hr) m.container.segments
  rw [hs.resources_eq, Container.find?, m.entries_container]
  exact hfind

theorem Registered.segment?_eq (hs : m.Registered data pos s) (hr : r ∈ m.resources)
    (hplace : r.isInline = true) : s.resources.segment? r.id = some r.stored.toByteArray := by
  have hnodup : (m.inlined.map (·.id)).Nodup :=
    m.id_distinct.sublist (List.filter_sublist.map _)
  rw [hs.resources_eq]
  exact Container.segment?_setSegments _ hnodup (List.mem_filter.mpr ⟨hr, hplace⟩)

/-- The stored bytes are found in the initial load segment or in the body. -/
theorem Registered.storedOf_eq (hs : m.Registered data pos s) (h : Holds data pos m.bytes)
    (hpos : pos < 0x8000000000000000) (hr : r ∈ m.resources) :
    Payload.storedOf s (m.archiveAt pos) r.row.entry r.place.offset.toInt32 =
      some r.stored.toByteArray := by
  unfold Payload.storedOf
  cases hplace : r.place with
  | segment =>
    have hinline : r.isInline = true := by rw [ArchivedResource.isInline, hplace]
    rw [if_pos (by decide)]
    exact hs.segment?_eq hr hinline
  | body offset =>
    obtain ⟨hoffset, hstored⟩ := m.data_placed r hr offset hplace
    have hint : (Place.body offset).offset.toInt32.toInt = offset := Int32.toInt_ofNat_of_lt hoffset
    have hsize : r.row.entry.size.toNat = r.stored.length :=
      UInt32.toNat_ofNat_of_lt (m.data_fits r hr).1
    have hbody := (m.holds_body h).within hstored
    have hfits := hbody.fits
    have hbound := m.bodyOffset_lt
    have hstart : further (m.archiveAt pos).bodyOffset
        (Place.body offset).offset.toInt32.toInt.toNat = pos + m.bodyOffset + offset := by
      rw [hint, Int.toNat_natCast]
      unfold further archiveAt
      dsimp only
      omega
    rw [← hs.data_eq] at hbody hfits
    rw [if_neg (by rw [Int32.lt_iff_toInt_lt, hint]; simp), hstart, hsize, Cursor.stretch?,
      if_pos hfits, hbody.extract rfl]

theorem Registered.expanded_eq (hs : m.Registered data pos s) (hr : r ∈ m.resources) :
    Payload.expanded s.compressions r.row.fullSize.toNat r.compression.toNat
      r.stored.toByteArray = some r.data.toByteArray := by
  have hfull : r.row.fullSize.toNat = r.data.length :=
    UInt32.toNat_ofNat_of_lt (m.data_fits r hr).2
  have hdata := m.data_stored r hr
  unfold Payload.expanded
  rw [hs.compressions_eq, m.kind?_registry, hfull]
  split
  · next hkind =>
    rw [if_pos hkind] at hdata
    rw [hdata.limited]
    rfl
  · next hkind =>
    rw [if_neg hkind] at hdata
    rw [hdata]

theorem data_eq_nil (hr : r ∈ m.resources) (hsize : r.row.size = 0 ∧ r.row.fullSize = 0) :
    r.data = [] := by
  have hfull : r.row.fullSize.toNat = r.data.length :=
    UInt32.toNat_ofNat_of_lt (m.data_fits r hr).2
  rw [hsize.2] at hfull
  exact List.length_eq_zero_iff.mp hfull.symm

theorem Registered.content_eq (hs : m.Registered data pos s) (h : Holds data pos m.bytes)
    (hpos : pos < 0x8000000000000000) (hr : r ∈ m.resources) :
    Payload.content s r.row.entry = some r.data.toByteArray := by
  unfold Payload.content
  rw [hs.archive_eq]
  change (if r.row.size = 0 ∧ r.row.fullSize = 0 then _ else _) = _
  split
  · next hsize =>
    rw [data_eq_nil hr hsize]
    rfl
  · have hstored : Payload.storedOf s (m.archiveAt pos) r.row.entry r.row.offset.toInt32 = _ :=
      hs.storedOf_eq h hpos hr
    rw [hstored, Option.bind_some]
    exact hs.expanded_eq hr

theorem Registered.yields_loadId (hs : m.Registered data pos s) (h : Holds data pos m.bytes)
    (hpos : pos < 0x8000000000000000) (hr : r ∈ m.resources) :
    Step.Yields (Payload.loadId r.id : Step ε _) s (some r.data.toByteArray) := by
  have hload := Payload.yields_loadId (ε := ε) r.id s
  rw [hs.find?_eq hr, Option.bind_some, hs.content_eq h hpos hr] at hload
  exact hload

variable (m)

theorem locate_start (h : Holds s.cursor.data 0 m.bytes) (search : Bool) :
    locate search s = .ok 0 s := by
  have hfits := h.append_left.fits
  rw [ArchiveLayout.length_header, Nat.zero_add] at hfits
  have hmagic : isMagicAt s.cursor.data 0 = true := by
    rw [isMagicAt, h.append_left.append_left.octets_extract (by simp), magicOrder?_magic]
    rfl
  exact locate_of_start hfits hmagic search

theorem readMap_eq (h : Holds s.cursor.data pos m.bytes) (horder : s.cursor.order = m.order)
    (hresources : s.resources = {}) (hcompressions : s.compressions = {}) :
    ∃ t, Movie.readMap (m.blockAt pos) s = .ok (m.versioned (m.blockAt pos)) t ∧
      m.Registered s.cursor.data pos t := by
  obtain ⟨t, hread, ht⟩ := m.read_eq (ε := Halt) h horder hresources hcompressions
  have hcodec : (m.blockAt pos).format.codec.isArchive = true := m.is_archive
  refine ⟨_, ?_, ht⟩
  unfold Movie.readMap
  rw [if_pos hcodec, bind_ok hread]
  rfl

end ArchiveMovie

/-- A written archive reads back. Its map is read to the end and tells the versions, and each
resource is then loaded by its id; so it is after the whole movie is read. -/
theorem ArchiveMovie.loadId_archived {ε : Type} (m : ArchiveMovie) (fileName : String) :
    let s := Session.ofBytes fileName m.bytes.toByteArray
    ∃ header t u,
      readBlock 0 s = .ok header t ∧
      (Archive.read header : Step ε _) t = .ok (.ok (m.archiveAt 0), m.versioned header) u ∧
      (∀ r ∈ m.resources, ∃ v,
        (Payload.loadId r.id : Step ε _) { u with archive := some (m.archiveAt 0) } =
          .ok (some r.data.toByteArray) v) ∧
      ∀ options, ∃ movie w,
        Movie.readFrom options s = .ok movie w ∧
        movie.archive = some (m.archiveAt 0) ∧ movie.block = m.versioned header ∧
        movie.resources = m.rows.map (·.entry) ∧
        ∀ r ∈ m.resources, ∃ v, (Payload.loadId r.id : Step ε _) w =
          .ok (some r.data.toByteArray) v := by
  intro s
  have h : Holds s.cursor.data 0 m.bytes := Holds.whole m.bytes
  have hload {w : Session} (hw : m.Registered s.cursor.data 0 w) :
      ∀ r ∈ m.resources, ∃ v, (Payload.loadId r.id : Step ε _) w =
        .ok (some r.data.toByteArray) v := by
    intro r hr
    obtain ⟨v, hv, _⟩ := hw.yields_loadId (ε := ε) h (by decide) hr
    exact ⟨v, hv⟩
  obtain ⟨notes, hblock⟩ := m.readBlock_eq h
  obtain ⟨u, hread, hu⟩ := m.read_eq (ε := ε)
    (s := { s with cursor := ⟨s.cursor.data, 0 + 12, m.order⟩, notes }) h rfl rfl rfl
  refine ⟨m.blockAt 0, _, u, hblock, hread, hload hu, ?_⟩
  intro options
  -- the whole reader starts from the same session, but takes a note before the map
  obtain ⟨notes', hheader⟩ := m.readBlock_eq (s := { s.reset with offset := 0 }) h
  obtain ⟨t, hmap, ht⟩ := m.readMap_eq
    (s := { s.reset with
      cursor := ⟨s.cursor.data, 0 + 12, m.order⟩
      notes := notes' ++ [.containerFound fileName 0 m.codec m.declaredSize] })
    h rfl rfl rfl
  obtain ⟨movie, w, hmovie, hkeeps, -, hversions, hrows, -, hstate⟩ :=
    Movie.readFrom_of_readMap (m.locate_start (s := s.reset) h options.search) hheader hmap
  rw [ht.archive_eq] at hstate
  rw [ht.resources_eq, m.entries_container] at hrows
  exact ⟨movie, w, hmovie, hstate, hversions, hrows, hload (ht.keeps hkeeps)⟩

def ArchiveLayout.packed (m : ArchiveLayout) : ArchiveLayout :=
  let m := { m with
    schemeStream := Inflate.plainStream m.schemeTable
    segmentStream := Inflate.plainStream m.segment }
  { m with mapMode := 1, mapStream := Inflate.plainStream m.mapTable }

/-- Two resources in the initial load segment, one of them compressed and the other empty, and one
in the body under a scheme that is not listed. -/
def smallLayout : ArchiveLayout :=
  ArchiveLayout.packed
    { order := .little
      codec := ⟨0x4647444D⟩
      declaredSize := 0
      version := 0x501
      mapVersion := 1
      archiveVersion := 0x742
      versionText := [0x38, 0x2E, 0x35]
      schemes := [⟨Identifier.zlib.bytes .little, "zlib"⟩, ⟨Identifier.null.bytes .little, "none"⟩]
      schemeStream := []
      unused := (1, 0)
      early := [⟨3, .script, [1, 2, 3], Inflate.plainStream [1, 2, 3], 0, .segment⟩]
      late := [⟨-7, .names, [], [], 1, .segment⟩, ⟨300, .castMember, [9, 8], [9, 8], 5, .body 31⟩]
      mapMode := 1
      mapStream := []
      segmentOffset := 0
      segmentCompression := 0
      segmentTag := ⟨0x494C5320⟩
      segmentHeader := 0
      segmentStream := []
      body := [9, 8] }

def smallArchive : ArchiveMovie where
  toArchiveLayout := smallLayout
  is_archive := by decide
  text_fits := by decide
  schemes_fit := by decide
  length_identifier := by decide
  name_ends := by decide
  schemes_inflate := inflates_plainStream (by decide)
  map_inflates := inflates_plainStream (by decide)
  segment_inflates := inflates_plainStream (by decide)
  id_distinct := by decide
  id_ne := by decide
  data_stored := by
    intro r hr
    rcases List.mem_cons.mp hr with rfl | hr
    · exact inflates_plainStream (by decide)
    · rcases List.mem_cons.mp hr with rfl | hr
      · rfl
      · cases List.mem_singleton.mp hr
        rfl
  data_placed := by
    intro r hr offset hplace
    rcases List.mem_cons.mp hr with rfl | hr
    · cases hplace
    · rcases List.mem_cons.mp hr with rfl | hr
      · cases hplace
      · cases List.mem_singleton.mp hr
        cases hplace
        exact ⟨by decide, Inflate.plainStream smallLayout.segment, [], rfl, rfl⟩
  parts_fit := by decide
  data_fits := by decide

theorem loadId_smallArchive :
    ∃ movie w,
      Movie.readFrom {} (.ofBytes "small.dcr" smallArchive.bytes.toByteArray) = .ok movie w ∧
      (∃ v, (Payload.loadId 3 : Step Halt _) w = .ok (some [1, 2, 3].toByteArray) v) ∧
      (∃ v, (Payload.loadId (-7) : Step Halt _) w = .ok (some [].toByteArray) v) ∧
      ∃ v, (Payload.loadId 300 : Step Halt _) w = .ok (some [9, 8].toByteArray) v := by
  obtain ⟨_, _, _, -, -, -, hmovie⟩ := smallArchive.loadId_archived (ε := Halt) "small.dcr"
  obtain ⟨movie, w, hread, -, -, -, hload⟩ := hmovie {}
  refine ⟨movie, w, hread, ?_, ?_, ?_⟩
  · exact hload _ List.mem_cons_self
  · exact hload _ (List.mem_cons_of_mem _ List.mem_cons_self)
  · exact hload _ (List.mem_cons_of_mem _ (List.mem_cons_of_mem _ List.mem_cons_self))

end Shockwave
