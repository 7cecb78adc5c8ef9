import Shockwave.Proofs.ArchiveTables
import Shockwave.Proofs.Opening

/-!
Reading the map of a written archive, part after part. All but the rows, the schemes and the notes
of a session stay as they are, so a session is followed by the position of its cursor.
-/
namespace Shockwave

theorem Decode.counted_eq {c : Cursor} {length : UInt8} (h : Holds c.data c.pos [length]) :
    counted c = latin1 length.toNat { c with pos := c.pos + 1 } := by
  have hfits : c.pos + 1 ≤ c.data.size := h.fits
  unfold counted
  rw [bind_ok (require_ok hfits), bind_ok (u8_ok h)]

theorem Decode.counted_ok {data : ByteArray} {pos : Nat} {order : ByteOrder} {text : List UInt8}
    (h : Holds data pos (UInt8.ofNat text.length :: text)) (hfits : text.length < 256) :
    counted ⟨data, pos, order⟩ =
      .ok (Latin1.decode text) ⟨data, pos + (text.length + 1), order⟩ := by
  have hsplit : Holds data pos ([UInt8.ofNat text.length] ++ text) := h
  have hcount : (UInt8.ofNat text.length).toNat = text.length := UInt8.toNat_ofNat_of_lt hfits
  have htext : Holds data (pos + 1) text := hsplit.append_right
  rw [counted_eq hsplit.append_left, hcount, latin1_ok htext, Nat.add_comm text.length 1,
    ← Nat.add_assoc]

theorem Decode.inflated_ok {c d : Cursor} {n : Nat} {stream data : ByteArray}
    (hstream : Decode.bytes n c = .ok stream d) (hdata : Inflate.inflate stream = .ok data) :
    inflated n c = .ok data d := by
  unfold inflated
  rw [bind_ok hstream, hdata]
  rfl

namespace Archive

variable {s : Session} {pos : Nat}

theorem readAs_ok {α : Type} {read : Decode α} {a : α} {stop : Nat}
    (h : read ⟨s.cursor.data, pos, s.cursor.order⟩ =
      .ok a ⟨s.cursor.data, stop, s.cursor.order⟩) :
    readAs read (s.movedTo pos) = .ok a (s.movedTo stop) :=
  Step.readOr_ok h

theorem readVarint_ok {n : UInt32} (h : Holds s.cursor.data pos (Varint.written n)) :
    readAs Decode.varint (s.movedTo pos) =
      .ok n (s.movedTo (pos + (Varint.written n).length)) :=
  readAs_ok (Decode.varint_ok h)

theorem readBytes_ok {bytes : List UInt8} {n : Nat} (h : Holds s.cursor.data pos bytes)
    (hn : bytes.length = n) :
    readAs (Decode.bytes n) (s.movedTo pos) = .ok bytes.toByteArray (s.movedTo (pos + n)) :=
  readAs_ok (Decode.bytes_ok (c := ⟨s.cursor.data, pos, s.cursor.order⟩) h hn)

theorem readInflated_ok {stream data : List UInt8} {n : Nat}
    (h : Holds s.cursor.data pos stream) (hn : stream.length = n)
    (hinflates : Inflates stream data) :
    readAs (Decode.inflated n) (s.movedTo pos) =
      .ok data.toByteArray (s.movedTo (pos + n)) := by
  have hbytes := Decode.bytes_ok (c := ⟨s.cursor.data, pos, s.cursor.order⟩) h hn
  exact readAs_ok (Decode.inflated_ok hbytes hinflates)

theorem expect_ok {tag : Tag} (h : Holds s.cursor.data pos (tag.written s.cursor.order)) :
    expect tag (s.movedTo pos) = .ok () (s.movedTo (pos + 4)) := by
  unfold expect
  rw [bind_ok (readAs_ok (Decode.tag_ok (c := ⟨s.cursor.data, pos, s.cursor.order⟩) h)),
    if_neg (by simp)]
  rfl

theorem inSession_ok {α : Type} {step : Step Halt α} {a : α} {t : Session} {block : Block}
    (h : step s = .ok a t) :
    inSession step { session := s, block } = .ok a { session := t, block } := by
  unfold inSession
  rw [h]

theorem ite_bind {α β : Type} {condition : Prop} [Decidable condition]
    (yes no : EStateM Halt Opening α) (rest : α → EStateM Halt Opening β) :
    (if condition then yes else no) >>= rest =
      if condition then yes >>= rest else no >>= rest := by
  split <;> rfl

def readVersions (version : UInt32) : EStateM Halt Opening Unit := do
  if 0x401 ≤ version then
    setMapVersion (← inSession (readAs Decode.varint))
    setArchiveVersion (← inSession (readAs Decode.varint))

def readVersionText (version : UInt32) : EStateM Halt Opening (Option String) :=
  if 0x501 ≤ version then some <$> inSession (readAs Decode.counted) else pure none

def closeVersion (start length : Nat) : EStateM Halt Opening Unit := do
  let pos := (← get).session.cursor.pos
  if pos ≠ start + length then
    inSession (Step.note (.versionLength length (pos - start)))
    inSession (readAs (Decode.seek (start + length)))

theorem readVersion_eq_steps :
    readVersion = do
      inSession (expect .version)
      let length := (← inSession (readAs Decode.varint)).toNat
      let start := (← get).session.cursor.pos
      let version ← inSession (readAs Decode.varint)
      readVersions version
      let text ← readVersionText version
      closeVersion start length
      return (version, text) := by
  simp only [readVersion, readVersions, readVersionText, closeVersion, ite_bind, bind_assoc,
    pure_bind]

theorem closeVersion_ok {start length : Nat} (block : Block) :
    closeVersion start length { session := s.movedTo (start + length), block } =
      .ok () { session := s.movedTo (start + length), block } := by
  unfold closeVersion
  rw [get_bind, if_neg (by simp)]
  rfl

def readWhole (start : Nat) : EStateM Halt Opening Archive := do
  inSession (readAs (Decode.seek start))
  let (version, text) ← readVersion
  inSession (readTables version text)

theorem read_eq_whole {ε : Type} (block : Block) (s : Session) :
    (read block : Step ε _) s =
      match readWhole block.start { session := s, block } with
      | .ok archive o => .ok (.ok archive, o.block) o.session
      | .error halt o => .ok (.error halt, o.block) o.session :=
  rfl

end Archive

namespace ArchiveLayout

variable (m : ArchiveLayout)

def versionText? : Option String :=
  if 0x501 ≤ m.version then some (Latin1.decode m.versionText) else none

def versioned (block : Block) : Block :=
  if 0x401 ≤ m.version then
    { block with format := { block.format with
        mapVersion := m.mapVersion, archiveVersion := m.archiveVersion } }
  else block

def registry : Registry := (Scheme.descriptors 0 m.schemes).foldl Registry.insert {}

theorem kind?_registry (index : UInt32) : m.registry.kind? index.toNat = m.kind? index := by
  rw [registry, Scheme.kind?_descriptors]
  simp [kind?, Registry.kind?, Registry.find?]

def inlined : List ArchivedResource := m.resources.filter (·.isInline)

def container : Container :=
  Container.setSegments { entries := m.rows.map (·.entry) } m.inlined

theorem mem_rows {r : ArchivedResource} (h : r ∈ m.resources) : r.row ∈ m.rows := by
  rcases List.mem_append.mp h with hr | hr
  · exact List.mem_append_left _ (List.mem_map_of_mem hr)
  · exact List.mem_append_right _ (List.mem_cons_of_mem _ (List.mem_map_of_mem hr))

theorem segmentRow_mem_rows : m.segmentRow ∈ m.rows :=
  List.mem_append_right _ List.mem_cons_self

theorem length_rows_le : m.rows.length ≤ m.mapTable.length := by
  have := length_le_length_flatMap (ArchiveRow.length_written_pos m.order) m.rows
  simp only [mapTable, List.length_append]
  omega

end ArchiveLayout

namespace ArchiveMovie

variable (m : ArchiveMovie)

theorem schemeStream_fits : m.schemeStream.length < 0x100000000 := m.parts_fit _ (by simp)

theorem mapPart_fits : m.mapPart.length < 0x100000000 := m.parts_fit _ (by simp)

theorem mapTable_fits : m.mapTable.length < 0x100000000 := m.parts_fit _ (by simp)

theorem segmentStream_fits : m.segmentStream.length < 0x100000000 := m.parts_fit _ (by simp)

theorem segment_fits : m.segment.length < 0x100000000 := m.parts_fit _ (by simp)

theorem versionRecord_fits : m.versionRecord.length < 0x100000000 := by
  have htext := m.text_fits
  have hversion := Varint.length_written_le m.version
  have hmap := Varint.length_written_le m.mapVersion
  have harchive := Varint.length_written_le m.archiveVersion
  unfold ArchiveLayout.versionRecord ArchiveLayout.versionNumbers ArchiveLayout.textWritten
  split <;> split <;> simp only [List.length_append, List.length_cons, List.length_nil] <;> omega

theorem nodup_ids : ((m.rows.map (·.entry)).map (·.id)).Nodup := by
  have hids : (m.rows.map (·.entry)).map (·.id) =
      m.early.map (·.id) ++ Archive.initialSegment :: m.late.map (·.id) := by
    simp [ArchiveLayout.rows, Function.comp_def, ArchiveRow.entry, ArchivedResource.row,
      ArchiveLayout.segmentRow]
  have hdistinct := m.id_distinct
  have hnew : Archive.initialSegment ∉ m.resources.map (·.id) := by
    intro hmem
    obtain ⟨r, hr, hid⟩ := List.mem_map.mp hmem
    exact m.id_ne r hr hid
  rw [hids, List.perm_middle.nodup_iff, List.nodup_cons]
  rw [ArchiveLayout.resources, List.map_append] at hdistinct hnew
  exact ⟨hnew, hdistinct⟩

theorem find?_row {row : ArchiveRow} (h : row ∈ m.rows) (segments : List (Int32 × ByteArray)) :
    Container.find? { entries := m.rows.map (·.entry), segments } row.id = some row.entry :=
  Container.find?_eq_some (e := row.entry) m.nodup_ids (List.mem_map_of_mem h)

section

variable {s : Session} {pos : Nat}

theorem readVersions_eq {block : Block} (h : Holds s.cursor.data pos m.versionNumbers) :
    Archive.readVersions m.version { session := s.movedTo pos, block } =
      .ok () { session := s.movedTo (pos + m.versionNumbers.length)
               block := m.versioned block } := by
  unfold ArchiveLayout.versionNumbers at *
  unfold Archive.readVersions ArchiveLayout.versioned
  by_cases hversion : 0x401 ≤ m.version
  · simp only [if_pos hversion] at *
    rw [bind_ok (Archive.inSession_ok (Archive.readVarint_ok h.append_left)),
      Archive.setMapVersion, modify_bind,
      bind_ok (Archive.inSession_ok (Archive.readVarint_ok h.append_right)), List.length_append,
      ← Nat.add_assoc]
    rfl
  · simp only [if_neg hversion]
    rfl

theorem readVersionText_eq {block : Block} (h : Holds s.cursor.data pos m.textWritten) :
    Archive.readVersionText m.version { session := s.movedTo pos, block } =
      .ok m.versionText? { session := s.movedTo (pos + m.textWritten.length), block } := by
  unfold ArchiveLayout.textWritten at *
  unfold Archive.readVersionText ArchiveLayout.versionText?
  by_cases hversion : 0x501 ≤ m.version
  · simp only [if_pos hversion] at *
    rw [map_eq_pure_bind, bind_ok (Archive.inSession_ok
      (Archive.readAs_ok (Decode.counted_ok h m.text_fits))), List.length_cons]
    rfl
  · simp only [if_neg hversion]
    rfl

theorem readVersion_eq {block : Block} (horder : s.cursor.order = m.order)
    (h : Holds s.cursor.data pos (archivePart m.order .version m.versionRecord)) :
    Archive.readVersion { session := s.movedTo pos, block } =
      .ok (m.version, m.versionText?)
        { session := s.movedTo (pos + (archivePart m.order .version m.versionRecord).length)
          block := m.versioned block } := by
  have hlength : (UInt32.ofNat m.versionRecord.length).toNat = m.versionRecord.length :=
    UInt32.toNat_ofNat_of_lt m.versionRecord_fits
  rw [← horder] at h ⊢
  have hstart := h.append_right
  have hrecord := hstart.append_right
  have hmore := hrecord.append_right
  rw [Tag.length_written] at hstart hrecord hmore
  have hstop : pos + 4 + (Varint.written (UInt32.ofNat m.versionRecord.length)).length +
      (Varint.written m.version).length + m.versionNumbers.length + m.textWritten.length =
      pos + 4 + (Varint.written (UInt32.ofNat m.versionRecord.length)).length +
        m.versionRecord.length := by
    simp only [ArchiveLayout.versionRecord, List.length_append]
    omega
  rw [Archive.readVersion_eq_steps,
    bind_ok (Archive.inSession_ok (Archive.expect_ok h.append_left)),
    bind_ok (Archive.inSession_ok (Archive.readVarint_ok hstart.append_left)), hlength, get_bind,
    bind_ok (Archive.inSession_ok (Archive.readVarint_ok hrecord.append_left)),
    bind_ok (m.readVersions_eq hmore.append_left),
    bind_ok (m.readVersionText_eq hmore.append_right), hstop, length_archivePart,
    List.length_append, ← Nat.add_assoc, ← Nat.add_assoc]
  exact bind_ok (Archive.closeVersion_ok _)

theorem readDescriptors_eq (hcompressions : s.compressions = {}) :
    ∃ notes, Archive.readDescriptors Archive.utf8Name m.schemeTable.toByteArray m.order s =
      .ok () { s with compressions := m.registry, notes } := by
  obtain ⟨rows, hcount, hidentifiers, hnames, hdescribed⟩ :=
    Scheme.exists_rows m.length_identifier m.name_ends
  have htable : m.schemeTable = DescriptorRow.table m.order rows ++ [] := by
    rw [List.append_nil, DescriptorRow.table, hcount, hidentifiers, hnames,
      ArchiveLayout.schemeTable]
  have hfits : rows.length < 0x10000 := hcount ▸ m.schemes_fit
  rw [htable, ArchiveLayout.registry, ← hdescribed, ← hcompressions]
  exact Archive.readDescriptors_rows Archive.readsNames_utf8Name m.order hfits [] s

theorem readMapBody_eq
    (h : Holds s.cursor.data pos
      (Varint.written (UInt32.ofNat m.mapPart.length) ++ m.mapPart)) :
    Archive.readMapBody (s.movedTo pos) =
      .ok m.mapTable.toByteArray (s.movedTo
        (pos + (Varint.written (UInt32.ofNat m.mapPart.length) ++ m.mapPart).length)) := by
  have hlength : (UInt32.ofNat m.mapPart.length).toNat = m.mapPart.length :=
    UInt32.toNat_ofNat_of_lt m.mapPart_fits
  have hfull : (UInt32.ofNat m.mapTable.length).toNat = m.mapTable.length :=
    UInt32.toNat_ofNat_of_lt m.mapTable_fits
  have hpart := h.append_right
  have hmore := hpart.append_right
  have hrows := m.map_inflates
  have hstored : m.mapStream.length =
      pos + (Varint.written (UInt32.ofNat m.mapPart.length)).length + m.mapPart.length -
        (pos + (Varint.written (UInt32.ofNat m.mapPart.length)).length +
          (Varint.written m.mapMode).length +
          (Varint.written (UInt32.ofNat m.mapTable.length)).length) := by
    simp only [ArchiveLayout.mapPart, List.length_append]
    omega
  unfold Archive.readMapBody
  rw [bind_ok (Archive.readVarint_ok h.append_left), get_bind,
    bind_ok (Archive.readVarint_ok hpart.append_left),
    bind_ok (Archive.readVarint_ok hmore.append_left), get_bind, hlength, hfull]
  simp only [Session.pos_movedTo, ← hstored]
  have hstop : pos + (Varint.written (UInt32.ofNat m.mapPart.length)).length +
      (Varint.written m.mapMode).length + (Varint.written (UInt32.ofNat m.mapTable.length)).length +
      m.mapStream.length =
      pos + (Varint.written (UInt32.ofNat m.mapPart.length) ++ m.mapPart).length := by
    simp only [ArchiveLayout.mapPart, List.length_append]
    omega
  rw [bind_ok (Archive.readBytes_ok hmore.append_right rfl), hstop]
  by_cases hmode : m.mapMode = 0
  · rw [if_pos hmode] at hrows ⊢
    rw [pure_bind, hrows, if_neg (by simp)]
    rfl
  · rw [if_neg hmode] at hrows ⊢
    rw [hrows.limited, Archive.require, pure_bind, if_neg (by simp)]
    rfl

theorem readSchemePart_eq (horder : s.cursor.order = m.order) (hcompressions : s.compressions = {})
    (h : Holds s.cursor.data pos (archivePart m.order .descriptors m.schemeStream)) :
    ∃ notes, Archive.readSchemePart m.order (s.movedTo pos) =
      .ok () { s.movedTo (pos + (archivePart m.order .descriptors m.schemeStream).length) with
        compressions := m.registry, notes } := by
  have hlength : (UInt32.ofNat m.schemeStream.length).toNat = m.schemeStream.length :=
    UInt32.toNat_ofNat_of_lt m.schemeStream_fits
  have hcontent := h.append_right
  rw [Tag.length_written] at hcontent
  have htag := h.append_left
  rw [← horder] at htag
  unfold Archive.readSchemePart
  rw [bind_ok (Archive.expect_ok htag), bind_ok (Archive.readVarint_ok hcontent.append_left),
    hlength, bind_ok (Archive.readInflated_ok hcontent.append_right rfl m.schemes_inflate),
    length_archivePart, List.length_append, ← Nat.add_assoc, ← Nat.add_assoc]
  exact m.readDescriptors_eq hcompressions

theorem readMapPart_eq (horder : s.cursor.order = m.order) (hresources : s.resources = {})
    (h : Holds s.cursor.data pos (archivePart m.order .archiveMap m.mapPart)) :
    ∃ notes, Archive.readMapPart m.order (s.movedTo pos) =
      .ok () { s.movedTo (pos + (archivePart m.order .archiveMap m.mapPart).length) with
        resources := { entries := m.rows.map (·.entry) }, notes } := by
  have hrows : m.rows.length < 0x100000000 :=
    Nat.lt_of_le_of_lt m.length_rows_le m.mapTable_fits
  have hregistered : (m.rows.map (·.entry)).foldl Container.insert s.resources =
      { entries := m.rows.map (·.entry) } := by
    rw [hresources, Container.foldl_insert m.nodup_ids]
    rfl
  have hcontent := h.append_right
  rw [Tag.length_written] at hcontent
  have htag := h.append_left
  rw [← horder] at htag
  unfold Archive.readMapPart
  rw [bind_ok (Archive.expect_ok htag), bind_ok (m.readMapBody_eq hcontent), length_archivePart,
    ← Nat.add_assoc, ← hregistered]
  exact Archive.readRows_ok m.toArchiveLayout hrows

theorem readSegmentPart_eq (text : Option String) (horder : s.cursor.order = m.order)
    (hresources : s.resources = { entries := m.rows.map (·.entry) })
    (h : Holds s.cursor.data pos (Tag.segments.written m.order ++
      (Varint.written m.segmentHeader ++ (m.segmentStream ++ m.body)))) :
    ∃ notes, Archive.readSegmentPart m.version text m.order (s.movedTo pos) =
      .ok { version := m.version, versionText := text
            bodyOffset := pos + 4 + (Varint.written m.segmentHeader).length }
        { s.movedTo (pos + 4 + (Varint.written m.segmentHeader).length +
            m.segmentStream.length) with
          resources := m.container, notes } := by
  have hsize : m.segmentRow.entry.size.toNat = m.segmentStream.length :=
    UInt32.toNat_ofNat_of_lt m.segmentStream_fits
  have hfull : (UInt32.ofNat m.segment.length).toNat = m.segment.length :=
    UInt32.toNat_ofNat_of_lt m.segment_fits
  have hfound : s.resources.find? Archive.initialSegment = some m.segmentRow.entry := by
    rw [hresources]
    exact m.find?_row m.segmentRow_mem_rows []
  have hcontent := h.append_right
  rw [Tag.length_written] at hcontent
  have htag := h.append_left
  rw [← horder] at htag
  have hrow : ∀ r ∈ m.inlined, s.resources.find? r.id = some r.row.entry := by
    intro r hr
    rw [hresources]
    exact m.find?_row (m.mem_rows (List.mem_filter.mp hr).1) []
  have hfits : ∀ r ∈ m.inlined, r.stored.length < 0x100000000 := fun r hr =>
    (m.data_fits r (List.mem_filter.mp hr).1).1
  obtain ⟨notes, hstore⟩ := Archive.readSegments_ok m.order (s := s.movedTo (pos + 4 +
    (Varint.written m.segmentHeader).length + m.segmentStream.length)) hrow hfits
  rw [Session.resources_movedTo, hresources] at hstore
  unfold Archive.readSegmentPart
  rw [bind_ok (Archive.expect_ok htag), bind_ok (Archive.readVarint_ok hcontent.append_left),
    get_bind, get_bind, Session.resources_movedTo, hfound]
  dsimp only
  rw [hsize, bind_ok (Archive.readBytes_ok hcontent.append_right.append_left rfl)]
  dsimp only [ArchiveRow.entry, ArchiveLayout.segmentRow]
  rw [hfull, m.segment_inflates.limited, Archive.require, pure_bind]
  exact ⟨notes, bind_ok hstore⟩

/-- What follows the version record registers the schemes, the rows and the initial load segment. -/
theorem readTables_eq (text : Option String) (horder : s.cursor.order = m.order)
    (hresources : s.resources = {}) (hcompressions : s.compressions = {})
    (h : Holds s.cursor.data pos
      (archivePart m.order .descriptors m.schemeStream ++
        (archivePart m.order .archiveMap m.mapPart ++
        (Tag.segments.written m.order ++
        (Varint.written m.segmentHeader ++ (m.segmentStream ++ m.body)))))) :
    ∃ place notes, Archive.readTables m.version text (s.movedTo pos) =
      .ok { version := m.version, versionText := text
            bodyOffset := pos + (archivePart m.order .descriptors m.schemeStream).length +
              (archivePart m.order .archiveMap m.mapPart).length + 4 +
              (Varint.written m.segmentHeader).length }
        { s.movedTo place with
          resources := m.container, compressions := m.registry, notes } := by
  obtain ⟨notes₁, hschemes⟩ := m.readSchemePart_eq horder hcompressions h.append_left
  obtain ⟨notes₂, hmap⟩ := m.readMapPart_eq
    (s := { s with compressions := m.registry, notes := notes₁ }) horder hresources
    h.append_right.append_left
  obtain ⟨notes₃, hsegment⟩ := m.readSegmentPart_eq text
    (s := { s with
      resources := { entries := m.rows.map (·.entry) }, compressions := m.registry
      notes := notes₂ })
    horder rfl h.append_right.append_right
  rw [Archive.readTables, get_bind, Session.order_movedTo, horder]
  exact ⟨_, notes₃, Eq.trans (bind_ok hschemes) (Eq.trans (bind_ok hmap) hsegment)⟩

end

end ArchiveMovie
end Shockwave
