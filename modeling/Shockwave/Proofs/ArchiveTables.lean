import Shockwave.Proofs.DescriptorTables
import Shockwave.Proofs.LimitedInflation
import Shockwave.Proofs.Segments

/-!
The tables of an archive, each read from the bytes it was written to: the compression schemes, the
rows of the map, and the records of the initial load segment.
-/
namespace Shockwave

theorem Holds.within {data : ByteArray} {pos start : Nat} {bytes part : List UInt8}
    (h : Holds data pos bytes) (hpart : Holds bytes.toByteArray start part) :
    Holds data (pos + start) part := by
  obtain ⟨before, after, hbytes, rfl⟩ := hpart
  rw [octets_toByteArray] at hbytes
  rw [hbytes, List.append_assoc] at h
  exact h.append_right.append_left

namespace Registry

theorem find?_place (d : Descriptor) (descriptors : List Descriptor) (index : Nat) :
    (place d descriptors).find? (·.index == index) =
      if d.index = index then some d else descriptors.find? (·.index == index) := by
  by_cases hd : d.index = index
  · rw [if_pos hd]
    induction descriptors with
    | nil => simp [place, hd]
    | cons e rest ih =>
      rw [place]
      split
      · simp [hd]
      · split
        · simp [hd]
        · next hne => rw [List.find?_cons_of_neg (by simpa [← hd] using Ne.symm hne), ih]
  · rw [if_neg hd]
    induction descriptors with
    | nil => simp [place, hd]
    | cons e rest ih =>
      rw [place]
      split
      · exact List.find?_cons_of_neg (by simpa using hd)
      · split
        · next heq => simp [hd, ← heq]
        · rw [List.find?_cons, ih, List.find?_cons]

theorem kind?_insert (registry : Registry) (d : Descriptor) (index : Nat) :
    (registry.insert d).kind? index =
      if d.index = index then some d.kind else registry.kind? index := by
  unfold kind? find? insert
  rw [find?_place]
  split <;> rfl

end Registry

namespace Scheme

def descriptors (index : Nat) : List Scheme → List Descriptor
  | [] => []
  | s :: rest => .new index s.identifier s.name :: descriptors (index + 1) rest

theorem kind?_descriptors (index : Nat) (schemes : List Scheme) (registry : Registry) (i : Nat) :
    ((descriptors index schemes).foldl Registry.insert registry).kind? i =
      ((if index ≤ i then schemes[i - index]? else none).map kind).or (registry.kind? i) := by
  induction schemes generalizing index registry with
  | nil => simp [descriptors]
  | cons s rest ih =>
    rw [descriptors, List.foldl_cons, ih, Registry.kind?_insert]
    rcases Nat.lt_trichotomy i index with hlt | rfl | hgt
    · have hne : index ≠ i := by omega
      simp [Descriptor.new, hne, Nat.not_le.mpr hlt, show ¬index + 1 ≤ i by omega]
    · rw [if_neg (Nat.not_succ_le_self i)]
      simp [Descriptor.new, kind]
    · have hne : index ≠ i := by omega
      have hsub : i - index = i - (index + 1) + 1 := by omega
      simp [Descriptor.new, hne, hsub, show index ≤ i by omega, show index + 1 ≤ i by omega]

/-- Schemes are stored as rows, and their descriptors are those of the rows. -/
theorem exists_rows {schemes : List Scheme} (hlength : ∀ s ∈ schemes, s.identifier.length = 16)
    (hname : ∀ s ∈ schemes, 0 ∉ octets s.name.toUTF8) :
    ∃ rows : List DescriptorRow, rows.length = schemes.length ∧
      rows.flatMap (·.identifier) = schemes.flatMap (·.identifier) ∧
      rows.flatMap DescriptorRow.nameWritten = schemes.flatMap nameWritten ∧
      ∀ index, DescriptorRow.described utf8Text index rows = descriptors index schemes := by
  induction schemes with
  | nil => exact ⟨[], rfl, rfl, rfl, fun _ => rfl⟩
  | cons s rest ih =>
    obtain ⟨hs, hrest⟩ := List.forall_mem_cons.mp hlength
    obtain ⟨hname, hnames⟩ := List.forall_mem_cons.mp hname
    obtain ⟨rows, hcount, hidentifiers, hwritten, hdescribed⟩ := ih hrest hnames
    have htext : utf8Text (octets s.name.toUTF8) = s.name := by
      have hbytes : (octets s.name.toUTF8).toByteArray = s.name.toUTF8 :=
        octets_injective (octets_toByteArray _)
      rw [utf8Text, hbytes, fromUTF8?_toUTF8, Option.getD_some]
    refine ⟨⟨s.identifier, octets s.name.toUTF8, hs, hname⟩ :: rows, ?_, ?_, ?_, fun index => ?_⟩
    · rw [List.length_cons, hcount, List.length_cons]
    · rw [List.flatMap_cons, hidentifiers, List.flatMap_cons]
    · rw [List.flatMap_cons, hwritten, List.flatMap_cons]
      rfl
    · rw [descriptors, ← hdescribed]
      exact congrArg (fun name => Descriptor.new index s.identifier name ::
        DescriptorRow.described utf8Text (index + 1) rows) htext

end Scheme

namespace Archive

variable {data : ByteArray} {pos : Nat} {order : ByteOrder}

theorem readRow_ok {r : ArchiveRow} (h : Holds data pos (r.written order)) :
    readRow ⟨data, pos, order⟩ = .ok r.entry ⟨data, pos + (r.written order).length, order⟩ := by
  have hoffset := h.append_right
  have hsize := hoffset.append_right
  have hfull := hsize.append_right
  have hcompression := hfull.append_right
  have htag := hcompression.append_right
  unfold readRow
  rw [bind_ok (Decode.varint_ok h.append_left), bind_ok (Decode.varint_ok hoffset.append_left),
    bind_ok (Decode.varint_ok hsize.append_left), bind_ok (Decode.varint_ok hfull.append_left),
    bind_ok (Decode.varint_ok hcompression.append_left),
    bind_ok (Decode.tag_ok (c := ⟨data, _, order⟩) htag)]
  simp [ArchiveRow.written, Nat.add_assoc]
  rfl

theorem registerRows_ok {rows : List ArchiveRow} {s : Session}
    (h : Holds data pos (rows.flatMap (ArchiveRow.written order))) :
    ∃ notes, registerRows ⟨data, pos, order⟩ rows.length s =
      .ok () { s with
        resources := (rows.map (·.entry)).foldl Container.insert s.resources, notes } := by
  induction rows generalizing pos s with
  | nil => exact ⟨s.notes, rfl⟩
  | cons r rest ih =>
    rw [List.flatMap_cons] at h
    simp only [List.length_cons, registerRows, readRow_ok h.append_left]
    exact ih h.append_right

theorem readRows_ok (m : ArchiveLayout) {s : Session} (hfits : m.rows.length < 0x100000000) :
    ∃ notes, readRows m.mapTable.toByteArray m.order s =
      .ok () { s with
        resources := (m.rows.map (·.entry)).foldl Container.insert s.resources, notes } := by
  have h := Holds.whole m.mapTable
  have hsecond := h.append_right
  have hcount := hsecond.append_right
  unfold readRows
  rw [bind_ok (Decode.varint_ok h.append_left), bind_ok (Decode.varint_ok hsecond.append_left),
    Decode.varint_ok hcount.append_left]
  dsimp only
  rw [UInt32.toNat_ofNat', Nat.mod_eq_of_lt hfits]
  exact registerRows_ok hcount.append_right

end Archive

def ArchivedResource.segmentRecord (r : ArchivedResource) : SegmentRecord := .plain r.id r.stored

theorem ArchivedResource.mapped_segmentRecord {r : ArchivedResource} {c : Container}
    (hrow : c.find? r.id = some r.row.entry) (hfits : r.stored.length < 0x100000000) :
    r.segmentRecord.Mapped c := by
  refine ⟨r.row.entry, ?_, ?_⟩
  · rw [segmentRecord, SegmentRecord.id_plain, hrow]
  · rw [row, ArchiveRow.entry, UInt32.toNat_ofNat_of_lt' hfits]
    rfl

namespace Container

def setSegments (c : Container) (resources : List ArchivedResource) : Container :=
  resources.foldl (fun c r => c.setSegment r.id r.stored.toByteArray) c

theorem setSegments_eq (c : Container) (resources : List ArchivedResource) :
    c.setSegments resources = c.keepRecords (resources.map (·.segmentRecord)) := by
  unfold setSegments keepRecords ArchivedResource.segmentRecord
  rw [List.foldl_map]
  simp only [SegmentRecord.id_plain]
  rfl

@[simp] theorem entries_setSegments (c : Container) (resources : List ArchivedResource) :
    (c.setSegments resources).entries = c.entries := by
  rw [setSegments_eq, keepRecords_eq]

theorem segment?_setSegments (c : Container) {resources : List ArchivedResource}
    (hnodup : (resources.map (·.id)).Nodup) {r : ArchivedResource} (hr : r ∈ resources) :
    (c.setSegments resources).segment? r.id = some r.stored.toByteArray := by
  obtain ⟨before, after, rfl⟩ := List.append_of_mem hr
  have hlast : r.segmentRecord.id ∉ (after.map (·.segmentRecord)).map (·.id) := by
    rw [List.map_append, List.map_cons] at hnodup
    simp only [List.map_map, Function.comp_def, ArchivedResource.segmentRecord,
      SegmentRecord.id_plain]
    exact (List.nodup_cons.mp (List.nodup_append.mp hnodup).2.1).1
  have hkeep := segment?_keepRecords c (before.map (·.segmentRecord)) hlast
  rw [setSegments_eq, List.map_append, List.map_cons]
  rwa [ArchivedResource.segmentRecord, SegmentRecord.id_plain] at hkeep

end Container

namespace Archive

theorem readSegments_ok {resources : List ArchivedResource} (order : ByteOrder) {s : Session}
    (hrow : ∀ r ∈ resources, s.resources.find? r.id = some r.row.entry)
    (hfits : ∀ r ∈ resources, r.stored.length < 0x100000000) :
    ∃ notes, readSegments (resources.flatMap ArchivedResource.record).toByteArray order s =
      .ok () { s with resources := s.resources.setSegments resources, notes } := by
  have hmapped : ∀ r ∈ resources.map (·.segmentRecord), r.Mapped s.resources := by
    intro _ hrecord
    obtain ⟨r, hr, rfl⟩ := List.mem_map.mp hrecord
    exact ArchivedResource.mapped_segmentRecord (hrow r hr) (hfits r hr)
  obtain ⟨notes, hread, -⟩ := readSegments_records order hmapped .nothing
  rw [← Container.setSegments_eq, List.append_nil, List.flatMap_map] at hread
  exact ⟨_, hread⟩

end Archive
end Shockwave
