import Shockwave.Map.Archived
import Shockwave.Proofs.Varint

/-!
The initial load segment of an archive: records that follow one another, each with the id of a
resource and as many bytes as the map says the resource has. Reading keeps the bytes of every record
up to the first place where no record follows, takes nothing from there on, and leaves a note.
-/
namespace Shockwave

/-- A record of the initial load segment. The number of its resource may have more groups than it
needs. -/
structure SegmentRecord where
  groups : List UInt8
  bytes : List UInt8
  isNumber : Varint.IsNumber groups

namespace SegmentRecord

def id (r : SegmentRecord) : Int32 := (Decode.groupValue r.groups).toInt32

def written (r : SegmentRecord) : List UInt8 := r.groups ++ r.bytes

/-- The resource is registered with the length of the record. -/
def Mapped (resources : Container) (r : SegmentRecord) : Prop :=
  ∃ e, resources.find? r.id = some e ∧ r.bytes.length = e.size.toNat

def plain (id : Int32) (bytes : List UInt8) : SegmentRecord :=
  ⟨Varint.written id.toUInt32, bytes, Varint.isNumber_written _⟩

@[simp] theorem id_plain (id : Int32) (bytes : List UInt8) : (plain id bytes).id = id := by
  rw [SegmentRecord.id, plain, Varint.groupValue_written]
  rfl

theorem length_written_pos (r : SegmentRecord) : 0 < r.written.length := by
  rw [written, List.length_append]
  exact Nat.add_pos_left (List.length_pos_iff.mpr r.isNumber.ne_nil) _

end SegmentRecord

/-- What can follow the records of a segment: nothing, or something that is no record. -/
inductive SegmentTail (resources : Container) : List UInt8 → Prop where
  | nothing : SegmentTail resources []
  | endlessId {groups : List UInt8} (hne : groups ≠ []) (hgroups : ∀ byte ∈ groups, 0x80 ≤ byte) :
      SegmentTail resources groups
  | unmapped {groups rest : List UInt8} (hnumber : Varint.IsNumber groups)
      (hfind : resources.find? (Decode.groupValue groups).toInt32 = none) :
      SegmentTail resources (groups ++ rest)
  | cut {groups rest : List UInt8} {e : Entry} (hnumber : Varint.IsNumber groups)
      (hfind : resources.find? (Decode.groupValue groups).toInt32 = some e)
      (hcut : rest.length < e.size.toNat) : SegmentTail resources (groups ++ rest)

theorem SegmentTail.setSegment {c : Container} {tail : List UInt8} (h : SegmentTail c tail)
    (id : Int32) (bytes : ByteArray) : SegmentTail (c.setSegment id bytes) tail := by
  -- Whether a tail is bad depends on the entries alone.
  cases h with
  | nothing => exact .nothing
  | endlessId hne hgroups => exact .endlessId hne hgroups
  | unmapped hnumber hfind => exact .unmapped hnumber hfind
  | cut hnumber hfind hcut => exact .cut hnumber hfind hcut

namespace Container

theorem segment?_setSegment (c : Container) (id : Int32) (bytes : ByteArray) (i : Int32) :
    (c.setSegment id bytes).segment? i = if id = i then some bytes else c.segment? i := by
  unfold segment? setSegment
  by_cases h : id = i
  · simp [h]
  · have hkeep : (fun p : Int32 × ByteArray => decide (p.1 != id ∧ p.1 == i)) = (·.1 == i) := by
      funext p
      by_cases hp : p.1 = i
      · simp [hp, Ne.symm h]
      · simp [hp]
    rw [List.find?_cons_of_neg (by simpa using h), List.find?_filter, hkeep, if_neg h]

def keepRecords (c : Container) (records : List SegmentRecord) : Container :=
  records.foldl (fun c r => c.setSegment r.id r.bytes.toByteArray) c

theorem keepRecords_eq (c : Container) (records : List SegmentRecord) :
    c.keepRecords records = { c with segments := (c.keepRecords records).segments } := by
  induction records generalizing c with
  | nil => rfl
  | cons r rest ih => exact ih _

theorem segment?_keepRecords_of_not_mem (c : Container) {records : List SegmentRecord} {id : Int32}
    (h : id ∉ records.map (·.id)) : (c.keepRecords records).segment? id = c.segment? id := by
  induction records generalizing c with
  | nil => rfl
  | cons r rest ih =>
    rw [List.map_cons, List.mem_cons, not_or] at h
    have hne : r.id ≠ id := Ne.symm h.1
    exact (ih _ h.2).trans (by rw [segment?_setSegment, if_neg hne])

/-- Of the records of one resource the last counts. -/
theorem segment?_keepRecords (c : Container) (before : List SegmentRecord) {r : SegmentRecord}
    {after : List SegmentRecord} (h : r.id ∉ after.map (·.id)) :
    (c.keepRecords (before ++ r :: after)).segment? r.id = some r.bytes.toByteArray := by
  have hsplit : c.keepRecords (before ++ r :: after) =
      ((c.keepRecords before).setSegment r.id r.bytes.toByteArray).keepRecords after := by
    unfold keepRecords
    rw [List.foldl_append, List.foldl_cons]
  rw [hsplit, segment?_keepRecords_of_not_mem _ h, segment?_setSegment, if_pos rfl]

end Container

namespace Archive

section

variable {data : ByteArray} {pos count : Nat} {order : ByteOrder} {c : Container}
  {groups : List UInt8} {e : Entry}

theorem atEnd_eq_false (h : Holds data pos groups) (hne : groups ≠ []) :
    Cursor.atEnd ⟨data, pos, order⟩ = false := by
  have hfits := h.fits
  have hlength := List.length_pos_iff.mpr hne
  apply decide_eq_false
  simp only [Cursor.size]
  omega

theorem storeSegments_record {r : SegmentRecord} (h : Holds data pos r.written)
    (hmapped : r.Mapped c) :
    storeSegments ⟨data, pos, order⟩ c (count + 1) =
      storeSegments ⟨data, pos + r.written.length, order⟩
        (c.setSegment r.id r.bytes.toByteArray) count := by
  obtain ⟨e, hfind, hlength⟩ := hmapped
  have hbytes := Decode.bytes_ok (c := ⟨data, pos + r.groups.length, order⟩) h.append_right hlength
  have hnext : pos + r.groups.length + e.size.toNat = pos + r.written.length := by
    rw [SegmentRecord.written, List.length_append, hlength, Nat.add_assoc]
  unfold SegmentRecord.id at hfind
  simp only [storeSegments, atEnd_eq_false h.append_left r.isNumber.ne_nil, Bool.false_eq_true,
    if_false, Decode.varint_groups r.isNumber h.append_left, hfind, hbytes, hnext]
  rfl

theorem storeSegments_endlessId (hne : groups ≠ []) (hgroups : ∀ byte ∈ groups, 0x80 ≤ byte)
    (h : Holds data pos groups) (hend : data.size = pos + groups.length) :
    storeSegments ⟨data, pos, order⟩ c (count + 1) =
      (c, [.segmentIdCut (.outOfRange 1 data.size data.size)]) := by
  have hrest : (octets data).drop pos = groups := by
    rw [h.drop_eq, ← hend, ← length_octets, List.drop_length, List.append_nil]
  have hmax : max pos data.size = data.size := by omega
  simp only [storeSegments, atEnd_eq_false h hne, Bool.false_eq_true, if_false,
    Decode.varint_error (hrest ▸ hgroups), hmax]

theorem storeSegments_unmapped (hnumber : Varint.IsNumber groups) (h : Holds data pos groups)
    (hfind : c.find? (Decode.groupValue groups).toInt32 = none) :
    storeSegments ⟨data, pos, order⟩ c (count + 1) =
      (c, [.segmentUnmapped (Decode.groupValue groups).toInt32]) := by
  simp only [storeSegments, atEnd_eq_false h hnumber.ne_nil, Bool.false_eq_true, if_false,
    Decode.varint_groups hnumber h, hfind]

theorem storeSegments_cut (hnumber : Varint.IsNumber groups) (h : Holds data pos groups)
    (hfind : c.find? (Decode.groupValue groups).toInt32 = some e)
    (hcut : data.size < pos + groups.length + e.size.toNat) :
    storeSegments ⟨data, pos, order⟩ c (count + 1) =
      (c, [.segmentCut (Decode.groupValue groups).toInt32
        (.outOfRange e.size.toNat (pos + groups.length) data.size)]) := by
  have hbytes : Decode.bytes e.size.toNat ⟨data, pos + groups.length, order⟩ =
      .error (.outOfRange e.size.toNat (pos + groups.length) data.size)
        ⟨data, pos + groups.length, order⟩ :=
    bind_error (Decode.require_error (by have := h.fits; dsimp only; omega))
  simp only [storeSegments, atEnd_eq_false h hnumber.ne_nil, Bool.false_eq_true, if_false,
    Decode.varint_groups hnumber h, hfind, hbytes]

theorem storeSegments_tail {tail : List UInt8} (htail : SegmentTail c tail)
    (h : Holds data pos tail) (hend : data.size = pos + tail.length)
    (hcount : tail.length ≤ count) :
    ∃ notes, storeSegments ⟨data, pos, order⟩ c count = (c, notes) ∧
      notes.length = if tail = [] then 0 else 1 := by
  cases count with
  | zero =>
    have hnil : tail = [] := List.eq_nil_of_length_eq_zero (Nat.le_zero.mp hcount)
    exact ⟨[], rfl, (if_pos hnil).symm⟩
  | succ count =>
    cases htail with
    | nothing =>
      have hstop : Cursor.atEnd ⟨data, pos, order⟩ = true := by
        simp [Cursor.atEnd, Cursor.size, hend]
      exact ⟨[], by rw [storeSegments, if_pos hstop], rfl⟩
    | endlessId hne hgroups =>
      exact ⟨_, storeSegments_endlessId hne hgroups h hend, (if_neg hne).symm⟩
    | unmapped hnumber hfind =>
      have hne := List.append_ne_nil_of_left_ne_nil hnumber.ne_nil
      exact ⟨_, storeSegments_unmapped hnumber h.append_left hfind, (if_neg (hne _)).symm⟩
    | cut hnumber hfind hcut =>
      have hne := List.append_ne_nil_of_left_ne_nil hnumber.ne_nil
      rw [List.length_append] at hend
      exact ⟨_, storeSegments_cut hnumber h.append_left hfind (by omega), (if_neg (hne _)).symm⟩

theorem storeSegments_records (order : ByteOrder) {records : List SegmentRecord}
    {tail : List UInt8} (hmapped : ∀ r ∈ records, r.Mapped c) (htail : SegmentTail c tail)
    (h : Holds data pos (records.flatMap SegmentRecord.written ++ tail))
    (hend : data.size = pos + (records.flatMap SegmentRecord.written ++ tail).length)
    (hcount : records.length + tail.length ≤ count) :
    ∃ notes, storeSegments ⟨data, pos, order⟩ c count = (c.keepRecords records, notes) ∧
      notes.length = if tail = [] then 0 else 1 := by
  induction records generalizing pos count c with
  | nil => exact storeSegments_tail htail h hend (by simpa using hcount)
  | cons r rest ih =>
    cases count with
    | zero => simp at hcount
    | succ count =>
      rw [List.flatMap_cons, List.append_assoc] at h hend
      rw [storeSegments_record h.append_left (hmapped r List.mem_cons_self)]
      refine ih ?_ (htail.setSegment _ _) h.append_right ?_ ?_
      · intro t ht
        exact hmapped t (List.mem_cons_of_mem _ ht)
      · rw [hend, List.length_append, Nat.add_assoc]
      · simp only [List.length_cons] at hcount
        omega

end

theorem readSegments_records {records : List SegmentRecord} {tail : List UInt8} (order : ByteOrder)
    {s : Session} (hmapped : ∀ r ∈ records, r.Mapped s.resources)
    (htail : SegmentTail s.resources tail) :
    ∃ notes, readSegments (records.flatMap SegmentRecord.written ++ tail).toByteArray order s =
        .ok () { s with
          resources := s.resources.keepRecords records, notes := s.notes ++ notes } ∧
      notes.length = if tail = [] then 0 else 1 := by
  have hcount : records.length + tail.length ≤
      (records.flatMap SegmentRecord.written ++ tail).toByteArray.size := by
    have := length_le_length_flatMap SegmentRecord.length_written_pos records
    simpa using this
  obtain ⟨notes, hstore, hnotes⟩ := storeSegments_records order hmapped htail (Holds.whole _)
    (by simp) hcount
  refine ⟨notes, ?_, hnotes⟩
  unfold readSegments
  rw [get_bind, hstore]
  rfl

/-- Each record of the segment is kept, the last one where a resource has several. Whatever follows
the records adds nothing, and is noted once. -/
theorem readSegments_salvaged {records : List SegmentRecord} {tail : List UInt8} (order : ByteOrder)
    (s : Session) (hmapped : ∀ r ∈ records, r.Mapped s.resources)
    (htail : SegmentTail s.resources tail) :
    ∃ t notes,
      readSegments (records.flatMap SegmentRecord.written ++ tail).toByteArray order s = .ok () t ∧
      (∀ before r after, records = before ++ r :: after → r.id ∉ after.map (·.id) →
        t.resources.segment? r.id = some r.bytes.toByteArray) ∧
      (∀ id, id ∉ records.map (·.id) → t.resources.segment? id = s.resources.segment? id) ∧
      t = { s with
        resources := { s.resources with segments := t.resources.segments }
        notes := s.notes ++ notes } ∧
      notes.length = if tail = [] then 0 else 1 := by
  obtain ⟨notes, hread, hnotes⟩ := readSegments_records order hmapped htail
  refine ⟨_, notes, hread, ?_, ?_, ?_, hnotes⟩
  · rintro before r after rfl hlast
    exact Container.segment?_keepRecords _ before hlast
  · intro id hid
    exact Container.segment?_keepRecords_of_not_mem _ hid
  · dsimp only
    rw [← Container.keepRecords_eq]

def threeResources : Session :=
  { fileName := "three.dcr", cursor := ⟨.empty, 0, .big⟩
    resources :=
      { entries := [{ id := 5, tag := .script, size := 2 }, { id := 200, tag := .script },
          { id := 9, tag := .script, size := 3 }]
        segments := [(9, [8].toByteArray)] } }

/-- The first resource has two records, and its number has a group too many in the second. -/
def threeRecords : List SegmentRecord :=
  [.plain 5 [1, 2], .plain 200 [], ⟨[0x80, 5], [3, 4], [0x80], 5, rfl, by simp, by decide⟩]

theorem readSegments_threeRecords :
    (∀ r ∈ threeRecords, r.Mapped threeResources.resources) ∧
    SegmentTail threeResources.resources [9, 6, 7] ∧
    ∃ t, readSegments (threeRecords.flatMap SegmentRecord.written ++ [9, 6, 7]).toByteArray .big
        threeResources = .ok () t ∧
      t.resources.segment? 5 = some [3, 4].toByteArray ∧
      t.resources.segment? 200 = some [].toByteArray ∧
      t.resources.segment? 9 = some [8].toByteArray := by
  have hmapped : ∀ r ∈ threeRecords, r.Mapped threeResources.resources := by
    simp only [threeRecords, List.forall_mem_cons]
    exact ⟨⟨_, rfl, rfl⟩, ⟨_, rfl, rfl⟩, ⟨_, rfl, rfl⟩, by simp⟩
  have htail : SegmentTail threeResources.resources ([9] ++ [6, 7]) :=
    .cut ⟨[], 9, rfl, by simp, by decide⟩ rfl (by decide)
  obtain ⟨t, notes, hread, hlast, hother, -, -⟩ := readSegments_salvaged .big _ hmapped htail
  refine ⟨hmapped, htail, t, hread, ?_, ?_, ?_⟩
  · exact hlast [.plain 5 [1, 2], .plain 200 []] _ [] rfl (by simp)
  · exact hlast [.plain 5 [1, 2]] (.plain 200 []) [_] rfl (by decide)
  · exact hother 9 (by decide)

end Archive
end Shockwave
