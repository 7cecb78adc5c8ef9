import Shockwave.Map.Archived
import Shockwave.Proofs.Varint

/-!
Tables of compression descriptors: all identifiers, then all names. A name is found for the
identifier in the same place, however many there are. Its bytes are taken for UTF-8, though, so that
only a name in ASCII comes out as the Latin-1 text that texts of a movie are.
-/
namespace Shockwave

structure DescriptorRow where
  identifier : List UInt8
  name : List UInt8
  length_identifier : identifier.length = 16
  name_ends : 0 ∉ name

namespace DescriptorRow

def nameWritten (row : DescriptorRow) : List UInt8 := row.name ++ [0]

def table (order : ByteOrder) (rows : List DescriptorRow) : List UInt8 :=
  order.bytes 2 rows.length ++ (rows.flatMap (·.identifier) ++ rows.flatMap nameWritten)

def described (decode : List UInt8 → String) (index : Nat) (rows : List DescriptorRow) :
    List Descriptor :=
  (rows.zipIdx index).map fun (row, i) => .new i row.identifier (decode row.name)

end DescriptorRow

theorem fromUTF8?_toUTF8 (text : String) : String.fromUTF8? text.toUTF8 = some text :=
  dif_pos text.isValidUTF8

/-- The text of bytes in UTF-8; bytes that are not so have none. -/
def utf8Text (bytes : List UInt8) : String := (String.fromUTF8? bytes.toByteArray).getD ""

theorem Latin1.toUTF8_decode {bytes : List UInt8} (h : ∀ byte ∈ bytes, byte < 0x80) :
    (Latin1.decode bytes).toUTF8 = bytes.toByteArray := by
  have hchars : (bytes.map Latin1.char).flatMap String.utf8EncodeChar = bytes := by
    induction bytes with
    | nil => rfl
    | cons byte rest ih =>
      obtain ⟨hbyte, hrest⟩ := List.forall_mem_cons.mp h
      have hone : (Latin1.char byte).utf8Size = 1 := by
        rw [Latin1.utf8Size_char, if_neg (UInt8.not_le.mpr hbyte)]
      have hval : (Latin1.char byte).val.toUInt8 = byte := by
        apply UInt8.toNat_inj.mp
        rw [UInt32.toNat_toUInt8]
        have hchar : (Latin1.char byte).val.toNat = byte.toNat := Latin1.toNat_char byte
        rw [hchar]
        exact Nat.mod_eq_of_lt byte.toNat_lt
      rw [List.map_cons, List.flatMap_cons, ih hrest, String.utf8EncodeChar_eq_singleton hone, hval,
        List.singleton_append]
  change (String.ofList _).toByteArray = _
  rw [String.toByteArray_ofList, List.utf8Encode, hchars]

/-- UTF-8 and Latin-1 agree on ASCII alone. -/
theorem utf8Text_eq_iff (bytes : List UInt8) :
    utf8Text bytes = Latin1.decode bytes ↔ ∀ byte ∈ bytes, byte < 0x80 := by
  unfold utf8Text
  constructor
  · intro h
    have hcount : bytes.countP (0x80 ≤ ·) = 0 := by
      cases htext : String.fromUTF8? bytes.toByteArray with
      | none =>
        rw [htext, Option.getD_none] at h
        have hlength := congrArg String.length h
        rw [Latin1.length_decode] at hlength
        rw [List.eq_nil_of_length_eq_zero hlength.symm]
        rfl
      | some text =>
        rw [htext, Option.getD_some] at h
        obtain ⟨hvalid, htext⟩ := Option.dite_none_right_eq_some.mp htext
        have hsize : text.utf8ByteSize = bytes.length := by
          rw [← Option.some.inj htext]
          change bytes.toByteArray.size = _
          rw [← length_octets, octets_toByteArray]
        rw [h, Latin1.utf8ByteSize_decode] at hsize
        omega
    intro byte hbyte
    have hlow := List.countP_eq_zero.mp hcount byte hbyte
    simpa using hlow
  · intro h
    rw [← Latin1.toUTF8_decode h, fromUTF8?_toUTF8, Option.getD_some]

namespace Registry

theorem place_eq_append {d : Descriptor} {descriptors : List Descriptor}
    (h : ∀ e ∈ descriptors, e.index < d.index) : place d descriptors = descriptors ++ [d] := by
  induction descriptors with
  | nil => rfl
  | cons e rest ih =>
    obtain ⟨he, hrest⟩ := List.forall_mem_cons.mp h
    rw [place, if_neg (by omega), if_neg (by omega), ih hrest, List.cons_append]

theorem foldl_insert_described (decode : List UInt8 → String) (rows : List DescriptorRow)
    {index : Nat} {descriptors : List Descriptor} (h : ∀ e ∈ descriptors, e.index < index) :
    (DescriptorRow.described decode index rows).foldl insert ⟨descriptors⟩ =
      ⟨descriptors ++ DescriptorRow.described decode index rows⟩ := by
  induction rows generalizing index descriptors with
  | nil => simp [DescriptorRow.described]
  | cons row rest ih =>
    have hnext : ∀ e ∈ descriptors ++ [Descriptor.new index row.identifier (decode row.name)],
        e.index < index + 1 := by
      intro e he
      rcases List.mem_append.mp he with hold | hnew
      · exact Nat.lt_succ_of_lt (h e hold)
      · rw [List.mem_singleton.mp hnew]
        exact Nat.lt_succ_self index
    have hrest := ih hnext
    simp only [DescriptorRow.described] at hrest
    simp only [DescriptorRow.described, List.zipIdx_cons, List.map_cons, List.foldl_cons, insert]
    rw [place_eq_append h, hrest, List.append_assoc, List.singleton_append]

end Registry

namespace Archive

variable {data : ByteArray} {pos : Nat} {order : ByteOrder} {rows : List DescriptorRow}

/-- What is relied on of a reader of names: the bytes before a zero byte are taken for UTF-8, and also
where they are not, reading goes on behind the zero byte; without one there is no result. -/
structure ReadsNames (readName : NameReader) : Prop where
  valid : ∀ {c : Cursor} {name : List UInt8} {text : String}, Holds c.data c.pos (name ++ [0]) →
    0 ∉ name → String.fromUTF8? name.toByteArray = some text →
    readName c = some (some text, { c with pos := c.pos + (name.length + 1) })
  garbled : ∀ {c : Cursor} {name : List UInt8}, Holds c.data c.pos (name ++ [0]) →
    0 ∉ name → String.fromUTF8? name.toByteArray = none →
    readName c = some (none, { c with pos := c.pos + (name.length + 1) })
  unended : ∀ {c : Cursor}, 0 ∉ (octets c.data).drop c.pos → readName c = none

section

variable {c : Cursor} {name : List UInt8}

theorem ReadsNames.ended {readName : NameReader} (h : ReadsNames readName)
    (hholds : Holds c.data c.pos (name ++ [0])) (hends : 0 ∉ name) :
    readName c =
      some (String.fromUTF8? name.toByteArray, { c with pos := c.pos + (name.length + 1) }) := by
  cases htext : String.fromUTF8? name.toByteArray with
  | none => exact h.garbled hholds hends htext
  | some text => exact h.valid hholds hends htext

theorem utf8Name_ended (hholds : Holds c.data c.pos (name ++ [0])) (hends : 0 ∉ name) :
    utf8Name c =
      some (String.fromUTF8? name.toByteArray, { c with pos := c.pos + (name.length + 1) }) := by
  have hread : Decode.through (· == 0) c =
      .ok (name ++ [0]).toByteArray { c with pos := c.pos + (name ++ [0]).length } := by
    refine Decode.through_ok hholds ?_ rfl
    intro byte hbyte
    rw [beq_eq_false_iff_ne]
    intro hzero
    exact hends (hzero ▸ hbyte)
  have hbytes : (name ++ [0]).toByteArray.extract 0 ((name ++ [0]).toByteArray.size - 1) =
      name.toByteArray := (Holds.start name [0]).extract (by simp)
  unfold utf8Name
  rw [hread]
  dsimp only
  rw [hbytes, List.length_append, List.length_singleton]

theorem readsNames_utf8Name : ReadsNames utf8Name where
  valid hholds hends htext := by rw [utf8Name_ended hholds hends, htext]
  garbled hholds hends htext := by rw [utf8Name_ended hholds hends, htext]
  unended := by
    intro c hnone
    have hall : ∀ byte ∈ (octets c.data).drop c.pos, (byte == 0) = false := by
      intro byte hbyte
      rw [beq_eq_false_iff_ne]
      intro hzero
      exact hnone (hzero ▸ hbyte)
    unfold utf8Name
    rw [Decode.through_error hall]

end

variable {readName : NameReader}

theorem describeAll_rows (hreads : ReadsNames readName) {index : Nat} {s : Session}
    (h : Holds data pos (rows.flatMap DescriptorRow.nameWritten)) :
    ∃ notes, describeAll readName index ⟨data, pos, order⟩
        (rows.map (·.identifier.toByteArray)) s =
      .ok () { s with
        compressions := (DescriptorRow.described utf8Text index rows).foldl Registry.insert
          s.compressions
        notes } := by
  induction rows generalizing index pos s with
  | nil =>
    simp only [List.map_nil, describeAll]
    split
    · exact ⟨s.notes, rfl⟩
    · exact ⟨_, rfl⟩
  | cons row rest ih =>
    rw [List.flatMap_cons] at h
    have hread : readName ⟨data, pos, order⟩ = _ := hreads.ended h.append_left row.name_ends
    have hrest := h.append_right
    rw [DescriptorRow.nameWritten, List.length_append, List.length_singleton] at hrest
    simp only [List.map_cons, describeAll, hread, octets_toByteArray]
    -- A name that is not valid is noted first; the descriptor is registered either way.
    split
    · exact ih hrest
    · exact ih hrest

theorem times_identifiers (h : Holds data pos (rows.flatMap (·.identifier))) :
    Decode.times rows.length (Decode.bytes 16) ⟨data, pos, order⟩ =
      .ok (rows.map (·.identifier.toByteArray))
        ⟨data, pos + (rows.flatMap (·.identifier)).length, order⟩ := by
  induction rows generalizing pos with
  | nil => rfl
  | cons row rest ih =>
    rw [List.flatMap_cons] at h
    have hrest := ih h.append_right
    rw [row.length_identifier] at hrest
    rw [List.length_cons, Decode.times,
      bind_ok (Decode.bytes_ok (c := ⟨data, pos, order⟩) h.append_left row.length_identifier),
      bind_ok hrest]
    simp [row.length_identifier, Nat.add_assoc]
    rfl

theorem readIdentifiers_rows {rest : List UInt8} (hcount : rows.length < 0x10000) :
    readIdentifiers ⟨(DescriptorRow.table order rows ++ rest).toByteArray, 0, order⟩ =
      .ok (rows.map (·.identifier.toByteArray))
        ⟨(DescriptorRow.table order rows ++ rest).toByteArray,
          2 + (rows.flatMap (·.identifier)).length, order⟩ := by
  have h := Holds.start (DescriptorRow.table order rows) rest
  generalize (DescriptorRow.table order rows ++ rest).toByteArray = data at h
  have hfits := h.append_left.fits
  have hidentifiers := h.append_right.append_left
  rw [ByteOrder.length_bytes] at hfits hidentifiers
  have hword : (UInt16.ofNat rows.length).toNat = rows.length := UInt16.toNat_ofNat_of_lt hcount
  unfold readIdentifiers
  rw [bind_ok (Decode.require_ok hfits),
    bind_ok (Decode.u16_ok (c := ⟨data, 0, order⟩) h.append_left), hword,
    times_identifiers hidentifiers]

theorem readDescriptors_rows (hreads : ReadsNames readName) (order : ByteOrder)
    (hcount : rows.length < 0x10000) (rest : List UInt8) (s : Session) :
    ∃ notes, readDescriptors readName (DescriptorRow.table order rows ++ rest).toByteArray order s =
      .ok () { s with
        compressions := (DescriptorRow.described utf8Text 0 rows).foldl Registry.insert
          s.compressions
        notes } := by
  have hnames := (Holds.start (DescriptorRow.table order rows) rest).append_right.append_right
  rw [ByteOrder.length_bytes, Nat.zero_add] at hnames
  unfold readDescriptors
  rw [readIdentifiers_rows hcount]
  exact describeAll_rows hreads hnames

end Archive

theorem DescriptorRow.described_eq_iff (rows : List DescriptorRow) (index : Nat) :
    described utf8Text index rows = described Latin1.decode index rows ↔
      ∀ row ∈ rows, ∀ byte ∈ row.name, byte < 0x80 := by
  unfold described
  induction rows generalizing index with
  | nil => simp
  | cons row rest ih =>
    rw [List.zipIdx_cons, List.map_cons, List.map_cons, List.cons.injEq, ih, List.forall_mem_cons,
      ← utf8Text_eq_iff]
    refine and_congr_left fun _ => ⟨fun h => congrArg Descriptor.name h, fun h => ?_⟩
    dsimp only
    rw [h]

/-- A table of any rows, with anything behind it, is read as one descriptor for each row, numbered
in order. These have the Latin-1 texts of the rows as names exactly when all names are in ASCII. -/
theorem Archive.readDescriptors_latin1_iff (readName : NameReader) (hreads : ReadsNames readName)
    (order : ByteOrder) (rows : List DescriptorRow) (hcount : rows.length ≤ 65535)
    (rest : List UInt8) (s : Session) (hnone : s.compressions = {}) :
    (∃ notes, readDescriptors readName (DescriptorRow.table order rows ++ rest).toByteArray order s =
      .ok () { s with compressions := ⟨DescriptorRow.described utf8Text 0 rows⟩, notes }) ∧
      ((∃ notes,
        readDescriptors readName (DescriptorRow.table order rows ++ rest).toByteArray order s =
          .ok () { s with compressions := ⟨DescriptorRow.described Latin1.decode 0 rows⟩, notes }) ↔
        ∀ row ∈ rows, ∀ byte ∈ row.name, byte < 0x80) := by
  have hregistered : ∃ notes,
      readDescriptors readName (DescriptorRow.table order rows ++ rest).toByteArray order s =
        .ok () { s with compressions := ⟨DescriptorRow.described utf8Text 0 rows⟩, notes } := by
    obtain ⟨notes, hread⟩ :=
      readDescriptors_rows hreads order (show rows.length < 0x10000 by omega) rest s
    have hempty : s.compressions = ⟨[]⟩ := hnone
    rw [hempty, Registry.foldl_insert_described utf8Text rows (by simp), List.nil_append] at hread
    exact ⟨notes, hread⟩
  refine ⟨hregistered, ?_⟩
  obtain ⟨notes, hread⟩ := hregistered
  rw [← DescriptorRow.described_eq_iff rows 0, hread]
  constructor
  · rintro ⟨notes', hsame⟩
    injection hsame with _ hsession
    exact congrArg (·.compressions.descriptors) hsession
  · intro hsame
    exact ⟨notes, by rw [hsame]⟩

/-- An identifier of no known scheme, so that the name alone tells the kind. -/
def foreignIdentifier : List UInt8 := List.replicate 16 0x11

theorem Archive.readDescriptors_plainNames :
    let rows : List DescriptorRow :=
      [⟨foreignIdentifier, [0x7A, 0x6C, 0x69, 0x62], rfl, by decide⟩,
        ⟨foreignIdentifier, [0x73, 0x6F, 0x75, 0x6E, 0x64], rfl, by decide⟩]
    let s := Session.ofBytes "plain.dcr" .empty
    ReadsNames utf8Name ∧ rows.length ≤ 65535 ∧ s.compressions = {} ∧
      DescriptorRow.described Latin1.decode 0 rows =
        [⟨0, foreignIdentifier, "zlib", .zlib⟩, ⟨1, foreignIdentifier, "sound", .sound⟩] ∧
      ∃ notes,
        readDescriptors utf8Name (DescriptorRow.table .little rows ++ [7, 0]).toByteArray .little s =
          .ok ()
            { s with compressions := ⟨DescriptorRow.described Latin1.decode 0 rows⟩, notes } := by
  intro rows s
  have hcount : rows.length ≤ 65535 := by decide
  have hbytes : ∀ row ∈ rows, row.name.all (· < 0x80) = true := by decide
  have hascii : ∀ row ∈ rows, ∀ byte ∈ row.name, byte < 0x80 := by simpa using hbytes
  exact ⟨readsNames_utf8Name, hcount, rfl, by decide +kernel,
    (readDescriptors_latin1_iff utf8Name readsNames_utf8Name .little rows hcount [7, 0] s
      rfl).2.mpr hascii⟩

/-- The Latin-1 name `zlibé` is lost, and with it the hint at the kind. -/
theorem Archive.readDescriptors_accented :
    let rows : List DescriptorRow :=
      [⟨foreignIdentifier, [0x7A, 0x6C, 0x69, 0x62, 0xE9], rfl, by decide⟩]
    let s := Session.ofBytes "accented.dcr" .empty
    s.compressions = {} ∧
      DescriptorRow.described Latin1.decode 0 rows =
        [⟨0, foreignIdentifier, "zlib\u00e9", .zlib⟩] ∧
      (∃ notes, readDescriptors utf8Name (DescriptorRow.table .big rows).toByteArray .big s =
        .ok () { s with compressions := ⟨[⟨0, foreignIdentifier, "", .unknown⟩]⟩, notes }) ∧
      ¬∃ notes, readDescriptors utf8Name (DescriptorRow.table .big rows).toByteArray .big s =
        .ok ()
          { s with compressions := ⟨DescriptorRow.described Latin1.decode 0 rows⟩, notes } := by
  intro rows s
  have hlatin1 : DescriptorRow.described Latin1.decode 0 rows =
      [⟨0, foreignIdentifier, "zlib\u00e9", .zlib⟩] := by
    decide +kernel
  have hread : ∃ notes, readDescriptors utf8Name (DescriptorRow.table .big rows).toByteArray .big s =
      .ok () { s with compressions := ⟨[⟨0, foreignIdentifier, "", .unknown⟩]⟩, notes } := by
    have hcount : rows.length < 0x10000 := by decide
    obtain ⟨notes, hrows⟩ := readDescriptors_rows readsNames_utf8Name .big hcount [] s
    have hregistry : (DescriptorRow.described utf8Text 0 rows).foldl Registry.insert {} =
        ⟨[⟨0, foreignIdentifier, "", .unknown⟩]⟩ := by
      decide +kernel
    rw [List.append_nil] at hrows
    exact ⟨notes, hrows.trans (congrArg (fun compressions =>
      EStateM.Result.ok () { s with compressions, notes }) hregistry)⟩
  refine ⟨rfl, hlatin1, hread, ?_⟩
  rintro ⟨notes, hsame⟩
  obtain ⟨notes', hlost⟩ := hread
  rw [hlost] at hsame
  injection hsame with _ hsession
  rw [hlatin1] at hsession
  have hnames : [""] = ["zlib\u00e9"] :=
    congrArg (·.compressions.descriptors.map (·.name)) hsession
  exact absurd hnames (by decide)

end Shockwave
