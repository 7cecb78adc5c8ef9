import Shockwave.Cast.ScriptInfo
import Shockwave.Proofs.ArchiveTables
import Shockwave.Proofs.Finding

/-!
Info blocks of script members, told by the text, name and number that they keep under a layout. A
written block gives its content back whichever of the two layouts it was written in, since under the
other one it keeps nothing at all, or only an empty text. Where a block keeps something under both
layouts, the choice is made by the size of the two results as UTF-8.
-/
namespace Shockwave

theorem Holds.getElem_add {data : ByteArray} {pos i : Nat} {bytes : List UInt8}
    (h : Holds data pos bytes) (hi : i < bytes.length) (hpos : pos + i < data.size) :
    data[pos + i] = bytes[i] := by
  rw [← List.take_append_drop i bytes, List.drop_eq_getElem_cons hi] at h
  have hrest := h.append_right
  rw [List.length_take, Nat.min_eq_left (by omega)] at hrest
  exact hrest.getElem hpos

structure InfoContent where
  number : Int32
  text : List UInt8
  name : List UInt8
  text_bytes : ∀ byte ∈ text, 0x20 ≤ byte ∨ byte = 9 ∨ byte = 13 ∨ byte = 10
  name_bytes : ∀ byte ∈ name, 0x20 ≤ byte
  text_fits : text.length < 0x100000000
  name_fits : name.length < 0x100

def InfoLayout.StartsAt (info : ByteArray) : InfoLayout → Nat → Prop
  | .legacy, start => start = 0x21
  | .pointer, start =>
    0x6A ≤ start ∧ start < 0x10000 ∧ Holds info 0x68 (ByteOrder.big.bytes 2 start)

namespace InfoContent

def written (c : InfoContent) : List UInt8 := c.text ++ (UInt8.ofNat c.name.length :: c.name)

def info (c : InfoContent) (layout : InfoLayout) : ScriptInfo :=
  { layout, number := c.number, text := Latin1.decode c.text, name := Latin1.decode c.name }

structure KeptIn (c : InfoContent) (info : ByteArray) (layout : InfoLayout) : Prop where
  number : Holds info 16 (ByteOrder.big.bytes 4 c.number.toUInt32.toNat)
  length : Holds info 0x1D (ByteOrder.little.bytes 4 c.text.length)
  content : ∃ start, layout.StartsAt info start ∧ Holds info start c.written

@[simp] theorem length_written (c : InfoContent) :
    c.written.length = c.text.length + 1 + c.name.length := by
  simp only [written, List.length_append, List.length_cons]
  omega

theorem KeptIn.length_text_eq {c d : InfoContent} {info : ByteArray} {layout other : InfoLayout}
    (hc : c.KeptIn info layout) (hd : d.KeptIn info other) : c.text.length = d.text.length :=
  hc.length.word_unique hd.length c.text_fits d.text_fits

end InfoContent

namespace ScriptInfo

variable {info : ByteArray} {layout : InfoLayout}

theorem slice?_eq_some_iff {start stop : Nat} {bytes : List UInt8} :
    slice? info start stop = some bytes ↔ Holds info start bytes ∧ stop = start + bytes.length := by
  unfold slice?
  rw [Option.ite_none_right_eq_some, Option.some.injEq]
  constructor
  · rintro ⟨⟨hle, hfits⟩, rfl⟩
    have hwidth : start + (stop - start) = stop := by omega
    obtain ⟨found, hfound, hlength⟩ := Holds.of_fits (hwidth.symm ▸ hfits)
    rw [hfound.octets_extract (by omega)]
    exact ⟨hfound, by omega⟩
  · rintro ⟨hholds, rfl⟩
    exact ⟨⟨by omega, hholds.fits⟩, hholds.octets_extract rfl⟩

theorem holds_of_slice? {start stop : Nat} {bytes : List UInt8} (order : ByteOrder) (width : Nat)
    (h : slice? info start stop = some bytes) (hwidth : stop = start + width) :
    order.value bytes < ByteOrder.span width ∧
      Holds info start (order.bytes width (order.value bytes)) := by
  obtain ⟨hholds, hstop⟩ := slice?_eq_some_iff.mp h
  obtain rfl : width = bytes.length := by omega
  rw [order.bytes_value rfl]
  exact ⟨order.value_lt bytes, hholds⟩

theorem slice?_of_holds {start stop width n : Nat} {order : ByteOrder}
    (h : Holds info start (order.bytes width n)) (hwidth : stop = start + width) :
    slice? info start stop = some (order.bytes width n) :=
  slice?_eq_some_iff.mpr ⟨h, by rw [ByteOrder.length_bytes, hwidth]⟩

theorem textStart?_eq_some_iff {start : Nat} :
    textStart? info layout = some start ↔ layout.StartsAt info start := by
  cases layout with
  | legacy => simp [textStart?, InfoLayout.StartsAt, eq_comm]
  | pointer =>
    simp only [textStart?, Option.bind_eq_bind, Option.bind_eq_some_iff,
      Option.ite_none_left_eq_some, Option.some.injEq]
    constructor
    · rintro ⟨bytes, hslice, hge, rfl⟩
      obtain ⟨hlt, hholds⟩ := holds_of_slice? .big 2 hslice rfl
      exact ⟨by omega, hlt, hholds⟩
    · rintro ⟨hge, hlt, hholds⟩
      have hvalue : ByteOrder.bigValue (ByteOrder.big.bytes 2 start) = start :=
        ByteOrder.value_bytes_of_lt .big hlt
      exact ⟨_, slice?_of_holds hholds rfl, by omega, hvalue⟩

theorem isTextByte_iff (byte : UInt8) :
    isTextByte byte = true ↔ 0x20 ≤ byte ∨ byte = 9 ∨ byte = 13 ∨ byte = 10 := by
  simp [isTextByte, or_assoc]

theorem isNameByte_iff (byte : UInt8) : isNameByte byte = true ↔ 0x20 ≤ byte := by
  simp [isNameByte]

theorem exists_keptIn_of_decode? {r : ScriptInfo} (h : decode? info layout = some r) :
    ∃ c : InfoContent, c.KeptIn info layout ∧ r = c.info layout := by
  obtain ⟨lengthBytes, hlength, h⟩ := Option.bind_eq_some_iff.mp h
  obtain ⟨start, hstart, h⟩ := Option.bind_eq_some_iff.mp h
  obtain ⟨text, htext, h⟩ := Option.bind_eq_some_iff.mp h
  obtain ⟨countBytes, hcount, h⟩ := Option.bind_eq_some_iff.mp h
  obtain ⟨name, hname, h⟩ := Option.bind_eq_some_iff.mp h
  obtain ⟨_, hguard, h⟩ := Option.bind_eq_some_iff.mp h
  obtain ⟨numberBytes, hnumber, hr⟩ := Option.bind_eq_some_iff.mp h
  obtain ⟨hlt, hlength⟩ := holds_of_slice? .little 4 hlength rfl
  obtain ⟨htext, hstop⟩ := slice?_eq_some_iff.mp htext
  obtain ⟨hcountlt, hcount⟩ := holds_of_slice? .big 1 hcount rfl
  obtain ⟨hname, hend⟩ := slice?_eq_some_iff.mp hname
  obtain ⟨hnumberlt, hnumber⟩ := holds_of_slice? .big 4 hnumber rfl
  have htextLength : ByteOrder.little.value lengthBytes = text.length := by omega
  have hnameLength : ByteOrder.big.value countBytes = name.length := Nat.add_left_cancel hend
  rw [htextLength] at hlt hlength hcount hname
  rw [hnameLength] at hcountlt hcount
  have hbytes : (text.all isTextByte && name.all isNameByte) = true :=
    (Option.ite_none_right_eq_some.mp hguard).1
  rw [Bool.and_eq_true, List.all_eq_true, List.all_eq_true] at hbytes
  simp only [isTextByte_iff, isNameByte_iff] at hbytes
  have hword : (UInt32.ofNat (ByteOrder.big.value numberBytes)).toNat =
      ByteOrder.big.value numberBytes := UInt32.toNat_ofNat_of_lt hnumberlt
  cases hr
  refine ⟨⟨(UInt32.ofNat (ByteOrder.big.value numberBytes)).toInt32, text, name, hbytes.1,
    hbytes.2, hlt, hcountlt⟩, ⟨?_, hlength, start, textStart?_eq_some_iff.mp hstart, ?_⟩, rfl⟩
  · rwa [UInt32.toUInt32_toInt32, hword]
  · exact htext.append (hcount.append hname rfl) rfl

theorem decode?_of_keptIn {c : InfoContent} (h : c.KeptIn info layout) :
    decode? info layout = some (c.info layout) := by
  obtain ⟨start, hstart, hcontent⟩ := h.content
  have hrest : Holds info (start + c.text.length)
      (ByteOrder.big.bytes 1 c.name.length ++ c.name) := hcontent.append_right
  have hname : Holds info (start + c.text.length + 1) c.name := hrest.append_right
  have hbytes : (c.text.all isTextByte && c.name.all isNameByte) = true := by
    simp only [Bool.and_eq_true, List.all_eq_true, isTextByte_iff, isNameByte_iff]
    exact ⟨c.text_bytes, c.name_bytes⟩
  have hlengthValue : ByteOrder.little.value (ByteOrder.little.bytes 4 c.text.length) =
      c.text.length := ByteOrder.value_bytes_of_lt .little c.text_fits
  have hcountValue : ByteOrder.bigValue (ByteOrder.big.bytes 1 c.name.length) = c.name.length :=
    ByteOrder.value_bytes_of_lt .big c.name_fits
  have hnumberValue : ByteOrder.bigValue (ByteOrder.big.bytes 4 c.number.toUInt32.toNat) =
      c.number.toUInt32.toNat := ByteOrder.value_bytes_of_lt .big c.number.toUInt32.toNat_lt
  refine Option.bind_eq_some_iff.mpr ⟨_, slice?_of_holds h.length rfl, ?_⟩
  refine Option.bind_eq_some_iff.mpr ⟨start, textStart?_eq_some_iff.mpr hstart, ?_⟩
  rw [hlengthValue]
  refine Option.bind_eq_some_iff.mpr
    ⟨c.text, slice?_eq_some_iff.mpr ⟨hcontent.append_left, rfl⟩, ?_⟩
  refine Option.bind_eq_some_iff.mpr ⟨_, slice?_of_holds hrest.append_left rfl, ?_⟩
  rw [hcountValue]
  refine Option.bind_eq_some_iff.mpr ⟨c.name, slice?_eq_some_iff.mpr ⟨hname, rfl⟩, ?_⟩
  refine Option.bind_eq_some_iff.mpr ⟨(), if_pos hbytes, ?_⟩
  refine Option.bind_eq_some_iff.mpr ⟨_, slice?_of_holds h.number rfl, ?_⟩
  rw [hnumberValue]
  dsimp only
  rw [UInt32.ofNat_toNat]
  rfl

theorem decode?_eq_some_iff {r : ScriptInfo} :
    decode? info layout = some r ↔ ∃ c : InfoContent, c.KeptIn info layout ∧ r = c.info layout := by
  constructor
  · exact exists_keptIn_of_decode?
  · rintro ⟨c, hkept, rfl⟩
    exact decode?_of_keptIn hkept

theorem decode?_eq_none_iff :
    decode? info layout = none ↔ ∀ c : InfoContent, ¬c.KeptIn info layout := by
  simp only [Option.eq_none_iff_forall_ne_some, ne_eq, decode?_eq_some_iff]
  constructor
  · intro h c hkept
    exact h _ ⟨c, hkept, rfl⟩
  · rintro h r ⟨c, hkept, -⟩
    exact h c hkept

/-- The choice between two results by their sizes, or else by the archive version. -/
def takesPointer (archiveVersion : UInt32) (pointer legacy : Nat) : Bool :=
  if pointer = legacy then prefersPointer archiveVersion else legacy < pointer

section

variable {archiveVersion : UInt32} {pointer legacy : Nat}

theorem takesPointer_of_lt (h : legacy < pointer) :
    takesPointer archiveVersion pointer legacy = true := by
  simp [takesPointer, h, Nat.ne_of_gt h]

theorem takesPointer_of_gt (h : pointer < legacy) :
    takesPointer archiveVersion pointer legacy = false := by
  simp [takesPointer, Nat.ne_of_lt h, Nat.le_of_lt h]

theorem takesPointer_self :
    takesPointer archiveVersion pointer pointer = prefersPointer archiveVersion := by
  simp [takesPointer]

end

theorem detect?_of_both {pointer legacy : ScriptInfo}
    (hpointer : decode? info .pointer = some pointer)
    (hlegacy : decode? info .legacy = some legacy) (archiveVersion : UInt32) :
    detect? info archiveVersion =
      some (if takesPointer archiveVersion pointer.weight legacy.weight then pointer else legacy,
        true) := by
  unfold detect?
  rw [hpointer, hlegacy]
  rfl

def characters (r : ScriptInfo) : Nat := r.text.length + r.name.length

def upperHalf (r : ScriptInfo) : Nat :=
  (r.text.toList ++ r.name.toList).countP fun c => 0x80 ≤ c.toNat

end ScriptInfo

namespace InfoContent

theorem characters_info (c : InfoContent) (layout : InfoLayout) :
    (c.info layout).characters = c.text.length + c.name.length := by
  simp [ScriptInfo.characters, info]

theorem upperHalf_info (c : InfoContent) (layout : InfoLayout) :
    (c.info layout).upperHalf = c.text.countP (0x80 ≤ ·) + c.name.countP (0x80 ≤ ·) := by
  simp [ScriptInfo.upperHalf, info, List.countP_map, Function.comp_def, UInt8.le_iff_toNat_le]

theorem weight_info (c : InfoContent) (layout : InfoLayout) :
    (c.info layout).weight = (c.info layout).characters + (c.info layout).upperHalf := by
  rw [characters_info, upperHalf_info]
  simp only [ScriptInfo.weight, info, Latin1.utf8ByteSize_decode]
  omega

def blank (number : Int32) : InfoContent where
  number := number
  text := []
  name := []
  text_bytes := fun _ h => absurd h List.not_mem_nil
  name_bytes := fun _ h => absurd h List.not_mem_nil
  text_fits := by decide
  name_fits := by decide

theorem getElem_written (c : InfoContent) {i : Nat} (hi : i < c.written.length) :
    9 ≤ c.written[i].toNat ∨ i = c.text.length ∧ c.written[i].toNat = c.name.length := by
  have hcount : (UInt8.ofNat c.name.length).toNat = c.name.length :=
    UInt8.toNat_ofNat_of_lt c.name_fits
  have hmem : c.written[i] ∈ c.text ∨ c.written[i] ∈ c.name ∨
      i = c.text.length ∧ c.written[i] = UInt8.ofNat c.name.length := by
    unfold written
    grind
  rcases hmem with htext | hname | ⟨hplace, hlength⟩
  · have := c.text_bytes _ htext
    simp only [UInt8.le_iff_toNat_le, ← UInt8.toNat_inj] at this
    refine .inl ?_
    rcases this with h | h | h | h
    all_goals simp at h; omega
  · have := c.name_bytes _ hname
    rw [UInt8.le_iff_toNat_le] at this
    exact .inl (Nat.le_trans (by decide) this)
  · exact .inr ⟨hplace, by rw [hlength, hcount]⟩

end InfoContent

/-- A block to be written: a content, and the bytes of other use before and behind the number. -/
structure InfoBlock extends InfoContent where
  front : List UInt8
  middle : List UInt8
  length_front : front.length = 16
  length_middle : middle.length = 9

namespace InfoBlock

variable (b : InfoBlock) {info : ByteArray}

def head : List UInt8 :=
  b.front ++ (ByteOrder.big.bytes 4 b.number.toUInt32.toNat ++
    (b.middle ++ ByteOrder.little.bytes 4 b.text.length))

def legacyWritten : List UInt8 := b.head ++ b.written

@[simp] theorem length_head : b.head.length = 0x21 := by
  simp [head, b.length_front, b.length_middle]

theorem holds_number (h : Holds info 0 b.head) :
    Holds info 16 (ByteOrder.big.bytes 4 b.number.toUInt32.toNat) := by
  have hnumber := h.append_right.append_left
  rwa [b.length_front] at hnumber

theorem holds_length (h : Holds info 0 b.head) :
    Holds info 0x1D (ByteOrder.little.bytes 4 b.text.length) := by
  have hlength := h.append_right.append_right.append_right
  rwa [b.length_front, b.length_middle, ByteOrder.length_bytes] at hlength

theorem keptIn_legacyWritten : b.KeptIn b.legacyWritten.toByteArray .legacy := by
  have h : Holds b.legacyWritten.toByteArray 0 (b.head ++ b.written) := Holds.whole _
  have hcontent := h.append_right
  rw [b.length_head] at hcontent
  exact ⟨b.holds_number h.append_left, b.holds_length h.append_left, 0x21, rfl, hcontent⟩

theorem not_keptIn_legacyWritten (c : InfoContent) :
    ¬c.KeptIn b.legacyWritten.toByteArray .pointer := by
  intro hkept
  have h : Holds b.legacyWritten.toByteArray 0 (b.head ++ b.written) := Holds.whole _
  have hwritten := h.append_right
  rw [b.length_head] at hwritten
  have hsize : b.legacyWritten.toByteArray.size = 0x21 + b.written.length := by
    rw [← length_octets, octets_toByteArray, legacyWritten, List.length_append, b.length_head]
  have hlength := hkept.length_text_eq b.keptIn_legacyWritten
  obtain ⟨start, ⟨hge, hlt, hpointer⟩, hcontent⟩ := hkept.content
  have hfits := hcontent.fits
  have hslot := hpointer.fits
  rw [ByteOrder.length_bytes] at hslot
  rw [hsize, InfoContent.length_written, InfoContent.length_written] at hfits
  have hname := b.name_fits
  have hsmall : start < 0x121 := by omega
  -- the upper byte of the pointer stands in the text, in the name or in between
  have hindex : 0x47 < b.written.length := by omega
  have hupper : b.written[0x47].toNat = start / 256 := by
    have hplace : 0x68 < b.legacyWritten.toByteArray.size := by omega
    have hbytes : Holds b.legacyWritten.toByteArray 0x68
        [UInt8.ofNat (start / 256), UInt8.ofNat start] := hpointer
    have hbyte : start / 256 < 256 := by omega
    rw [← hwritten.getElem_add hindex hplace, hbytes.getElem hplace]
    exact UInt8.toNat_ofNat_of_lt hbyte
  rcases b.getElem_written hindex with hlarge | ⟨-, hcount⟩
  · omega
  · omega

end InfoBlock

/-- A block for the pointer layout: also the bytes up to the text, and those after the name. -/
structure PointerBlock extends InfoBlock where
  filler : List UInt8
  rest : List UInt8
  filler_fits : 0x6A + filler.length < 0x10000

namespace PointerBlock

variable (b : PointerBlock)

def pointerWritten : List UInt8 :=
  b.head ++ (List.replicate 0x47 0 ++ (ByteOrder.big.bytes 2 (0x6A + b.filler.length) ++
    (b.filler ++ (b.written ++ b.rest))))

theorem holds_head : Holds b.pointerWritten.toByteArray 0 b.head :=
  (Holds.whole b.pointerWritten).append_left

theorem holds_tail : Holds b.pointerWritten.toByteArray 0x21 (List.replicate 0x47 0 ++
    (ByteOrder.big.bytes 2 (0x6A + b.filler.length) ++ (b.filler ++ (b.written ++ b.rest)))) := by
  have h := (Holds.whole b.pointerWritten).append_right
  rwa [b.length_head] at h

theorem keptIn_pointerWritten : b.KeptIn b.pointerWritten.toByteArray .pointer := by
  have hpointer := b.holds_tail.append_right
  rw [List.length_replicate] at hpointer
  have hcontent := hpointer.append_right.append_right.append_left
  rw [ByteOrder.length_bytes] at hcontent
  exact ⟨b.holds_number b.holds_head, b.holds_length b.holds_head, _,
    ⟨Nat.le_add_right .., b.filler_fits, hpointer.append_left⟩, hcontent⟩

/-- A text at the place of the zero bytes would start with one of them. -/
theorem not_keptIn_pointerWritten (hne : b.text ≠ []) (c : InfoContent) :
    ¬c.KeptIn b.pointerWritten.toByteArray .legacy := by
  intro hkept
  have hlength := hkept.length_text_eq b.keptIn_pointerWritten
  obtain ⟨start, rfl, hcontent⟩ := hkept.content
  cases htext : c.text with
  | nil =>
    rw [htext] at hlength
    exact hne (List.length_eq_zero_iff.mp hlength.symm)
  | cons byte text =>
    have hfirst : Holds b.pointerWritten.toByteArray 0x21 (byte :: text) := by
      rw [← htext]
      exact hcontent.append_left
    have hplace : 0x21 < b.pointerWritten.toByteArray.size :=
      Nat.lt_of_lt_of_le (by simp) hfirst.fits
    have hzero : b.pointerWritten.toByteArray[0x21] = 0 := b.holds_tail.getElem hplace
    have hbyte := c.text_bytes byte (by rw [htext]; exact List.mem_cons_self)
    rw [← hfirst.getElem hplace, hzero] at hbyte
    revert hbyte
    decide

theorem keptIn_blank (hempty : b.text = []) :
    (InfoContent.blank b.number).KeptIn b.pointerWritten.toByteArray .legacy := by
  have hlength := b.holds_length b.holds_head
  rw [hempty] at hlength
  have hzero : Holds b.pointerWritten.toByteArray 0x21 ([0] ++ List.replicate 0x46 0) :=
    b.holds_tail.append_left
  exact ⟨b.holds_number b.holds_head, hlength, 0x21, rfl, hzero.append_left⟩

theorem blank_info (hname : b.name = []) (htext : b.text = []) (layout : InfoLayout) :
    (InfoContent.blank b.number).info layout = b.info layout := by
  simp [InfoContent.info, InfoContent.blank, hname, htext]

theorem detect?_of_empty (hempty : b.text = []) (archiveVersion : UInt32) :
    ScriptInfo.detect? b.pointerWritten.toByteArray archiveVersion =
      some (b.info (if b.name = [] ∧ ScriptInfo.prefersPointer archiveVersion = false
        then .legacy else .pointer), true) := by
  rw [ScriptInfo.detect?_of_both (ScriptInfo.decode?_of_keptIn b.keptIn_pointerWritten)
    (ScriptInfo.decode?_of_keptIn (b.keptIn_blank hempty))]
  by_cases hname : b.name = []
  · have hweight : (b.info .pointer).weight = (b.info .legacy).weight := rfl
    rw [b.blank_info hname hempty, hweight, ScriptInfo.takesPointer_self]
    cases ScriptInfo.prefersPointer archiveVersion <;> simp [hname]
  · have hblank : ((InfoContent.blank b.number).info .legacy).weight = 0 := rfl
    have hpos := List.length_pos_iff.mpr hname
    have hweight : 0 < (b.info .pointer).weight := by
      rw [InfoContent.weight_info, InfoContent.characters_info]
      omega
    rw [hblank, ScriptInfo.takesPointer_of_lt hweight]
    simp [hname]

/-- Both written forms of a content are decoded to it. The layout is found out without doubt, except
that zero bytes before a pointer may as well stand for a text and a name that are both empty. -/
theorem detect?_written (archiveVersion : UInt32) :
    ScriptInfo.detect? b.pointerWritten.toByteArray archiveVersion =
      some (b.info (if b.text = [] ∧ b.name = [] ∧
        ScriptInfo.prefersPointer archiveVersion = false then .legacy else .pointer),
        b.text.isEmpty) ∧
    ScriptInfo.detect? b.legacyWritten.toByteArray archiveVersion =
      some (b.info .legacy, false) := by
  constructor
  · by_cases hempty : b.text = []
    · rw [b.detect?_of_empty hempty]
      simp [hempty]
    · have hlegacy := ScriptInfo.decode?_eq_none_iff.mpr (b.not_keptIn_pointerWritten hempty)
      rw [ScriptInfo.detect?, ScriptInfo.decode?_of_keptIn b.keptIn_pointerWritten, hlegacy,
        ScriptInfo.choose?]
      simp [hempty]
  · have hpointer := ScriptInfo.decode?_eq_none_iff.mpr b.not_keptIn_legacyWritten
    rw [ScriptInfo.detect?, ScriptInfo.decode?_of_keptIn b.keptIn_legacyWritten, hpointer,
      ScriptInfo.choose?]

/-- The text `on go` of the script `à`, with two bytes between the pointer and the text. -/
def onGo : PointerBlock where
  number := 7
  text := [0x6F, 0x6E, 0x20, 0x67, 0x6F]
  name := [0xE0]
  text_bytes := by simp
  name_bytes := by simp
  text_fits := by simp
  name_fits := by simp
  front := List.replicate 16 1
  middle := List.replicate 9 2
  length_front := List.length_replicate
  length_middle := List.length_replicate
  filler := [0xFF, 0xFF]
  rest := [0, 1]
  filler_fits := by simp

theorem detect?_onGo :
    ScriptInfo.detect? onGo.pointerWritten.toByteArray 0x200 =
        some ({ layout := .pointer, number := 7, text := "on go", name := "à" }, false) ∧
      ScriptInfo.detect? onGo.legacyWritten.toByteArray 0x200 =
        some ({ layout := .legacy, number := 7, text := "on go", name := "à" }, false) :=
  onGo.detect?_written 0x200

end PointerBlock

namespace ScriptInfo

/-- Of the results under both layouts the one with more characters is taken, or else the one that
the archive version speaks for. -/
structure TakesLonger (info : ByteArray) (archiveVersion : UInt32) (pointer legacy : ScriptInfo) :
    Prop where
  pointer_longer : legacy.characters < pointer.characters →
    detect? info archiveVersion = some (pointer, true)
  legacy_longer : pointer.characters < legacy.characters →
    detect? info archiveVersion = some (legacy, true)
  level : pointer.characters = legacy.characters →
    detect? info archiveVersion =
      some (if 0x400 ≤ archiveVersion ∧ archiveVersion ≤ 0x7FF then pointer else legacy, true)

section

variable {info : ByteArray} {pointer legacy : ScriptInfo} (archiveVersion : UInt32)

theorem prefersPointer_iff :
    prefersPointer archiveVersion = true ↔ 0x400 ≤ archiveVersion ∧ archiveVersion ≤ 0x7FF := by
  simp [prefersPointer]

theorem weight_of_decode? {layout : InfoLayout} {r : ScriptInfo}
    (h : decode? info layout = some r) : r.weight = r.characters + r.upperHalf := by
  obtain ⟨c, -, rfl⟩ := decode?_eq_some_iff.mp h
  exact c.weight_info layout

theorem layout_of_decode? {layout : InfoLayout} {r : ScriptInfo}
    (h : decode? info layout = some r) : r.layout = layout := by
  obtain ⟨c, -, rfl⟩ := decode?_eq_some_iff.mp h
  rfl

theorem takesLonger_iff_detect? :
    TakesLonger info archiveVersion pointer legacy ↔ detect? info archiveVersion =
      some (if takesPointer archiveVersion pointer.characters legacy.characters then pointer
        else legacy, true) := by
  rcases Nat.lt_trichotomy pointer.characters legacy.characters with hlt | heq | hgt
  · rw [takesPointer_of_gt hlt]
    exact ⟨fun h => h.legacy_longer hlt, fun h => ⟨by omega, fun _ => h, by omega⟩⟩
  · simp only [heq, takesPointer_self, prefersPointer_iff]
    exact ⟨fun h => h.level heq, fun h => ⟨by omega, by omega, fun _ => h⟩⟩
  · rw [takesPointer_of_lt hgt]
    exact ⟨fun h => h.pointer_longer hgt, fun h => ⟨fun _ => h, by omega, by omega⟩⟩

/-- The longer of two results is taken just if it does not matter to the choice that each character
of the upper half counts twice. -/
theorem takesLonger_iff (hpointer : decode? info .pointer = some pointer)
    (hlegacy : decode? info .legacy = some legacy) :
    TakesLonger info archiveVersion pointer legacy ↔
      takesPointer archiveVersion pointer.characters legacy.characters =
        takesPointer archiveVersion (pointer.characters + pointer.upperHalf)
          (legacy.characters + legacy.upperHalf) := by
  have hne : pointer ≠ legacy := by
    rintro rfl
    have hlayout := layout_of_decode? hpointer
    rw [layout_of_decode? hlegacy] at hlayout
    cases hlayout
  rw [takesLonger_iff_detect?, detect?_of_both hpointer hlegacy, weight_of_decode? hpointer,
    weight_of_decode? hlegacy]
  cases takesPointer archiveVersion pointer.characters legacy.characters
  all_goals
    cases takesPointer archiveVersion (pointer.characters + pointer.upperHalf)
      (legacy.characters + legacy.upperHalf)
    all_goals simp [hne, hne.symm]

end

/-- A block with the text `ab` and the name `c` under one layout, and two letters with no name under
the other. -/
def twofoldBlock (first second : UInt8) : List UInt8 :=
  List.replicate 16 0 ++ [0, 0, 0, 7] ++ List.replicate 9 0 ++ [2, 0, 0, 0] ++
    [0x61, 0x62, 1, 0x63] ++ List.replicate 0x43 0 ++ [0, 0x6A, first, second, 0]

theorem takesLonger_plain :
    decode? (twofoldBlock 0x68 0x69).toByteArray .pointer = some ⟨.pointer, 7, "hi", ""⟩ ∧
    decode? (twofoldBlock 0x68 0x69).toByteArray .legacy = some ⟨.legacy, 7, "ab", "c"⟩ ∧
    TakesLonger (twofoldBlock 0x68 0x69).toByteArray 0x4C7 ⟨.pointer, 7, "hi", ""⟩
      ⟨.legacy, 7, "ab", "c"⟩ := by
  have hpointer : decode? (twofoldBlock 0x68 0x69).toByteArray .pointer =
      some ⟨.pointer, 7, "hi", ""⟩ := by decide
  have hlegacy : decode? (twofoldBlock 0x68 0x69).toByteArray .legacy =
      some ⟨.legacy, 7, "ab", "c"⟩ := by decide
  exact ⟨hpointer, hlegacy, (takesLonger_iff 0x4C7 hpointer hlegacy).mpr (by decide)⟩

theorem detect?_accented :
    decode? (twofoldBlock 0xE9 0xE9).toByteArray .pointer = some ⟨.pointer, 7, "éé", ""⟩ ∧
    decode? (twofoldBlock 0xE9 0xE9).toByteArray .legacy = some ⟨.legacy, 7, "ab", "c"⟩ ∧
    detect? (twofoldBlock 0xE9 0xE9).toByteArray 0x4C7 = some (⟨.pointer, 7, "éé", ""⟩, true) ∧
    ¬TakesLonger (twofoldBlock 0xE9 0xE9).toByteArray 0x4C7 ⟨.pointer, 7, "éé", ""⟩
      ⟨.legacy, 7, "ab", "c"⟩ := by
  have hdetect : detect? (twofoldBlock 0xE9 0xE9).toByteArray 0x4C7 =
      some (⟨.pointer, 7, "éé", ""⟩, true) := by decide
  refine ⟨by decide, by decide, hdetect, fun h => ?_⟩
  have hlonger := h.legacy_longer (by decide)
  rw [hdetect] at hlonger
  exact absurd hlonger (by decide)

end ScriptInfo

end Shockwave
