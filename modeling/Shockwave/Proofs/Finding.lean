import Shockwave.Proofs.Opening

/-!
Where the container of a stream is found and what its header says, told by the stream alone. Neither
the place of the cursor nor its byte order before the search bears on them.
-/
namespace Shockwave

section

variable {data : ByteArray} {search : Bool} {offset : Nat}

theorem isMagicAt_of_firstMagic? {start : Nat} (h : firstMagic? data start = some offset) :
    isMagicAt data offset = true := by
  fun_induction firstMagic? data start with
  | case1 start hfits hmagic =>
    cases h
    exact hmagic
  | case2 start hfits hmagic ih => exact ih h
  | case3 start hfits => cases h

theorem isMagicAt_of_stubOffset? (h : stubOffset? data = some offset) :
    isMagicAt data offset = true := by
  unfold stubOffset? projectorOffset? at h
  split at h
  · exact List.find?_some h
  · cases h

theorem isMagicAt_of_container? (h : container? search data = some offset) :
    isMagicAt data offset = true := by
  unfold container? at h
  split at h
  next hstart =>
    cases h
    exact hstart
  next =>
    rcases Option.or_eq_some_iff.mp h with hstub | ⟨-, hsearch⟩
    · exact isMagicAt_of_stubOffset? hstub
    · split at hsearch
      · exact isMagicAt_of_firstMagic? hsearch
      · cases hsearch

end

/-- A header that the stream ends in is refused, with the byte order already taken on. -/
theorem readBlock_of_cut {s : Session} {offset : Nat} {order : ByteOrder}
    (h : magicOrder? (octets (s.cursor.data.extract offset (offset + 4))) = some order)
    (hcut : s.cursor.data.size < offset + 12) :
    readBlock offset s =
      .error (.headerCut offset) { s with cursor := ⟨s.cursor.data, offset + 4, order⟩ } := by
  have hmagic : isMagicAt s.cursor.data offset = true := by
    rw [isMagicAt, h]
    rfl
  have hfits := le_size_of_isMagicAt hmagic
  have hword : Decode.bytes 4 ⟨s.cursor.data, offset, s.cursor.order⟩ =
      .ok (s.cursor.data.extract offset (offset + 4))
        ⟨s.cursor.data, offset + 4, s.cursor.order⟩ := Decode.bytes_fits hfits
  unfold readBlock
  dsimp only
  rw [bind_ok (Step.readOr_ok (Decode.seek_ok (by omega))), bind_ok (Step.readOr_ok hword), h]
  dsimp only
  rw [bind_ok (Step.readOr_ok (Decode.setOrder_ok order))]
  exact bind_error (Step.readOr_error (Decode.require_error (by dsimp only; omega)))

namespace ByteOrder

theorem bigBytes_bigValue {width : Nat} {bytes : List UInt8} (h : bytes.length = width) :
    bigBytes width (bigValue bytes) = bytes := by
  induction width generalizing bytes with
  | zero =>
    rw [List.length_eq_zero_iff.mp h]
    rfl
  | succ width ih =>
    obtain rfl | ⟨front, byte, rfl⟩ := List.eq_nil_or_concat bytes
    · cases h
    · have hbyte := byte.toNat_lt
      have hfront : (bigValue front * 256 + byte.toNat) / 256 = bigValue front := by omega
      have hlast : UInt8.ofNat (bigValue front * 256 + byte.toNat) = byte := by
        apply UInt8.toNat_inj.mp
        rw [UInt8.toNat_ofNat']
        omega
      rw [List.concat_eq_append, bigValue_concat, bigBytes, hfront, ih (by simpa using h), hlast]

theorem bytes_value (order : ByteOrder) {width : Nat} {bytes : List UInt8}
    (h : bytes.length = width) : order.bytes width (order.value bytes) = bytes := by
  cases order with
  | big => exact bigBytes_bigValue h
  | little =>
    have hback : bigBytes width (bigValue bytes.reverse) = bytes.reverse :=
      bigBytes_bigValue (by rw [List.length_reverse, h])
    simp only [ByteOrder.bytes, value, hback, List.reverse_reverse]

theorem bytes_word (order : ByteOrder) {bytes : List UInt8} (h : bytes.length = 4) :
    order.bytes 4 (UInt32.ofNat (order.value bytes)).toNat = bytes := by
  have hlt := order.value_lt bytes
  rw [h] at hlt
  have hword : (UInt32.ofNat (order.value bytes)).toNat = order.value bytes :=
    UInt32.toNat_ofNat_of_lt hlt
  rw [hword, order.bytes_value h]

end ByteOrder

theorem Holds.of_fits {data : ByteArray} {pos width : Nat} (h : pos + width ≤ data.size) :
    ∃ bytes, Holds data pos bytes ∧ bytes.length = width := by
  have hlength := length_octets data
  refine ⟨((octets data).drop pos).take width, ⟨(octets data).take pos,
    ((octets data).drop pos).drop width, ?_, ?_⟩, ?_⟩
  · rw [List.append_assoc, List.take_append_drop, List.take_append_drop]
  · rw [List.length_take]
    omega
  · rw [List.length_take, List.length_drop]
    omega

theorem Holds.of_eq_extract {data : ByteArray} {pos width : Nat} {bytes : List UInt8}
    (h : octets (data.extract pos (pos + width)) = bytes) (hfits : pos + width ≤ data.size) :
    Holds data pos bytes := by
  obtain ⟨found, hfound, hlength⟩ := Holds.of_fits hfits
  rwa [← h, hfound.octets_extract (by rw [hlength])]

theorem Holds.append {data : ByteArray} {pos stop : Nat} {left right : List UInt8}
    (hleft : Holds data pos left) (hright : Holds data stop right)
    (hstop : stop = pos + left.length) : Holds data pos (left ++ right) := by
  obtain ⟨before, after, hdata, rfl⟩ := hleft
  obtain ⟨before', after', hdata', hlength⟩ := hright
  have hsplit : before ++ left ++ after = before' ++ (right ++ after') := by
    rw [← hdata, hdata', List.append_assoc]
  have hafter : after = right ++ after' :=
    (List.append_inj hsplit (by rw [List.length_append, hlength, hstop])).2
  exact ⟨before, after', by rw [hdata, hafter]; simp only [List.append_assoc], rfl⟩

theorem Holds.exists_word {data : ByteArray} {pos : Nat} (order : ByteOrder)
    (h : pos + 4 ≤ data.size) : ∃ n : UInt32, Holds data pos (order.bytes 4 n.toNat) := by
  obtain ⟨bytes, hbytes, hlength⟩ := Holds.of_fits h
  rw [← order.bytes_word hlength] at hbytes
  exact ⟨_, hbytes⟩

theorem Holds.word_unique {data : ByteArray} {pos width n n' : Nat} {order : ByteOrder}
    (h : Holds data pos (order.bytes width n)) (h' : Holds data pos (order.bytes width n'))
    (hn : n < ByteOrder.span width) (hn' : n' < ByteOrder.span width) : n = n' := by
  have hbytes := h.octets_extract rfl
  rw [ByteOrder.length_bytes, h'.octets_extract (by rw [ByteOrder.length_bytes])] at hbytes
  rw [← order.value_bytes_of_lt hn, ← hbytes, order.value_bytes_of_lt hn']

theorem magicOrder?_eq_some {word : List UInt8} {order : ByteOrder}
    (h : magicOrder? word = some order) : word = order.magic := by
  unfold magicOrder? at h
  split at h
  next hword =>
    cases h
    exact hword
  next =>
    split at h
    next hword =>
      cases h
      exact hword
    next => cases h

def headerWritten (order : ByteOrder) (declaredSize : UInt32) (codec : Tag) : List UInt8 :=
  order.magic ++ (order.bytes 4 declaredSize.toNat ++ codec.written order)

theorem Holds.exists_header {data : ByteArray} {offset : Nat} {order : ByteOrder}
    (h : magicOrder? (octets (data.extract offset (offset + 4))) = some order)
    (hfits : offset + 12 ≤ data.size) :
    ∃ declaredSize codec, Holds data offset (headerWritten order declaredSize codec) := by
  have hmagic : Holds data offset order.magic :=
    Holds.of_eq_extract (magicOrder?_eq_some h) (by omega)
  obtain ⟨declaredSize, hsize⟩ : ∃ n : UInt32, Holds data (offset + 4) (order.bytes 4 n.toNat) :=
    Holds.exists_word order (by omega)
  obtain ⟨codec, hcodec⟩ : ∃ n : UInt32, Holds data (offset + 8) (order.bytes 4 n.toNat) :=
    Holds.exists_word order (by omega)
  have hrest : Holds data (offset + 4)
      (order.bytes 4 declaredSize.toNat ++ Tag.written order ⟨codec⟩) :=
    hsize.append hcodec (by rw [ByteOrder.length_bytes])
  exact ⟨declaredSize, ⟨codec⟩, hmagic.append hrest (by rw [ByteOrder.length_magic])⟩

def headerBlock (offset : Nat) (order : ByteOrder) (declaredSize : UInt32) (codec : Tag) : Block :=
  { declaredSize, start := offset + 12, format := { codecTag := codec, order } }

theorem readBlock_of_header {s : Session} {offset : Nat} {order : ByteOrder}
    {declaredSize : UInt32} {codec : Tag}
    (h : Holds s.cursor.data offset (headerWritten order declaredSize codec)) :
    readBlock offset s = .ok (headerBlock offset order declaredSize codec)
      { s with
        cursor := ⟨s.cursor.data, offset + 12, order⟩
        notes := s.notes ++ headerNotes codec } := by
  rw [readBlock_ok h, UInt32.ofNat_toNat]
  rfl

namespace Movie

theorem orFail_error {α : Type} {step : Step OpenError α} {s t : Session} {e : OpenError}
    (h : step s = .error e t) : orFail step s = .error (.failed e) t := by
  unfold orFail EStateM.adaptExcept
  rw [h]

def readRest (options : Options) (offset : Nat) (fileName : String) (block : Block) :
    Step Halt Movie := do
  let resources := (← get).resources.entries
  Step.note (.movieMapped fileName block.format.label block.format.archiveVersion resources.length)
  let scripts ← ScriptEntry.collect block.format.archiveVersion options.decodeText
  let scopes ← Scope.collect
  let s ← get
  return { fileName, offset, block, resources := s.resources.entries, links := s.resources.links,
           compressions := s.compressions.descriptors, archive := s.archive, scripts, scopes,
           lineEnding := options.lineEnding }

def readOn (options : Options) (offset : Nat) (header : Block) : Step Halt Movie := do
  let fileName := (← get).fileName
  Step.note (.containerFound fileName offset header.format.codecTag header.declaredSize)
  readRest options offset fileName (← readMap header)

theorem readFrom_eq_steps (options : Options) :
    readFrom options = (do
      modify Session.reset
      let offset ← orFail (locate options.search)
      modify fun s => { s with offset }
      let header ← orFail (readBlock offset)
      readOn options offset header) :=
  rfl

section

variable {options : Options} {s : Session} {offset : Nat} {order : ByteOrder}

theorem readFrom_of_small (h : s.cursor.data.size < headerSize) :
    readFrom options s = .error (.failed .streamTooSmall) s.reset := by
  rw [readFrom_eq_steps, modify_bind]
  exact bind_error (orFail_error (locate_of_small (s := s.reset) h options.search))

theorem readFrom_of_absent (hsize : headerSize ≤ s.cursor.data.size)
    (h : container? options.search s.cursor.data = none) :
    readFrom options s = .error (.failed .containerNotFound)
      (s.reset.noting (findingNotes s.cursor.data)) := by
  have hlocate := locate_eq (s := s.reset) hsize options.search
  have hnone : container? options.search s.reset.cursor.data = none := h
  rw [hnone] at hlocate
  rw [readFrom_eq_steps, modify_bind]
  exact bind_error (orFail_error hlocate)

theorem readFrom_of_found (hsize : headerSize ≤ s.cursor.data.size)
    (h : container? options.search s.cursor.data = some offset) :
    readFrom options s = (do
      let header ← orFail (readBlock offset)
      readOn options offset header)
      { s.reset.noting (findingNotes s.cursor.data) with offset } := by
  have hlocate := locate_eq (s := s.reset) hsize options.search
  have hsome : container? options.search s.reset.cursor.data = some offset := h
  rw [hsome] at hlocate
  rw [readFrom_eq_steps, modify_bind, bind_ok (orFail_ok hlocate), modify_bind]
  rfl

theorem readFrom_of_cut (hsize : headerSize ≤ s.cursor.data.size)
    (h : container? options.search s.cursor.data = some offset)
    (hcut : s.cursor.data.size < offset + 12) :
    ∃ t, readFrom options s = .error (.failed (.headerCut offset)) t := by
  obtain ⟨order, horder⟩ := exists_magicOrder?_of_isMagicAt (isMagicAt_of_container? h)
  rw [readFrom_of_found hsize h]
  exact ⟨_, bind_error (orFail_error (readBlock_of_cut horder hcut))⟩

def opened (fileName : String) (data : ByteArray) (offset : Nat) (order : ByteOrder)
    (notes : List Note) : Session :=
  { fileName, cursor := ⟨data, offset + 12, order⟩, offset, notes }

theorem readFrom_of_header (hsize : headerSize ≤ s.cursor.data.size)
    (h : container? options.search s.cursor.data = some offset) {declaredSize : UInt32}
    {codec : Tag} (hheader : Holds s.cursor.data offset (headerWritten order declaredSize codec)) :
    readFrom options s = readOn options offset (headerBlock offset order declaredSize codec)
      (opened s.fileName s.cursor.data offset order
        (s.notes ++ findingNotes s.cursor.data ++ headerNotes codec)) := by
  rw [readFrom_of_found hsize h]
  exact bind_ok (orFail_ok (readBlock_of_header hheader))

end

end Movie
end Shockwave
