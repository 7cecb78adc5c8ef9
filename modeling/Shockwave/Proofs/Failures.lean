import Shockwave.Proofs.ArchiveReading
import Shockwave.Proofs.CheckedMovies
import Shockwave.Proofs.Finding
import Shockwave.Proofs.Locating

/-!
How opening a movie ends without one. A stream can be too short, hold no container or be cut in the
header; past the header only the map of an archive is ever refused, so the opening of any other
movie succeeds whatever the rest of its bytes are, and no check fails on the way.
-/
namespace Shockwave

section

variable {ε σ α β : Type} {allowed : ε → Prop}

def Raises (allowed : ε → Prop) (step : EStateM ε σ α) : Prop :=
  ∀ s e t, step s = .error e t → allowed e

theorem raises_pure (a : α) : Raises allowed (pure a : EStateM ε σ α) := by
  intro s e t h
  cases h

theorem raises_get : Raises allowed (get : EStateM ε σ σ) := by
  intro s e t h
  cases h

theorem raises_modify (f : σ → σ) : Raises allowed (modify f : EStateM ε σ PUnit) := by
  intro s e t h
  cases h

theorem raises_throw {e : ε} (he : allowed e) : Raises allowed (throw e : EStateM ε σ α) := by
  intro s e' t h
  cases h
  exact he

theorem raises_bind {step : EStateM ε σ α} {rest : α → EStateM ε σ β} (hstep : Raises allowed step)
    (hrest : ∀ a, Raises allowed (rest a)) : Raises allowed (step >>= rest) := by
  intro s e u h
  cases hs : step s with
  | ok a t =>
    rw [bind_ok hs] at h
    exact hrest a t e u h
  | error e' t =>
    rw [bind_error hs] at h
    cases h
    exact hstep s e u hs

theorem raises_ite {condition : Prop} [Decidable condition] {yes no : EStateM ε σ α}
    (hyes : Raises allowed yes) (hno : Raises allowed no) :
    Raises allowed (if condition then yes else no) := by
  split
  · exact hyes
  · exact hno

theorem Raises.mono {allowed' : ε → Prop} {step : EStateM ε σ α} (h : Raises allowed step)
    (himp : ∀ e, allowed e → allowed' e) : Raises allowed' step :=
  fun s e t hs => himp e (h s e t hs)

end

namespace Step

variable {ε α : Type} {allowed : ε → Prop}

theorem raises_of_quiet {step : Step ε α} (h : Quiet step) : Raises allowed step := by
  intro s e t hs
  obtain ⟨a, u, hu, -⟩ := h s
  rw [hs] at hu
  cases hu

theorem raises_note (n : Note) : Raises allowed (note n : Step ε Unit) := raises_modify _

theorem raises_noteAll (ns : List Note) : Raises allowed (noteAll ns : Step ε Unit) :=
  raises_modify _

theorem raises_attempt (read : Decode α) : Raises allowed (attempt read : Step ε _) := by
  intro s e t h
  rw [attempt_eq] at h
  cases h

theorem raises_readOr {failure : ReadError → ε} (hfailure : ∀ cause, allowed (failure cause))
    (read : Decode α) : Raises allowed (readOr failure read) := by
  refine raises_bind (raises_attempt read) fun result => ?_
  cases result with
  | ok a => exact raises_pure a
  | error cause => exact raises_throw (hfailure cause)

theorem raises_register (e : Entry) : Raises allowed (register e : Step ε Unit) :=
  raises_bind raises_get fun _ => raises_bind (raises_noteAll _) fun _ => raises_modify _

theorem raises_describe (d : Descriptor) : Raises allowed (describe d : Step ε Unit) :=
  raises_bind raises_get fun _ => raises_bind (raises_noteAll _) fun _ => raises_modify _

end Step

inductive Halt.BadMap : Halt → Prop where
  | unexpected (expected found : Tag) : BadMap (.failed (.unexpectedChunk expected found))
  | absent : BadMap (.failed .initialSegmentAbsent)
  | unreadable (cause : ReadError) : BadMap (.failed (.unreadable cause))

namespace Archive

variable {α : Type}

theorem raises_readAs (read : Decode α) : Raises Halt.BadMap (readAs read) :=
  Step.raises_readOr Halt.BadMap.unreadable read

theorem raises_require (outcome : Except ReadError α) :
    Raises Halt.BadMap (require outcome) := by
  cases outcome with
  | ok a => exact raises_pure a
  | error cause => exact raises_throw (.unreadable cause)

theorem raises_expect (tag : Tag) : Raises Halt.BadMap (expect tag) :=
  raises_bind (raises_readAs _) fun _ =>
    raises_ite (raises_throw (.unexpected _ _)) (raises_pure ())

theorem raises_describeAll (readName : NameReader) (index : Nat) (c : Cursor)
    (identifiers : List ByteArray) :
    Raises (· = .broken) (describeAll readName index c identifiers) := by
  induction identifiers generalizing index c with
  | nil => exact raises_ite (raises_pure ()) (Step.raises_note _)
  | cons identifier rest ih =>
    unfold describeAll
    split
    · exact raises_throw rfl
    · have hrest (c : Cursor) (d : Descriptor) :
          Raises (· = Halt.broken) (do Step.describe d; describeAll readName (index + 1) c rest) :=
        raises_bind (Step.raises_describe d) fun _ => ih (index + 1) c
      exact raises_ite (raises_bind (Step.raises_note _) fun _ => hrest _ _) (hrest _ _)

theorem raises_registerRows (c : Cursor) (count : Nat) :
    Raises Halt.BadMap (registerRows c count) := by
  induction count generalizing c with
  | zero => exact raises_pure ()
  | succ count ih =>
    unfold registerRows
    split
    · exact raises_throw (.unreadable _)
    · exact raises_bind (Step.raises_register _) fun _ => ih _

theorem raises_readRows (data : ByteArray) (order : ByteOrder) :
    Raises Halt.BadMap (readRows data order) := by
  unfold readRows
  split
  · exact raises_throw (.unreadable _)
  · exact raises_bind (Step.raises_note _) fun _ => raises_registerRows _ _

theorem raises_readSegments (data : ByteArray) (order : ByteOrder) :
    Raises Halt.BadMap (readSegments data order) :=
  raises_bind raises_get fun _ => raises_bind (raises_modify _) fun _ => Step.raises_noteAll _

theorem raises_readMapBody : Raises Halt.BadMap readMapBody := by
  refine raises_bind (raises_readAs _) fun length => ?_
  refine raises_bind raises_get fun s => ?_
  refine raises_bind (raises_readAs _) fun mode => ?_
  refine raises_bind (raises_readAs _) fun fullLength => ?_
  refine raises_bind raises_get fun t => ?_
  refine raises_bind (raises_readAs _) fun stored => ?_
  have hend (rows : ByteArray) : Raises Halt.BadMap (do
      if rows.size ≠ fullLength.toNat then
        Step.note (.archiveLength fullLength.toNat rows.size)
      return rows : Step Halt ByteArray) :=
    raises_ite (raises_bind (Step.raises_note _) fun _ => raises_pure _) (raises_pure _)
  exact raises_ite (raises_bind (raises_pure _) hend) (raises_bind (raises_require _) hend)

theorem raises_readMapPart (order : ByteOrder) : Raises Halt.BadMap (readMapPart order) :=
  raises_bind (raises_expect _) fun _ => raises_bind raises_readMapBody fun _ => raises_readRows _ _

theorem raises_readSegmentPart (version : UInt32) (versionText : Option String)
    (order : ByteOrder) : Raises Halt.BadMap (readSegmentPart version versionText order) := by
  refine raises_bind (raises_expect _) fun _ => ?_
  refine raises_bind (raises_readAs _) fun _ => ?_
  refine raises_bind raises_get fun s => raises_bind raises_get fun t => ?_
  split
  · exact raises_throw .absent
  · refine raises_bind (raises_readAs _) fun stored => ?_
    refine raises_bind (raises_require _) fun segment => ?_
    exact raises_bind (raises_readSegments _ _) fun _ => raises_pure _

theorem raises_inSession {allowed : Halt → Prop} {step : Step Halt α} (h : Raises allowed step) :
    Raises allowed (inSession step) := by
  intro o e p hs
  unfold inSession at hs
  split at hs
  · cases hs
  next hstep =>
    cases hs
    exact h _ _ _ hstep

theorem raises_readVersion : Raises Halt.BadMap readVersion := by
  have hread {α : Type} (read : Decode α) : Raises Halt.BadMap (inSession (readAs read)) :=
    raises_inSession (raises_readAs read)
  rw [readVersion_eq_steps]
  refine raises_bind (raises_inSession (raises_expect _)) fun _ => ?_
  refine raises_bind (hread _) fun length => ?_
  refine raises_bind raises_get fun o => ?_
  refine raises_bind (hread _) fun version => ?_
  have hversions : Raises Halt.BadMap (readVersions version) := by
    refine raises_ite (raises_bind (hread _) fun _ => ?_) (raises_pure ())
    exact raises_bind (raises_modify _) fun _ => raises_bind (hread _) fun _ => raises_modify _
  have htext : Raises Halt.BadMap (readVersionText version) := by
    refine raises_ite ?_ (raises_pure none)
    rw [map_eq_pure_bind]
    exact raises_bind (hread _) fun _ => raises_pure _
  refine raises_bind hversions fun _ => raises_bind htext fun text => ?_
  refine raises_bind (raises_bind raises_get fun p => raises_ite ?_ (raises_pure ()))
    fun _ => raises_pure _
  exact raises_bind (raises_inSession (Step.raises_note _)) fun _ => hread _

def Refuses (halt : Halt) : Prop := halt.BadMap ∨ halt = .broken

theorem raises_readSchemePart (order : ByteOrder) : Raises Refuses (readSchemePart order) := by
  refine raises_bind ((raises_expect _).mono fun _ => .inl) fun _ => ?_
  refine raises_bind ((raises_readAs _).mono fun _ => .inl) fun length => ?_
  refine raises_bind ((raises_readAs _).mono fun _ => .inl) fun table => ?_
  unfold readDescriptors
  split
  · exact raises_throw (.inl (.unreadable _))
  · exact (raises_describeAll _ _ _ _).mono fun _ => .inr

theorem raises_readTables (version : UInt32) (versionText : Option String) :
    Raises Refuses (readTables version versionText) := by
  rw [readTables]
  refine raises_bind raises_get fun s => ?_
  refine raises_bind (raises_readSchemePart _) fun _ => ?_
  refine raises_bind ((raises_readMapPart _).mono fun _ => .inl) fun _ => ?_
  exact (raises_readSegmentPart _ _ _).mono fun _ => .inl

theorem raises_readWhole (start : Nat) : Raises Refuses (readWhole start) := by
  refine raises_bind ((raises_inSession (raises_readAs _)).mono fun _ => .inl) fun _ => ?_
  refine raises_bind (raises_readVersion.mono fun _ => .inl) fun _ => ?_
  exact raises_inSession (raises_readTables _ _)

end Archive

namespace Movie

theorem readMap_of_archive {block : Block} (h : block.format.codec.isArchive = true) (s : Session) :
    readMap block s =
      match Archive.readWhole block.start { session := s, block } with
      | .ok archive o => .ok o.block { o.session with archive := some archive }
      | .error halt o => .error halt o.session := by
  unfold readMap
  rw [if_pos h]
  simp only [bind, EStateM.bind, Archive.read_eq_whole]
  cases Archive.readWhole block.start { session := s, block } <;> rfl

theorem readMap_of_classic {block : Block} (h : block.format.codec.isArchive = false)
    (s : Session) :
    ∃ format t, readMap block s = .ok { block with format } t := by
  obtain ⟨t, ht, -⟩ := ClassicMap.read_eq (ε := Halt) block s
  unfold readMap
  rw [if_neg (by simp [h]), bind_ok ht]
  exact ⟨_, _, rfl⟩

theorem raises_readMap (block : Block) : Raises Archive.Refuses (readMap block) := by
  intro s e t hs
  cases harchive : block.format.codec.isArchive with
  | false =>
    obtain ⟨format, u, hu⟩ := readMap_of_classic harchive s
    rw [hs] at hu
    cases hu
  | true =>
    rw [readMap_of_archive harchive] at hs
    split at hs
    · cases hs
    next hwhole =>
      cases hs
      exact Archive.raises_readWhole _ _ _ _ hwhole

theorem raises_readRest {allowed : Halt → Prop} (options : Options) (offset : Nat)
    (fileName : String) (block : Block) :
    Raises allowed (readRest options offset fileName block) := by
  refine raises_bind raises_get fun s => raises_bind (Step.raises_note _) fun _ => ?_
  refine raises_bind (Step.raises_of_quiet (ScriptEntry.quiet_collect _ _)) fun scripts => ?_
  refine raises_bind (Step.raises_of_quiet Scope.quiet_collect) fun scopes => ?_
  exact raises_bind raises_get fun t => raises_pure _

theorem raises_readOn (options : Options) (offset : Nat) (header : Block) :
    Raises Archive.Refuses (readOn options offset header) := by
  refine raises_bind raises_get fun s => raises_bind (Step.raises_note _) fun _ => ?_
  exact raises_bind (raises_readMap header) fun block => raises_readRest _ _ _ block

section

variable {fileName : String} {data : ByteArray} {options : Options} {offset : Nat}

theorem read_of_ok {movie : Movie} {t : Session}
    (h : readFrom options (.ofBytes fileName data) = .ok movie t) :
    read fileName data options = .ok movie := by
  unfold read
  rw [h]

theorem read_of_error {halt : Halt} {t : Session}
    (h : readFrom options (.ofBytes fileName data) = .error halt t) :
    read fileName data options = .error halt := by
  unfold read
  rw [h]

/-- The ways in which opening a stream can go. -/
inductive Course (fileName : String) (data : ByteArray) (options : Options) : Prop where
  | small (hsize : data.size < headerSize)
      (hread : read fileName data options = .error (.failed .streamTooSmall))
  | absent (hsize : headerSize ≤ data.size) (hfound : container? options.search data = none)
      (hread : read fileName data options = .error (.failed .containerNotFound))
  | cut (offset : Nat) (hsize : headerSize ≤ data.size)
      (hfound : container? options.search data = some offset) (hcut : data.size < offset + 12)
      (hread : read fileName data options = .error (.failed (.headerCut offset)))
  | header (offset : Nat) (order : ByteOrder) (declaredSize : UInt32) (codec : Tag)
      (hsize : headerSize ≤ data.size) (hfound : container? options.search data = some offset)
      (hheader : Holds data offset (headerWritten order declaredSize codec))

theorem course (fileName : String) (data : ByteArray) (options : Options) :
    Course fileName data options := by
  rcases Nat.lt_or_ge data.size headerSize with hsmall | hsize
  · exact .small hsmall (read_of_error (readFrom_of_small hsmall))
  cases hfound : container? options.search data with
  | none => exact .absent hsize hfound (read_of_error (readFrom_of_absent hsize hfound))
  | some offset =>
    rcases Nat.lt_or_ge data.size (offset + 12) with hcut | hfits
    · obtain ⟨t, ht⟩ := readFrom_of_cut (s := .ofBytes fileName data) hsize hfound hcut
      exact .cut offset hsize hfound hcut (read_of_error ht)
    · obtain ⟨order, horder⟩ := exists_magicOrder?_of_isMagicAt (isMagicAt_of_container? hfound)
      obtain ⟨declaredSize, codec, hheader⟩ := Holds.exists_header horder hfits
      exact .header offset order declaredSize codec hsize hfound hheader

theorem exists_locate_iff (hsize : headerSize ≤ data.size) :
    (∃ t, locate options.search (.ofBytes fileName data) = .ok offset t) ↔
      container? options.search data = some offset := by
  have hlocate := locate_eq (s := .ofBytes fileName data) hsize options.search
  have hdata : (Session.ofBytes fileName data).cursor.data = data := rfl
  rw [hlocate, hdata]
  cases container? options.search data <;> simp

theorem refuses_of_header {order : ByteOrder} {declaredSize : UInt32} {codec : Tag}
    (hsize : headerSize ≤ data.size) (hfound : container? options.search data = some offset)
    (hheader : Holds data offset (headerWritten order declaredSize codec)) {halt : Halt}
    (hread : read fileName data options = .error halt) : Archive.Refuses halt := by
  unfold read at hread
  split at hread
  · cases hread
  next t hrun =>
    cases hread
    have hfrom := readFrom_of_header (s := .ofBytes fileName data) hsize hfound hheader
    exact raises_readOn _ _ _ _ _ _ (hfrom.symm.trans hrun)

/-- What is known of a movie once the header of its container is. The translation of its scripts,
read from whatever bytes, stays in range. -/
structure Follows (movie : Movie) (offset : Nat) (declaredSize : UInt32) : Prop where
  offset_eq : movie.offset = offset
  start_eq : movie.block.start = offset + 12
  stop_eq : movie.block.stop = movie.block.start + declaredSize.toNat
  sourceChecked_eq : ∀ script ∈ movie.scripts,
    movie.sourceChecked script = some (movie.source? script)

theorem read_of_classic {order : ByteOrder} {declaredSize : UInt32} {codec : Tag}
    (hsize : headerSize ≤ data.size) (hfound : container? options.search data = some offset)
    (hheader : Holds data offset (headerWritten order declaredSize codec))
    (hcodec : Tag.ofText? "FGDM" ≠ some codec ∧ Tag.ofText? "FGDC" ≠ some codec) :
    ∃ movie, read fileName data options = .ok movie ∧ movie.Follows offset declaredSize := by
  have hlocate := locate_eq (s := (Session.ofBytes fileName data).reset) hsize options.search
  have hdata : (Session.ofBytes fileName data).reset.cursor.data = data := rfl
  rw [hdata, hfound] at hlocate
  have hclassic : (headerBlock offset order declaredSize codec).format.codec.isArchive = false :=
    Codec.isArchive_ofTag hcodec
  obtain ⟨format, v, hmap⟩ := readMap_of_classic hclassic _
  obtain ⟨movie, w, hread, -, hoffset, hblock, -⟩ :=
    readFrom_of_readMap hlocate (readBlock_of_header hheader) hmap
  refine ⟨movie, read_of_ok hread, hoffset, ?_, ?_, fun script _ => movie.sourceChecked_eq script⟩
  · rw [hblock]
    rfl
  · rw [hblock]
    rfl

theorem read_small_iff :
    read fileName data options = .error (.failed .streamTooSmall) ↔ data.size < headerSize := by
  constructor
  · intro hread
    cases course fileName data options with
    | small hsmall => exact hsmall
    | absent _ _ hother => rw [hread] at hother; cases hother
    | cut _ _ _ _ hother => rw [hread] at hother; cases hother
    | header _ _ _ _ hsize hfound hheader =>
      rcases refuses_of_header hsize hfound hheader hread with h | h <;> cases h
  · intro hsmall
    exact read_of_error (readFrom_of_small hsmall)

theorem read_absent_iff (hsize : headerSize ≤ data.size) :
    read fileName data options = .error (.failed .containerNotFound) ↔
      container? options.search data = none := by
  constructor
  · intro hread
    cases course fileName data options with
    | small hsmall => omega
    | absent _ hfound => exact hfound
    | cut _ _ _ _ hother => rw [hread] at hother; cases hother
    | header _ _ _ _ _ hfound hheader =>
      rcases refuses_of_header hsize hfound hheader hread with h | h <;> cases h
  · intro hfound
    exact read_of_error (readFrom_of_absent hsize hfound)

theorem read_cut_iff (hsize : headerSize ≤ data.size)
    (hfound : container? options.search data = some offset) :
    read fileName data options = .error (.failed (.headerCut offset)) ↔
      data.size < offset + 12 := by
  constructor
  · intro hread
    cases course fileName data options with
    | small hsmall => omega
    | absent _ hnone => rw [hfound] at hnone; cases hnone
    | cut place _ hplace hcut => rw [hfound] at hplace; cases hplace; exact hcut
    | header _ _ _ _ _ hplace hheader =>
      rcases refuses_of_header hsize hplace hheader hread with h | h <;> cases h
  · intro hcut
    obtain ⟨t, ht⟩ := readFrom_of_cut (s := .ofBytes fileName data) hsize hfound hcut
    exact read_of_error ht

/-- Why a stream is refused, as far as it is not for its archive: the first of three conditions that
it meets. What meets none and is no archive is opened, whatever its other bytes are. With all places
checked the reading goes the same way. -/
theorem read_outcome (fileName : String) (data : ByteArray) (options : Options) :
    readChecked fileName data options = (read fileName data options).mapError .failed ∧
    (read fileName data options = .error (.failed .streamTooSmall) ↔ data.size < headerSize) ∧
    (headerSize ≤ data.size →
      (read fileName data options = .error (.failed .containerNotFound) ↔
        ¬∃ offset t, locate options.search (.ofBytes fileName data) = .ok offset t) ∧
      ∀ offset t, locate options.search (.ofBytes fileName data) = .ok offset t →
        (read fileName data options = .error (.failed (.headerCut offset)) ↔
          data.size < offset + 12) ∧
        (offset + 12 ≤ data.size → ∃ order declaredSize codec,
          Holds data offset (headerWritten order declaredSize codec)) ∧
        ∀ order declaredSize codec, Holds data offset (headerWritten order declaredSize codec) →
          Tag.ofText? "FGDM" ≠ some codec ∧ Tag.ofText? "FGDC" ≠ some codec →
          ∃ movie, read fileName data options = .ok movie ∧ movie.Follows offset declaredSize) := by
  refine ⟨readChecked_eq fileName data options, read_small_iff, fun hsize => ⟨?_, ?_⟩⟩
  · simp only [read_absent_iff hsize, exists_locate_iff hsize, Option.eq_none_iff_forall_ne_some,
      not_exists, ne_eq]
  · intro offset t hlocate
    have hfound := (exists_locate_iff hsize).mp ⟨t, hlocate⟩
    refine ⟨read_cut_iff hsize hfound, fun hfits => ?_, ?_⟩
    · obtain ⟨order, horder⟩ := exists_magicOrder?_of_isMagicAt (isMagicAt_of_container? hfound)
      exact ⟨order, Holds.exists_header horder hfits⟩
    · intro order declaredSize codec hheader hcodec
      exact read_of_classic hsize hfound hheader hcodec

/-- A container behind three stray bytes, which ends in the tag of its first chunk. -/
def strayMovie : List UInt8 :=
  [0x4D, 0x5A, 0x90] ++ headerWritten .little 0x10 ⟨0x4D563933⟩ ++ [0x70, 0x61]

theorem read_strayMovie :
    ∃ movie, readChecked "stray.dir" strayMovie.toByteArray {} = .ok movie ∧
      read "stray.dir" strayMovie.toByteArray {} = .ok movie ∧ movie.Follows 3 0x10 := by
  have hheader : Holds strayMovie.toByteArray 3 (headerWritten .little 0x10 ⟨0x4D563933⟩) :=
    Holds.of_append [0x4D, 0x5A, 0x90] _ _
  have hlocate : locate true (.ofBytes "stray.dir" strayMovie.toByteArray) = .ok 3 _ :=
    locate_of_search (by decide) (by decide) (by decide) (by decide) (by decide) (by decide)
  obtain ⟨hchecked, -, houtcome⟩ := read_outcome "stray.dir" strayMovie.toByteArray {}
  obtain ⟨-, -, hopened⟩ := (houtcome (by decide)).2 3 _ hlocate
  obtain ⟨movie, hread, hfollows⟩ := hopened _ _ _ hheader mv93_not_archive
  refine ⟨movie, ?_, hread, hfollows⟩
  rw [hchecked, hread]
  rfl

end

end Movie
end Shockwave
