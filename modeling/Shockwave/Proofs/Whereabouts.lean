import Shockwave.Proofs.Finding

/-!
Where a container is looked for, told by the words that stand in the stream. The search follows this
rule to the letter and leaves the cursor as it was.
-/
namespace Shockwave

def MagicAt (data : ByteArray) (offset : Nat) : Prop :=
  ∃ order : ByteOrder, Holds data offset order.magic

def StubStores (data : ByteArray) (order : ByteOrder) (offset : UInt32) : Prop :=
  ∃ marker ∈ projectorMarkers, Holds data 0 (marker ++ order.bytes 4 offset.toNat)

/-- A projector stub leads to a magic word. The little-endian reading of its offset comes first. -/
inductive StubLeads (data : ByteArray) : Nat → Prop where
  | little (offset : UInt32) (stored : StubStores data .little offset)
      (magic : MagicAt data offset.toNat) : StubLeads data offset.toNat
  | big (offset : UInt32)
      (missed : ∀ other, StubStores data .little other → ¬MagicAt data other.toNat)
      (stored : StubStores data .big offset) (magic : MagicAt data offset.toNat) :
      StubLeads data offset.toNat

/-- The offset of the container: the start of the stream, else where a stub leads, else the least
offset of a magic word, if the whole stream may be searched. -/
inductive Located (data : ByteArray) (search : Bool) : Nat → Prop where
  | start (magic : MagicAt data 0) : Located data search 0
  | stub {offset : Nat} (later : ¬MagicAt data 0) (leads : StubLeads data offset) :
      Located data search offset
  | searched {offset : Nat} (later : ¬MagicAt data 0) (alone : ∀ other, ¬StubLeads data other)
      (allowed : search = true) (past : 1 ≤ offset) (magic : MagicAt data offset)
      (least : ∀ other, 1 ≤ other → MagicAt data other → offset ≤ other) :
      Located data search offset

section

variable {data : ByteArray} {offset start : Nat} {search : Bool}

theorem isMagicAt_iff : isMagicAt data offset = true ↔ MagicAt data offset := by
  constructor
  · intro h
    obtain ⟨order, horder⟩ := exists_magicOrder?_of_isMagicAt h
    exact ⟨order, Holds.of_eq_extract (magicOrder?_eq_some horder) (le_size_of_isMagicAt h)⟩
  · rintro ⟨order, hmagic⟩
    rw [isMagicAt, hmagic.octets_extract (by simp), magicOrder?_magic]
    rfl

instance : DecidablePred (MagicAt data) := fun _ => decidable_of_iff _ isMagicAt_iff

theorem MagicAt.fits (h : MagicAt data offset) : offset + 4 ≤ data.size :=
  le_size_of_isMagicAt (isMagicAt_iff.mpr h)

theorem firstMagic?_eq_none_iff :
    firstMagic? data start = none ↔ ∀ other, start ≤ other → ¬MagicAt data other := by
  fun_induction firstMagic? data start with
  | case1 start hfits hmagic =>
    simp only [reduceCtorEq, false_iff]
    intro hnone
    exact hnone start (Nat.le_refl start) (isMagicAt_iff.mp hmagic)
  | case2 start hfits hmagic ih =>
    rw [ih]
    constructor
    · intro hnone other hother hat
      rcases Nat.lt_or_eq_of_le hother with hlt | rfl
      · exact hnone other hlt hat
      · exact hmagic (isMagicAt_iff.mpr hat)
    · intro hnone other hother
      exact hnone other (by omega)
  | case3 start hfits =>
    simp only [true_iff]
    intro other hother hat
    have hroom := hat.fits
    omega

theorem firstMagic?_eq_some_iff :
    firstMagic? data start = some offset ↔ start ≤ offset ∧ MagicAt data offset ∧
      ∀ other, start ≤ other → MagicAt data other → offset ≤ other := by
  fun_induction firstMagic? data start with
  | case1 start hfits hmagic =>
    have hat := isMagicAt_iff.mp hmagic
    constructor
    · rintro ⟨⟩
      exact ⟨Nat.le_refl _, hat, fun other hother _ => hother⟩
    · rintro ⟨hstart, -, hleast⟩
      rw [Nat.le_antisymm hstart (hleast start (Nat.le_refl start) hat)]
  | case2 start hfits hmagic ih =>
    have hskip {other : Nat} (hat : MagicAt data other) : start ≤ other ↔ start + 1 ≤ other := by
      constructor
      · intro hle
        rcases Nat.lt_or_eq_of_le hle with hlt | rfl
        · exact hlt
        · exact absurd (isMagicAt_iff.mpr hat) hmagic
      · omega
    rw [ih]
    constructor
    · rintro ⟨hstart, hat, hleast⟩
      exact ⟨by omega, hat, fun other hother hmore => hleast other ((hskip hmore).mp hother) hmore⟩
    · rintro ⟨hstart, hat, hleast⟩
      exact ⟨(hskip hat).mp hstart, hat, fun other hother => hleast other (by omega)⟩
  | case3 start hfits =>
    simp only [reduceCtorEq, false_iff]
    rintro ⟨hstart, hat, -⟩
    have hroom := hat.fits
    omega

theorem length_of_mem_projectorMarkers {marker : List UInt8} (h : marker ∈ projectorMarkers) :
    marker.length = 4 := by
  have hall : ∀ marker ∈ projectorMarkers, marker.length = 4 := by decide
  exact hall marker h

def storedOffset (data : ByteArray) (order : ByteOrder) : Nat :=
  order.value (octets (data.extract 4 8))

theorem stubStores_iff (hsize : 8 ≤ data.size) {order : ByteOrder} {stored : UInt32} :
    StubStores data order stored ↔
      octets (data.extract 0 4) ∈ projectorMarkers ∧ storedOffset data order = stored.toNat := by
  unfold storedOffset
  constructor
  · rintro ⟨marker, hmarker, hholds⟩
    have hlength := length_of_mem_projectorMarkers hmarker
    have hword := hholds.append_right
    rw [hlength, Nat.zero_add] at hword
    rw [hholds.append_left.octets_extract (by omega),
      hword.octets_extract (by rw [ByteOrder.length_bytes])]
    exact ⟨hmarker, order.value_bytes_of_lt stored.toNat_lt⟩
  · rintro ⟨hmarker, hvalue⟩
    have hfront : 0 + 4 ≤ data.size := by omega
    have hroom : 4 + 4 ≤ data.size := hsize
    obtain ⟨marker, hhead, hwidth⟩ := Holds.of_fits hfront
    obtain ⟨bytes, hword, hlength⟩ := Holds.of_fits hroom
    rw [hhead.octets_extract (by omega)] at hmarker
    rw [hword.octets_extract (by omega)] at hvalue
    rw [← order.bytes_value hlength, hvalue] at hword
    exact ⟨marker, hmarker, hhead.append hword (by omega)⟩

theorem toNat_storedOffset (data : ByteArray) (order : ByteOrder) :
    (UInt32.ofNat (storedOffset data order)).toNat = storedOffset data order :=
  UInt32.toNat_ofNat_of_lt (ChunkHead.value_extract_lt data order 4)

theorem stubStores_storedOffset (hsize : 8 ≤ data.size)
    (hmarker : octets (data.extract 0 4) ∈ projectorMarkers) (order : ByteOrder) :
    StubStores data order (.ofNat (storedOffset data order)) :=
  (stubStores_iff hsize).mpr ⟨hmarker, (toNat_storedOffset data order).symm⟩

/-- The two readings of the stored offset, the second only where the first leads nowhere. -/
theorem stubLeads_iff (hsize : 8 ≤ data.size) :
    StubLeads data offset ↔ octets (data.extract 0 4) ∈ projectorMarkers ∧
      MagicAt data offset ∧ (offset = storedOffset data .little ∨
        ¬MagicAt data (storedOffset data .little) ∧ offset = storedOffset data .big) := by
  constructor
  · rintro (⟨stored, hstored, hmagic⟩ | ⟨stored, hmissed, hstored, hmagic⟩)
    · obtain ⟨hmarker, hvalue⟩ := (stubStores_iff hsize).mp hstored
      exact ⟨hmarker, hmagic, .inl hvalue.symm⟩
    · obtain ⟨hmarker, hvalue⟩ := (stubStores_iff hsize).mp hstored
      have hlittle := hmissed _ (stubStores_storedOffset hsize hmarker .little)
      rw [toNat_storedOffset] at hlittle
      exact ⟨hmarker, hmagic, .inr ⟨hlittle, hvalue.symm⟩⟩
  · rintro ⟨hmarker, hmagic, hoffset⟩
    have hstores := stubStores_storedOffset hsize hmarker
    rcases hoffset with rfl | ⟨hmissed, rfl⟩
    · rw [← toNat_storedOffset] at hmagic ⊢
      exact .little _ (hstores .little) hmagic
    · rw [← toNat_storedOffset data .big] at hmagic ⊢
      refine .big _ (fun other hother => ?_) (hstores .big) hmagic
      rwa [← ((stubStores_iff hsize).mp hother).2]

theorem stubOffset?_eq_some_iff (hsize : 8 ≤ data.size) :
    stubOffset? data = some offset ↔ StubLeads data offset := by
  have hfind : projectorOffset? data = some offset ↔ MagicAt data offset ∧
      (offset = storedOffset data .little ∨
        ¬MagicAt data (storedOffset data .little) ∧ offset = storedOffset data .big) := by
    unfold projectorOffset?
    change List.find? _ [storedOffset data .little, storedOffset data .big] = _ ↔ _
    by_cases hlittle : MagicAt data (storedOffset data .little)
    · rw [List.find?_cons_of_pos (isMagicAt_iff.mpr hlittle)]
      constructor
      · rintro ⟨⟩
        exact ⟨hlittle, .inl rfl⟩
      · rintro ⟨-, rfl | ⟨hmissed, -⟩⟩
        · rfl
        · exact absurd hlittle hmissed
    · rw [List.find?_cons_of_neg (by rwa [isMagicAt_iff]), List.find?_singleton]
      simp only [isMagicAt_iff, Option.ite_none_right_eq_some, Option.some.injEq]
      constructor
      · rintro ⟨hbig, rfl⟩
        exact ⟨hbig, .inr ⟨hlittle, rfl⟩⟩
      · rintro ⟨hmagic, rfl | ⟨-, rfl⟩⟩
        · exact absurd hmagic hlittle
        · exact ⟨hmagic, rfl⟩
  rw [stubLeads_iff hsize, stubOffset?, Option.ite_none_right_eq_some, List.contains_iff_mem, hfind]

theorem stubOffset?_eq_none_iff (hsize : 8 ≤ data.size) :
    stubOffset? data = none ↔ ∀ other, ¬StubLeads data other := by
  simp only [Option.eq_none_iff_forall_ne_some, ne_eq, stubOffset?_eq_some_iff hsize]

theorem container?_eq_some_iff (hsize : 8 ≤ data.size) :
    container? search data = some offset ↔ Located data search offset := by
  unfold container?
  by_cases hstart : MagicAt data 0
  · rw [if_pos (isMagicAt_iff.mpr hstart)]
    constructor
    · rintro ⟨⟩
      exact .start hstart
    · rintro (_ | ⟨hlater, -⟩ | ⟨hlater⟩)
      · rfl
      · exact absurd hstart hlater
      · exact absurd hstart hlater
  · rw [if_neg (by rwa [isMagicAt_iff]), Option.or_eq_some_iff, stubOffset?_eq_some_iff hsize,
      stubOffset?_eq_none_iff hsize, Option.ite_none_right_eq_some, firstMagic?_eq_some_iff]
    constructor
    · rintro (hleads | ⟨halone, hallowed, hpast, hmagic, hleast⟩)
      · exact .stub hstart hleads
      · exact .searched hstart halone hallowed hpast hmagic hleast
    · rintro (hmagic | ⟨-, hleads⟩ | ⟨-, halone, hallowed, hpast, hmagic, hleast⟩)
      · exact absurd hmagic hstart
      · exact .inl hleads
      · exact .inr ⟨halone, hallowed, hpast, hmagic, hleast⟩

theorem Located.magic (h : Located data search offset) : MagicAt data offset := by
  cases h with
  | start hmagic => exact hmagic
  | stub _ hleads => cases hleads <;> assumption
  | searched _ _ _ _ hmagic _ => exact hmagic

theorem exists_located_iff (hsize : 8 ≤ data.size) :
    (∃ offset, Located data true offset) ↔ ∃ offset, MagicAt data offset := by
  constructor
  · rintro ⟨offset, hlocated⟩
    exact ⟨offset, hlocated.magic⟩
  · rintro ⟨offset, hmagic⟩
    rcases Option.eq_none_or_eq_some (container? true data) with hnone | ⟨found, hfound⟩
    · unfold container? at hnone
      split at hnone
      · cases hnone
      next hstart =>
        rw [Option.or_eq_none_iff, if_pos rfl, firstMagic?_eq_none_iff] at hnone
        rw [isMagicAt_iff] at hstart
        rcases Nat.eq_zero_or_pos offset with rfl | hpos
        · exact absurd hmagic hstart
        · exact absurd hmagic (hnone.2 offset hpos)
    · exact ⟨found, (container?_eq_some_iff hsize).mp hfound⟩

end

section

variable {search : Bool} {s : Session}

theorem eight_le_size (h : headerSize ≤ s.cursor.data.size) : 8 ≤ s.cursor.data.size :=
  Nat.le_trans (by decide) h

theorem exists_locate_ok_iff (h : headerSize ≤ s.cursor.data.size) {offset : Nat} :
    (∃ t, locate search s = .ok offset t) ↔ Located s.cursor.data search offset := by
  rw [← container?_eq_some_iff (eight_le_size h), locate_eq h]
  cases container? search s.cursor.data <;> simp

theorem exists_locate_error_iff (h : headerSize ≤ s.cursor.data.size) {e : OpenError} :
    (∃ t, locate search s = .error e t) ↔
      e = .containerNotFound ∧ ∀ offset, ¬Located s.cursor.data search offset := by
  simp only [← container?_eq_some_iff (eight_le_size h), locate_eq h]
  cases container? search s.cursor.data <;> simp [eq_comm]

theorem noting_of_locate (h : headerSize ≤ s.cursor.data.size) {t : Session}
    (ht : (∃ offset, locate search s = .ok offset t) ∨ ∃ e, locate search s = .error e t) :
    t = s.noting (findingNotes s.cursor.data) := by
  rw [locate_eq h] at ht
  cases hfound : container? search s.cursor.data with
  | none => simp_all
  | some offset => simp_all

end

/-- The search succeeds just where the rule says, fails only for want of a container, and leaves
nothing behind but notes. -/
theorem locate_exact (search : Bool) (s : Session) (h : headerSize ≤ s.cursor.data.size) :
    (∀ offset, (∃ t, locate search s = .ok offset t) ↔ Located s.cursor.data search offset) ∧
    (∀ e, (∃ t, locate search s = .error e t) ↔
      e = .containerNotFound ∧ ∀ offset, ¬Located s.cursor.data search offset) ∧
    (∀ offset, Located s.cursor.data search offset → MagicAt s.cursor.data offset) ∧
    (search = true → ((∃ e t, locate search s = .error e t) ↔
      ∀ offset, ¬MagicAt s.cursor.data offset)) ∧
    ∀ t, (∃ offset, locate search s = .ok offset t) ∨ (∃ e, locate search s = .error e t) →
      t.cursor = s.cursor ∧ ∃ notes, t = s.noting notes := by
  refine ⟨fun _ => exists_locate_ok_iff h, fun _ => exists_locate_error_iff h,
    fun _ => Located.magic, ?_, ?_⟩
  · rintro rfl
    simp only [exists_locate_error_iff h, exists_eq_left, ← not_exists,
      exists_located_iff (eight_le_size h)]
  · intro t ht
    rw [noting_of_locate h ht]
    exact ⟨rfl, _, rfl⟩

/-- A projector stub whose offset is stored most significant byte first. It points past another magic
word. -/
def decoyStub : List UInt8 :=
  [0x50, 0x4A, 0x39, 0x35] ++ ByteOrder.big.bytes 4 16 ++
    (ByteOrder.big.magic ++ [0, 0, 0, 0] ++ ByteOrder.little.magic)

theorem located_decoyStub (search : Bool) : Located decoyStub.toByteArray search 16 := by
  have hmissed (other : UInt32) (hother : StubStores decoyStub.toByteArray .little other) :
      ¬MagicAt decoyStub.toByteArray other.toNat := by
    intro hmagic
    have hfits := hmagic.fits
    have hstored : storedOffset decoyStub.toByteArray .little = 0x10000000 := by decide
    rw [← ((stubStores_iff (by decide)).mp hother).2, hstored] at hfits
    exact absurd hfits (by decide)
  have hstored : Holds decoyStub.toByteArray 0
      ([0x50, 0x4A, 0x39, 0x35] ++ ByteOrder.big.bytes 4 16) := Holds.start _ _
  exact .stub (by decide) (.big 16 hmissed ⟨_, by decide, hstored⟩ (by decide))

theorem locate_decoyStub :
    headerSize ≤ decoyStub.toByteArray.size ∧
    ∃ t, locate true { fileName := "decoy.exe", cursor := ⟨decoyStub.toByteArray, 5, .little⟩ } =
      .ok 16 t ∧ t.cursor = ⟨decoyStub.toByteArray, 5, .little⟩ := by
  obtain ⟨hok, -, -, -, htrace⟩ := locate_exact true
    { fileName := "decoy.exe", cursor := ⟨decoyStub.toByteArray, 5, .little⟩ } (by decide)
  obtain ⟨t, ht⟩ := (hok 16).mpr (located_decoyStub true)
  exact ⟨by decide, t, ht, (htrace t (.inl ⟨16, ht⟩)).1⟩

end Shockwave
