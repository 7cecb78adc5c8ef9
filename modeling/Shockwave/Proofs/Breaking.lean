import Shockwave.Proofs.Failures
import Shockwave.Proofs.PlainStream
import Shockwave.Proofs.Spans

/-!
Where opening a movie breaks off. The names of the compression schemes are the one place: each has
to end with a zero byte, and a table with too few of them ends the run without a result. So it is
told by the bytes up to that table alone whether a stream can be opened or refused.
-/
namespace Shockwave

section

variable {σ α β : Type} {step : EStateM Halt σ α} {rest : α → EStateM Halt σ β} {s : σ}

def Breaks (step : EStateM Halt σ α) (s : σ) : Prop := ∃ t, step s = .error .broken t

theorem not_breaks (h : Raises Halt.BadMap step) : ¬Breaks step s := by
  rintro ⟨t, ht⟩
  cases h s _ t ht

theorem breaks_bind_iff :
    Breaks (step >>= rest) s ↔ Breaks step s ∨ ∃ a t, step s = .ok a t ∧ Breaks (rest a) t := by
  cases h : step s with
  | ok a t =>
    unfold Breaks
    rw [bind_ok h, h]
    constructor
    · exact fun hrest => .inr ⟨a, t, rfl, hrest⟩
    · rintro (⟨_, hstep⟩ | ⟨_, _, heq, hrest⟩)
      · cases hstep
      · cases heq
        exact hrest
  | error e t =>
    unfold Breaks
    rw [bind_error h, h]
    simp

theorem breaks_bind_of_ok {a : α} {t : σ} (h : step s = .ok a t) :
    Breaks (step >>= rest) s ↔ Breaks (rest a) t := by
  unfold Breaks
  rw [bind_ok h]

theorem breaks_bind_iff_first (hrest : ∀ a, Raises Halt.BadMap (rest a)) :
    Breaks (step >>= rest) s ↔ Breaks step s := by
  rw [breaks_bind_iff]
  constructor
  · rintro (h | ⟨a, t, -, h⟩)
    · exact h
    · exact absurd h (not_breaks (hrest a))
  · exact .inl

theorem Spans.breaks_bind_iff {place : σ → Cursor} {data : ByteArray} {order : ByteOrder}
    {pos : Nat} {layout : Nat → α → Nat → Prop} {broken : α → Nat → Prop}
    (h : Spans place data order step layout) (hraises : Raises Halt.BadMap step)
    (hs : place s = ⟨data, pos, order⟩)
    (hrest : ∀ a stop t, place t = ⟨data, stop, order⟩ → (Breaks (rest a) t ↔ broken a stop)) :
    Breaks (step >>= rest) s ↔ ∃ a stop, layout pos a stop ∧ broken a stop := by
  rw [Shockwave.breaks_bind_iff]
  constructor
  · rintro (hbreaks | ⟨a, t, hok, hbreaks⟩)
    · exact absurd hbreaks (not_breaks hraises)
    · obtain ⟨stop, hlayout, ht⟩ := h.of_ok hs hok
      exact ⟨a, stop, hlayout, (hrest a stop t ht).mp hbreaks⟩
  · rintro ⟨a, stop, hlayout, hbroken⟩
    obtain ⟨t, hok, ht⟩ := h.to_ok hs hlayout
    exact .inr ⟨a, t, hok, (hrest a stop t ht).mpr hbroken⟩

end

def NumbersAt (data : ByteArray) (version : UInt32) (pos stop : Nat) : Prop :=
  if 0x401 ≤ version then ∃ mapVersion archiveVersion middle,
    VarintAt data pos mapVersion middle ∧ VarintAt data middle archiveVersion stop
  else stop = pos

def TextAt (data : ByteArray) (version : UInt32) (pos : Nat) (text : Option String) (stop : Nat) :
    Prop :=
  if 0x501 ≤ version then ∃ found, CountedAt data pos found stop ∧ text = some found
  else text = none ∧ stop = pos

/-- A version record stands between two positions, the second as it is declared. What the record
holds may end before that or after. -/
def VersionAt (data : ByteArray) (order : ByteOrder) (pos : Nat) (version : UInt32)
    (text : Option String) (stop : Nat) : Prop :=
  ∃ length start numbers words last, Holds data pos (Tag.version.written order) ∧
    VarintAt data (pos + 4) length start ∧ VarintAt data start version numbers ∧
    NumbersAt data version numbers words ∧ TextAt data version words text last ∧
    stop = start + length.toNat ∧ stop ≤ data.size

section

variable {data : ByteArray} {version : UInt32} {pos stop : Nat}

theorem VarintAt.stop_le {n : UInt32} (h : VarintAt data pos n stop) : stop ≤ data.size := by
  obtain ⟨front, last, hholds, -, -, -, rfl⟩ := h
  exact hholds.fits

theorem NumbersAt.stop_le (h : NumbersAt data version pos stop) (hpos : pos ≤ data.size) :
    stop ≤ data.size := by
  unfold NumbersAt at h
  split at h
  · obtain ⟨_, _, _, -, hlast⟩ := h
    exact hlast.stop_le
  · omega

theorem TextAt.stop_le {text : Option String} (h : TextAt data version pos text stop)
    (hpos : pos ≤ data.size) : stop ≤ data.size := by
  unfold TextAt at h
  split at h
  · obtain ⟨_, ⟨bytes, -, hholds, -, rfl⟩, -⟩ := h
    exact hholds.fits
  · omega

end

namespace Archive

variable {data : ByteArray} {order : ByteOrder}

theorem spans_expect (tag : Tag) :
    Spans Session.cursor data order (expect tag) fun pos _ stop =>
      Holds data pos (tag.written order) ∧ stop = pos + 4 := by
  refine (spans_bind (Step.spans_readOr Decode.spans_tag) fun _ =>
    spans_ite (spans_throw _) (spans_pure ())).congr fun pos _ stop => ?_
  constructor
  · rintro ⟨found, middle, ⟨hfound, rfl⟩, hend⟩
    split at hend
    · exact hend.elim
    next heq =>
      obtain ⟨-, rfl⟩ := hend
      rw [ne_eq, Decidable.not_not] at heq
      exact ⟨heq ▸ hfound, rfl⟩
  · rintro ⟨htag, rfl⟩
    exact ⟨tag, pos + 4, ⟨htag, rfl⟩, by simp⟩

theorem spans_readVersions (version : UInt32) :
    Spans (fun o : Opening => o.session.cursor) data order (readVersions version)
      fun pos _ stop => NumbersAt data version pos stop := by
  have hnumber : Spans (fun o : Opening => o.session.cursor) data order
      (inSession (readAs Decode.varint)) (VarintAt data) :=
    spans_inSession (Step.spans_readOr Decode.spans_varint)
  have hset {f : Opening → Opening} (hf : ∀ o, (f o).session = o.session) :
      Spans (fun o : Opening => o.session.cursor) data order
        (modify f : EStateM Halt Opening PUnit) fun pos _ stop => stop = pos :=
    spans_modify fun o => by rw [hf]
  refine Spans.congr (spans_ite (spans_bind hnumber fun _ => spans_bind (hset fun _ => rfl)
    fun _ => spans_bind hnumber fun _ => hset fun _ => rfl) (spans_pure ())) fun pos _ stop => ?_
  unfold NumbersAt
  split
  · constructor
    · rintro ⟨m, _, hm, _, middle, rfl, n, _, hn, rfl⟩
      exact ⟨m, n, middle, hm, hn⟩
    · rintro ⟨m, n, middle, hm, hn⟩
      exact ⟨m, middle, hm, (), middle, rfl, n, stop, hn, rfl⟩
  · simp

theorem spans_readVersionText (version : UInt32) :
    Spans (fun o : Opening => o.session.cursor) data order (readVersionText version)
      (TextAt data version) := by
  unfold readVersionText
  rw [map_eq_pure_bind]
  refine (spans_ite (spans_bind (spans_inSession (Step.spans_readOr Decode.spans_counted))
    fun _ => spans_pure _) (spans_pure none)).congr fun pos text stop => ?_
  unfold TextAt
  split
  · constructor
    · rintro ⟨found, _, hfound, rfl, rfl⟩
      exact ⟨found, hfound, rfl⟩
    · rintro ⟨found, hfound, rfl⟩
      exact ⟨found, stop, hfound, rfl, rfl⟩
  · rfl

theorem spans_closeVersion (start length : Nat) :
    Spans (fun o : Opening => o.session.cursor) data order (closeVersion start length)
      fun pos _ stop => (pos ≠ start + length → start + length ≤ data.size) ∧
        stop = start + length := by
  have hback (n : Note) : Spans (fun o : Opening => o.session.cursor) data order (do
      inSession (Step.note n)
      inSession (readAs (Decode.seek (start + length))))
      fun _ _ stop => start + length ≤ data.size ∧ stop = start + length := by
    refine Spans.congr (spans_bind (spans_inSession (spans_modify fun _ => rfl)) fun _ =>
      spans_inSession (Step.spans_readOr (Decode.spans_seek _))) fun pos _ stop => ?_
    simp
  have hend (o : Opening) (seen : Nat) (ho : o.session.cursor = ⟨data, seen, order⟩) :
      Spans (fun o : Opening => o.session.cursor) data order (do
        if o.session.cursor.pos ≠ start + length then
          inSession (Step.note (.versionLength length (o.session.cursor.pos - start)))
          inSession (readAs (Decode.seek (start + length))))
        fun pos _ stop => if seen ≠ start + length then
          start + length ≤ data.size ∧ stop = start + length else stop = pos := by
    rw [ho]
    refine Spans.congr (spans_ite (hback _) (spans_pure ())) fun pos _ stop => ?_
    simp
  refine Spans.congr (spans_get_bind hend) fun pos _ stop => ?_
  by_cases h : pos = start + length <;> simp [h]

theorem spans_versionRecord (start length : Nat) :
    Spans (fun o : Opening => o.session.cursor) data order (do
      let version ← inSession (readAs Decode.varint)
      readVersions version
      let text ← readVersionText version
      closeVersion start length
      return (version, text))
      fun pos record stop => ∃ numbers words last, VarintAt data pos record.1 numbers ∧
        NumbersAt data record.1 numbers words ∧ TextAt data record.1 words record.2 last ∧
        stop = start + length ∧ stop ≤ data.size := by
  refine Spans.congr (spans_bind (spans_inSession (Step.spans_readOr Decode.spans_varint))
    fun version => spans_bind (spans_readVersions version) fun _ =>
    spans_bind (spans_readVersionText version) fun text =>
    spans_bind (spans_closeVersion start length) fun _ => spans_pure _) fun pos record stop => ?_
  constructor
  · rintro ⟨version, numbers, hversion, _, words, hnumbers, text, last, htext, _, _,
      ⟨hback, rfl⟩, rfl, rfl⟩
    have hlast := htext.stop_le (hnumbers.stop_le hversion.stop_le)
    refine ⟨numbers, words, last, hversion, hnumbers, htext, rfl, ?_⟩
    by_cases heq : last = start + length
    · omega
    · exact hback heq
  · rintro ⟨numbers, words, last, hversion, hnumbers, htext, rfl, hfits⟩
    exact ⟨record.1, numbers, hversion, (), words, hnumbers, record.2, last, htext, (),
      start + length, ⟨fun _ => hfits, rfl⟩, rfl, rfl⟩

theorem spans_readVersion :
    Spans (fun o : Opening => o.session.cursor) data order readVersion fun pos record stop =>
      VersionAt data order pos record.1 record.2 stop := by
  rw [readVersion_eq_steps]
  refine Spans.congr (spans_bind (spans_inSession (spans_expect .version)) fun _ =>
    spans_bind (spans_inSession (Step.spans_readOr Decode.spans_varint)) fun length =>
    spans_get_bind fun o start ho => by
      rw [ho]
      exact spans_versionRecord start length.toNat) fun pos record stop => ?_
  constructor
  · rintro ⟨_, _, ⟨htag, rfl⟩, length, start, hlength, numbers, words, last, hrecord⟩
    exact ⟨length, start, numbers, words, last, htag, hlength, hrecord⟩
  · rintro ⟨length, start, numbers, words, last, htag, hlength, hrecord⟩
    exact ⟨(), pos + 4, ⟨htag, rfl⟩, length, start, hlength, numbers, words, last, hrecord⟩

end Archive

def SchemesAt (data : ByteArray) (order : ByteOrder) (pos : Nat) (table : List UInt8) : Prop :=
  ∃ length start stream, Holds data pos (Tag.descriptors.written order) ∧
    VarintAt data (pos + 4) length start ∧ Holds data start stream ∧
    stream.length = length.toNat ∧ Inflates stream table

/-- A table of compression schemes has all its identifiers, but ends before the last name does. -/
def NamesCut (order : ByteOrder) (table : List UInt8) : Prop :=
  ∃ count identifiers names, table = order.bytes 2 count ++ (identifiers ++ names) ∧
    count < 0x10000 ∧ identifiers.length = 16 * count ∧ names.count 0 < count

namespace Archive

theorem exists_name_of_mem {c : Cursor} (h : 0 ∈ (octets c.data).drop c.pos) :
    ∃ name, Holds c.data c.pos (name ++ [0]) ∧ 0 ∉ name ∧
      ((octets c.data).drop c.pos).count 0 =
        ((octets c.data).drop (c.pos + (name.length + 1))).count 0 + 1 := by
  obtain ⟨name, after, hsplit, hends⟩ := List.eq_append_cons_of_mem h
  have hpos : c.pos < (octets c.data).length := by
    have hlength := congrArg List.length hsplit
    rw [List.length_drop, List.length_append, List.length_cons] at hlength
    omega
  refine ⟨name, ⟨(octets c.data).take c.pos, after, ?_, ?_⟩, hends, ?_⟩
  · rw [List.append_assoc, List.append_assoc, List.singleton_append, ← hsplit,
      List.take_append_drop]
  · rw [List.length_take, Nat.min_eq_left (Nat.le_of_lt hpos)]
  · rw [← List.drop_drop, hsplit, List.count_append, List.count_eq_zero.mpr hends,
      List.count_cons_self]
    simp

theorem breaks_describeAll_iff {readName : NameReader} (hreads : ReadsNames readName) (index : Nat)
    (c : Cursor) (identifiers : List ByteArray) (s : Session) :
    Breaks (describeAll readName index c identifiers) s ↔
      ((octets c.data).drop c.pos).count 0 < identifiers.length := by
  induction identifiers generalizing index c s with
  | nil =>
    have hraises : Raises Halt.BadMap (describeAll readName index c []) :=
      raises_ite (raises_pure ()) (Step.raises_note _)
    simpa using not_breaks hraises
  | cons identifier rest ih =>
    unfold describeAll
    by_cases hzero : 0 ∈ (octets c.data).drop c.pos
    · obtain ⟨name, hholds, hends, hcount⟩ := exists_name_of_mem hzero
      have hrest (d : Descriptor) (c : Cursor) (t : Session) :
          Breaks (do Step.describe d; describeAll readName (index + 1) c rest) t ↔
            ((octets c.data).drop c.pos).count 0 < rest.length :=
        (breaks_bind_of_ok rfl).trans (ih (index + 1) c _)
      rw [hreads.ended hholds hends, hcount, List.length_cons, Nat.add_lt_add_iff_right]
      dsimp only
      split
      · exact (breaks_bind_of_ok rfl).trans (hrest _ _ _)
      · exact hrest _ _ _
    · rw [hreads.unended hzero, List.count_eq_zero.mpr hzero, List.length_cons]
      exact ⟨fun _ => Nat.succ_pos _, fun _ => ⟨s, rfl⟩⟩

theorem times_bytes_ok {data : ByteArray} {order : ByteOrder} {pos count : Nat}
    (h : pos + 16 * count ≤ data.size) :
    ∃ identifiers, Decode.times count (Decode.bytes 16) ⟨data, pos, order⟩ =
      .ok identifiers ⟨data, pos + 16 * count, order⟩ ∧ identifiers.length = count := by
  induction count generalizing pos with
  | zero => exact ⟨[], rfl, rfl⟩
  | succ count ih =>
    have hfits : pos + 16 ≤ data.size := by omega
    have hstop : pos + 16 + 16 * count = pos + 16 * (count + 1) := by omega
    obtain ⟨identifier, hfirst, hlength⟩ := Holds.of_fits hfits
    obtain ⟨rest, hrest, hcount⟩ : ∃ rest, Decode.times count (Decode.bytes 16)
        ⟨data, pos + 16, order⟩ = .ok rest ⟨data, pos + 16 + 16 * count, order⟩ ∧
        rest.length = count := ih (by omega)
    refine ⟨identifier.toByteArray :: rest, ?_, by rw [List.length_cons, hcount]⟩
    unfold Decode.times
    rw [bind_ok (Decode.bytes_ok (c := ⟨data, pos, order⟩) hfirst hlength), bind_ok hrest, hstop]
    rfl

theorem times_bytes_error {data : ByteArray} {order : ByteOrder} {pos count : Nat}
    (hpos : pos ≤ data.size) (h : data.size < pos + 16 * count) :
    ∃ e d, Decode.times count (Decode.bytes 16) ⟨data, pos, order⟩ = .error e d := by
  induction count generalizing pos with
  | zero => omega
  | succ count ih =>
    unfold Decode.times
    rcases Nat.lt_or_ge data.size (pos + 16) with hcut | hfits
    · have hbytes : Decode.bytes 16 ⟨data, pos, order⟩ = .error _ _ :=
        bind_error (Decode.require_error (by dsimp only; omega))
      exact ⟨_, _, bind_error hbytes⟩
    · obtain ⟨identifier, hfirst, hlength⟩ := Holds.of_fits hfits
      obtain ⟨e, d, hrest⟩ : ∃ e d, Decode.times count (Decode.bytes 16) ⟨data, pos + 16, order⟩ =
          .error e d := ih hfits (by omega)
      refine ⟨e, d, ?_⟩
      rw [bind_ok (Decode.bytes_ok (c := ⟨data, pos, order⟩) hfirst hlength), bind_error hrest]

section

variable {order : ByteOrder} {count : Nat} {rest : List UInt8}

theorem readIdentifiers_eq_times (hcount : count < 0x10000) :
    readIdentifiers ⟨(order.bytes 2 count ++ rest).toByteArray, 0, order⟩ =
      Decode.times count (Decode.bytes 16)
        ⟨(order.bytes 2 count ++ rest).toByteArray, 2, order⟩ := by
  have h := Holds.start (order.bytes 2 count) rest
  generalize (order.bytes 2 count ++ rest).toByteArray = data at h
  have hfits := h.fits
  rw [ByteOrder.length_bytes] at hfits
  have hword : (UInt16.ofNat count).toNat = count := UInt16.toNat_ofNat_of_lt hcount
  unfold readIdentifiers
  rw [bind_ok (Decode.require_ok hfits), bind_ok (Decode.u16_ok (c := ⟨data, 0, order⟩) h), hword]

theorem size_table : (order.bytes 2 count ++ rest).toByteArray.size = 2 + rest.length := by
  rw [← length_octets, octets_toByteArray, List.length_append, ByteOrder.length_bytes]

theorem namesCut_iff (hcount : count < 0x10000) :
    NamesCut order (order.bytes 2 count ++ rest) ↔
      16 * count ≤ rest.length ∧ (rest.drop (16 * count)).count 0 < count := by
  constructor
  · rintro ⟨count', identifiers, names, htable, hcount', hlength, hnames⟩
    obtain ⟨hbytes, hrest⟩ := List.append_inj htable (by simp only [ByteOrder.length_bytes])
    have hvalue : order.value (order.bytes 2 count) = count := order.value_bytes_of_lt hcount
    have hvalue' : order.value (order.bytes 2 count') = count' := order.value_bytes_of_lt hcount'
    obtain rfl : count = count' := by rw [← hvalue, hbytes, hvalue']
    rw [hrest, ← hlength, List.drop_left, List.length_append]
    exact ⟨by omega, hnames⟩
  · rintro ⟨hfits, hnames⟩
    refine ⟨count, rest.take (16 * count), rest.drop (16 * count), ?_, hcount, ?_, hnames⟩
    · rw [List.take_append_drop]
    · rw [List.length_take]
      omega

theorem breaks_readDescriptors_of_count {readName : NameReader} (hreads : ReadsNames readName)
    (order : ByteOrder) (rest : List UInt8) (hcount : count < 0x10000) (s : Session) :
    Breaks (readDescriptors readName (order.bytes 2 count ++ rest).toByteArray order) s ↔
      NamesCut order (order.bytes 2 count ++ rest) := by
  have hsize : (order.bytes 2 count ++ rest).toByteArray.size = 2 + rest.length := size_table
  rw [namesCut_iff hcount]
  unfold readDescriptors
  rw [readIdentifiers_eq_times hcount]
  rcases Nat.lt_or_ge rest.length (16 * count) with hcut | hfits
  · obtain ⟨e, d, hshort⟩ : ∃ e d, Decode.times count (Decode.bytes 16)
        ⟨(order.bytes 2 count ++ rest).toByteArray, 2, order⟩ = .error e d :=
      times_bytes_error (by omega) (by omega)
    rw [hshort]
    constructor
    · exact fun h => absurd h (not_breaks (raises_throw (.unreadable e)))
    · omega
  · obtain ⟨identifiers, hall, hlength⟩ : ∃ identifiers, Decode.times count (Decode.bytes 16)
        ⟨(order.bytes 2 count ++ rest).toByteArray, 2, order⟩ = .ok identifiers _ ∧
        identifiers.length = count := times_bytes_ok (by omega)
    have hdrop : (octets (order.bytes 2 count ++ rest).toByteArray).drop (2 + 16 * count) =
        rest.drop (16 * count) := by
      rw [octets_toByteArray, ← List.drop_drop, List.drop_left' (ByteOrder.length_bytes ..)]
    rw [hall]
    dsimp only
    rw [breaks_describeAll_iff hreads, hlength, hdrop]
    exact ⟨fun h => ⟨hfits, h⟩, fun h => h.2⟩

end

theorem breaks_readDescriptors_iff {readName : NameReader} (hreads : ReadsNames readName)
    (order : ByteOrder) (table : List UInt8) (s : Session) :
    Breaks (readDescriptors readName table.toByteArray order) s ↔ NamesCut order table := by
  rcases Nat.lt_or_ge table.length 2 with hcut | hfits
  · have hsize : table.toByteArray.size < 2 := by rwa [← length_octets, octets_toByteArray]
    have hshort : readIdentifiers ⟨table.toByteArray, 0, order⟩ = .error _ _ :=
      bind_error (Decode.require_error (by dsimp only; omega))
    unfold readDescriptors
    rw [hshort]
    constructor
    · exact fun h => absurd h (not_breaks (raises_throw (.unreadable _)))
    · rintro ⟨count, identifiers, names, rfl, -⟩
      rw [List.length_append, ByteOrder.length_bytes] at hcut
      omega
  · have hlength : (table.take 2).length = 2 := by
      rw [List.length_take]
      omega
    have hcount := order.value_lt (table.take 2)
    rw [hlength] at hcount
    have htable : order.bytes 2 (order.value (table.take 2)) ++ table.drop 2 = table := by
      rw [order.bytes_value hlength, List.take_append_drop]
    have hiff := breaks_readDescriptors_of_count hreads order (table.drop 2) hcount s
    rwa [htable] at hiff

variable {data : ByteArray} {order : ByteOrder} {pos : Nat} {s : Session}

theorem breaks_readSchemePart_iff (hs : s.cursor = ⟨data, pos, order⟩) :
    Breaks (readSchemePart order) s ↔
      ∃ table, SchemesAt data order pos table ∧ NamesCut order table := by
  have hnames (table : ByteArray) (t : Session) :
      Breaks (readDescriptors utf8Name table order) t ↔ NamesCut order (octets table) := by
    rw [← breaks_readDescriptors_iff readsNames_utf8Name order _ t, toByteArray_octets]
  refine (Spans.breaks_bind_iff (spans_expect _) (raises_expect _) hs fun _ _ t ht =>
    Spans.breaks_bind_iff (Step.spans_readOr Decode.spans_varint) (raises_readAs _) ht
    fun length _ u hu => Spans.breaks_bind_iff (Step.spans_readOr (Decode.spans_inflated _))
    (raises_readAs _) hu fun table _ v _ => hnames table v).trans ?_
  constructor
  · rintro ⟨_, _, ⟨htag, rfl⟩, length, start, hlength, table, _,
      ⟨stream, hstream, hn, hinflates, -⟩, hcut⟩
    exact ⟨octets table, ⟨length, start, stream, htag, hlength, hstream, hn, hinflates⟩, hcut⟩
  · rintro ⟨table, ⟨length, start, stream, htag, hlength, hstream, hn, hinflates⟩, hcut⟩
    refine ⟨(), pos + 4, ⟨htag, rfl⟩, length, start, hlength, table.toByteArray, _,
      ⟨stream, hstream, hn, ?_, rfl⟩, ?_⟩
    · rwa [octets_toByteArray]
    · rwa [octets_toByteArray]

theorem breaks_readTables_iff (version : UInt32) (text : Option String)
    (hs : s.cursor = ⟨data, pos, order⟩) :
    Breaks (readTables version text) s ↔
      ∃ table, SchemesAt data order pos table ∧ NamesCut order table := by
  have horder : s.cursor.order = order := by rw [hs]
  rw [readTables, ← breaks_readSchemePart_iff hs, ← horder]
  exact (breaks_bind_of_ok rfl).trans (breaks_bind_iff_first fun _ =>
    raises_bind (raises_readMapPart _) fun _ => raises_readSegmentPart _ _ _)

theorem breaks_inSession_iff {α : Type} {step : Step Halt α} {o : Opening} :
    Breaks (inSession step) o ↔ Breaks step o.session := by
  unfold Breaks inSession
  cases step o.session <;> simp

/-- The map of an archive breaks off the run if it can be read up to the names of its compression
schemes, and these are cut. -/
theorem breaks_readWhole_iff {start : Nat} {block : Block} (hs : s.cursor = ⟨data, pos, order⟩)
    (hstart : start ≤ data.size) :
    Breaks (readWhole start) { session := s, block } ↔
      ∃ version text stop table, VersionAt data order start version text stop ∧
        SchemesAt data order stop table ∧ NamesCut order table := by
  refine (Spans.breaks_bind_iff (spans_inSession (Step.spans_readOr (Decode.spans_seek start)))
    (raises_inSession (raises_readAs _)) hs fun _ _ o ho => Spans.breaks_bind_iff
    spans_readVersion raises_readVersion ho fun record stop p hp =>
    breaks_inSession_iff.trans (breaks_readTables_iff record.1 record.2 hp)).trans ?_
  constructor
  · rintro ⟨_, _, ⟨-, rfl⟩, record, stop, hversion, table, hrest⟩
    exact ⟨record.1, record.2, stop, table, hversion, hrest⟩
  · rintro ⟨version, text, stop, table, hversion, hrest⟩
    exact ⟨(), start, ⟨hstart, rfl⟩, (version, text), stop, hversion, table, hrest⟩

end Archive

theorem Codec.isArchive_ofTag_iff {tag : Tag} :
    (Codec.ofTag tag).isArchive = true ↔
      Tag.ofText? "FGDM" = some tag ∨ Tag.ofText? "FGDC" = some tag := by
  constructor
  · intro h
    rw [← Decidable.not_not (p := _ ∨ _), not_or]
    intro hneither
    rw [Codec.isArchive_ofTag hneither] at h
    cases h
  · rintro (h | h)
    · have htag : tag = ⟨0x4647444D⟩ := (Option.some.inj h).symm
      rw [htag]
      decide
    · have htag : tag = ⟨0x46474443⟩ := (Option.some.inj h).symm
      rw [htag]
      decide

/-- A stream holds an archive whose map can be read up to the names of its compression schemes, and
these are cut. -/
def BreaksOff (search : Bool) (data : ByteArray) : Prop :=
  headerSize ≤ data.size ∧ ∃ offset order declaredSize codec version text stop table,
    container? search data = some offset ∧
    Holds data offset (headerWritten order declaredSize codec) ∧
    (Tag.ofText? "FGDM" = some codec ∨ Tag.ofText? "FGDC" = some codec) ∧
    VersionAt data order (offset + 12) version text stop ∧
    SchemesAt data order stop table ∧ NamesCut order table

namespace Movie

theorem breaks_readMap_iff {block : Block} {s : Session}
    (h : block.format.codec.isArchive = true) :
    Breaks (readMap block) s ↔
      Breaks (Archive.readWhole block.start) { session := s, block } := by
  unfold Breaks
  rw [readMap_of_archive h]
  cases Archive.readWhole block.start { session := s, block } <;> simp

theorem breaks_readOn_iff {options : Options} {offset : Nat} {header : Block} {s : Session} :
    Breaks (readOn options offset header) s ↔ Breaks (readMap header)
      { s with notes := s.notes ++
        [.containerFound s.fileName offset header.format.codecTag header.declaredSize] } := by
  refine (breaks_bind_of_ok rfl).trans ((breaks_bind_of_ok rfl).trans ?_)
  exact breaks_bind_iff_first fun block => raises_readRest _ _ _ block

section

variable {fileName : String} {data : ByteArray} {options : Options} {offset : Nat}
  {order : ByteOrder} {declaredSize : UInt32} {codec : Tag}

theorem read_broken_iff_breaks (hsize : headerSize ≤ data.size)
    (hfound : container? options.search data = some offset)
    (hheader : Holds data offset (headerWritten order declaredSize codec)) :
    read fileName data options = .error .broken ↔
      Breaks (readOn options offset (headerBlock offset order declaredSize codec))
        (opened fileName data offset order ([] ++ findingNotes data ++ headerNotes codec)) := by
  have hfrom := readFrom_of_header (s := .ofBytes fileName data) hsize hfound hheader
  constructor
  · intro hread
    unfold read at hread
    split at hread
    · cases hread
    next t hrun =>
      cases hread
      exact ⟨t, hfrom.symm.trans hrun⟩
  · rintro ⟨t, ht⟩
    exact read_of_error (hfrom.trans ht)

theorem read_broken_iff_of_header (hsize : headerSize ≤ data.size)
    (hfound : container? options.search data = some offset)
    (hheader : Holds data offset (headerWritten order declaredSize codec)) :
    read fileName data options = .error .broken ↔
      (Tag.ofText? "FGDM" = some codec ∨ Tag.ofText? "FGDC" = some codec) ∧
      ∃ version text stop table, VersionAt data order (offset + 12) version text stop ∧
        SchemesAt data order stop table ∧ NamesCut order table := by
  have hfits := hheader.fits
  simp only [headerWritten, List.length_append, ByteOrder.length_magic, ByteOrder.length_bytes,
    Tag.length_written] at hfits
  rw [read_broken_iff_breaks hsize hfound hheader, breaks_readOn_iff, ← Codec.isArchive_ofTag_iff]
  cases harchive : (Codec.ofTag codec).isArchive with
  | false =>
    have hclassic : (headerBlock offset order declaredSize codec).format.codec.isArchive = false :=
      harchive
    refine ⟨?_, fun h => nomatch h.1⟩
    rintro ⟨t, ht⟩
    obtain ⟨format, u, hu⟩ := readMap_of_classic hclassic _
    rw [ht] at hu
    cases hu
  | true =>
    have hmap : (headerBlock offset order declaredSize codec).format.codec.isArchive = true :=
      harchive
    have hstart : (headerBlock offset order declaredSize codec).start ≤ data.size := hfits
    rw [breaks_readMap_iff hmap, Archive.breaks_readWhole_iff rfl hstart]
    exact ⟨fun h => ⟨rfl, h⟩, fun h => h.2⟩

theorem read_broken_iff :
    read fileName data options = .error .broken ↔ BreaksOff options.search data := by
  constructor
  · intro hread
    cases course fileName data options with
    | small _ hother => rw [hread] at hother; cases hother
    | absent _ _ hother => rw [hread] at hother; cases hother
    | cut _ _ _ _ hother => rw [hread] at hother; cases hother
    | header offset order declaredSize codec hsize hfound hheader =>
      obtain ⟨hcodec, version, text, stop, table, hmap⟩ :=
        (read_broken_iff_of_header hsize hfound hheader).mp hread
      exact ⟨hsize, offset, order, declaredSize, codec, version, text, stop, table, hfound, hheader,
        hcodec, hmap⟩
  · rintro ⟨hsize, offset, order, declaredSize, codec, version, text, stop, table, hfound, hheader,
      hcodec, hmap⟩
    exact (read_broken_iff_of_header hsize hfound hheader).mpr
      ⟨hcodec, version, text, stop, table, hmap⟩

/-- Opening ends in a movie or in a failure for all streams but those with cut names. -/
theorem read_ends_iff (fileName : String) (data : ByteArray) (options : Options) :
    ((∃ movie, read fileName data options = .ok movie) ∨
      ∃ cause, read fileName data options = .error (.failed cause)) ↔
      ¬BreaksOff options.search data := by
  rw [← read_broken_iff]
  cases read fileName data options with
  | ok movie => simp
  | error halt =>
    cases halt with
    | failed cause => simp
    | broken => simp

end

end Movie

theorem VarintAt.of_written {data : ByteArray} {pos : Nat} {n : UInt32}
    (h : Holds data pos (Varint.written n)) :
    VarintAt data pos n (pos + (Varint.written n).length) := by
  have hspan : Spans id data .big Decode.varint (VarintAt data) := Decode.spans_varint
  obtain ⟨stop, hvarint, hstop⟩ := hspan.of_ok rfl (Decode.varint_ok h)
  cases hstop
  exact hvarint

def namelessTable : List UInt8 := [0x00, 0x01] ++ Identifier.zlib.bytes .big

/-- An archive without resources, which is whole but for the name of its compression scheme. -/
def namelessArchive : List UInt8 :=
  headerWritten .big 0 ⟨0x4647444D⟩ ++ (archivePart .big .version (Varint.written 0x400) ++
    (archivePart .big .descriptors (Inflate.plainStream namelessTable) ++
    (archivePart .big .archiveMap [0, 12, 0, 0, 1, 2, 0, 0, 0, 0, 0x49, 0x4C, 0x53, 0x20] ++
    archivePart .big .segments [])))

theorem read_namelessArchive :
    Movie.read "nameless.dcr" namelessArchive.toByteArray {} = .error .broken := by
  have h := Holds.whole namelessArchive
  have hversion : Holds namelessArchive.toByteArray 12
      (archivePart .big .version (Varint.written 0x400)) := h.append_right.append_left
  have hschemes : Holds namelessArchive.toByteArray 19
      (archivePart .big .descriptors (Inflate.plainStream namelessTable)) :=
    h.append_right.append_right.append_left
  have hnumber : Holds namelessArchive.toByteArray 17 (Varint.written 0x400) :=
    hversion.append_right.append_right
  have hstream : Holds namelessArchive.toByteArray 24 (Inflate.plainStream namelessTable) :=
    hschemes.append_right.append_right
  refine Movie.read_broken_iff.mpr ⟨by decide, 0, .big, 0, ⟨0x4647444D⟩, 0x400, none, 19,
    namelessTable, if_pos (by decide), h.append_left, .inl (by decide), ?_, ?_, ?_⟩
  · exact ⟨2, 17, 19, 19, 19, hversion.append_left,
      .of_written hversion.append_right.append_left, .of_written hnumber, rfl, ⟨rfl, rfl⟩, rfl,
      by decide⟩
  · exact ⟨_, 24, _, hschemes.append_left, .of_written hschemes.append_right.append_left, hstream,
      rfl, inflates_plainStream (by decide)⟩
  · exact ⟨1, Identifier.zlib.bytes .big, [], rfl, by decide, rfl, by decide⟩

end Shockwave
