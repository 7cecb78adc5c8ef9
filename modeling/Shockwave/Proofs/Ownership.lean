import Shockwave.Proofs.Finding

/-!
The scripts of a movie and the cast members that own them. A member names its script in its info
block or is linked to it; of several members that stand for one script, the one with the least id
owns it, in whatever order they were registered.
-/
namespace Shockwave

theorem Decode.remaining_bind {α : Type} {c : Cursor} {rest : Nat → Decode α} :
    (Decode.remaining >>= rest) c = rest c.remaining c := rfl

/-- A block of a stated length is cut where the stream ends. -/
theorem Decode.bytes_min_remaining {c : Cursor} {before rest : List UInt8}
    (h : octets c.data = before ++ rest) (hpos : c.pos = before.length) (length : Nat) :
    Decode.bytes (min length c.remaining) c =
      .ok (rest.take length).toByteArray
        { c with pos := (before ++ rest.take length).length } := by
  have hsize := congrArg List.length h
  rw [length_octets, List.length_append] at hsize
  have hwidth : (rest.take length).length = min length c.remaining := by
    unfold Cursor.remaining Cursor.size
    rw [List.length_take]
    omega
  have hblock : Holds c.data c.pos (rest.take length) :=
    ⟨before, rest.drop length, by rw [List.append_assoc, List.take_append_drop, h], hpos.symm⟩
  rw [Decode.bytes_ok hblock hwidth, List.length_append, hwidth, hpos]

namespace Member

/-- The bytes of a member. Its blocks have the lengths that are stated before them, or less where
the bytes end. -/
def StoredIn (m : Member) (bytes : ByteArray) : Prop :=
  ∃ (infoLength specificLength : UInt32) (rest : List UInt8),
    octets bytes = ByteOrder.big.bytes 4 m.code.toNat ++
      ByteOrder.big.bytes 4 infoLength.toNat ++ ByteOrder.big.bytes 4 specificLength.toNat ++ rest ∧
    octets m.info = rest.take infoLength.toNat ∧
    octets m.specific = (rest.drop infoLength.toNat).take specificLength.toNat

theorem exists_storedIn {bytes : ByteArray} (h : 12 ≤ bytes.size) :
    ∃ m : Member, m.StoredIn bytes := by
  obtain ⟨code, hcode⟩ : ∃ n : UInt32, Holds bytes 0 (ByteOrder.big.bytes 4 n.toNat) :=
    Holds.exists_word .big (by omega)
  obtain ⟨infoLength, hinfo⟩ : ∃ n : UInt32, Holds bytes 4 (ByteOrder.big.bytes 4 n.toNat) :=
    Holds.exists_word .big (by omega)
  obtain ⟨specificLength, hspecific⟩ : ∃ n : UInt32, Holds bytes 8 (ByteOrder.big.bytes 4 n.toNat) :=
    Holds.exists_word .big (by omega)
  obtain ⟨before, rest, hbytes, hbefore⟩ := (hcode.append hinfo (by simp)).append hspecific (by simp)
  rw [List.length_eq_zero_iff] at hbefore
  subst hbefore
  let m : Member :=
    { code, info := (rest.take infoLength.toNat).toByteArray
      specific := ((rest.drop infoLength.toNat).take specificLength.toNat).toByteArray }
  exact ⟨m, infoLength, specificLength, rest, hbytes, octets_toByteArray _, octets_toByteArray _⟩

theorem StoredIn.size_ne_zero {m : Member} {bytes : ByteArray} (h : m.StoredIn bytes) :
    bytes.size ≠ 0 := by
  obtain ⟨infoLength, specificLength, rest, hbytes, -, -⟩ := h
  have hsize := congrArg List.length hbytes
  simp only [length_octets, List.length_append, ByteOrder.length_bytes] at hsize
  omega

theorem read_of_storedIn {m : Member} {bytes : ByteArray} (h : m.StoredIn bytes) :
    Decode.run read bytes = .ok m := by
  obtain ⟨infoLength, specificLength, rest, hbytes, hinfo, hspecific⟩ := h
  have hwhole : Holds bytes 0 (octets bytes) := ⟨[], [], by simp, rfl⟩
  rw [hbytes] at hwhole
  have hsize := congrArg List.length hbytes
  simp only [length_octets, List.length_append, ByteOrder.length_bytes] at hsize
  have hblocks := hbytes
  rw [← List.take_append_drop infoLength.toNat rest, ← List.append_assoc] at hblocks
  have hinfo' : (rest.take infoLength.toNat).toByteArray = m.info :=
    octets_injective (by rw [octets_toByteArray, hinfo])
  have hspecific' :
      ((rest.drop infoLength.toNat).take specificLength.toNat).toByteArray = m.specific :=
    octets_injective (by rw [octets_toByteArray, hspecific])
  unfold Decode.run read
  rw [bind_ok (Decode.setOrder_ok .big), bind_ok (Decode.require_ok (by dsimp only; omega)),
    bind_ok (Decode.u32_ok hwhole.append_left.append_left.append_left),
    bind_ok (Decode.u32_ok hwhole.append_left.append_left.append_right),
    bind_ok (Decode.u32_ok hwhole.append_left.append_right)]
  simp only [UInt32.ofNat_toNat]
  rw [Decode.remaining_bind,
    bind_ok (Decode.bytes_min_remaining hbytes (by simp) infoLength.toNat),
    Decode.remaining_bind, bind_ok (Decode.bytes_min_remaining hblocks rfl specificLength.toNat),
    hinfo', hspecific']
  rfl

theorem run_read_eq_ok_iff {m : Member} {bytes : ByteArray} :
    Decode.run read bytes = .ok m ↔ m.StoredIn bytes := by
  constructor
  · intro hrun
    by_cases hsize : 12 ≤ bytes.size
    · obtain ⟨stored, hstored⟩ := exists_storedIn hsize
      rw [read_of_storedIn hstored] at hrun
      cases hrun
      exact hstored
    · unfold Decode.run read at hrun
      rw [bind_ok (Decode.setOrder_ok .big),
        bind_error (Decode.require_error (by dsimp only; omega))] at hrun
      cases hrun
  · exact read_of_storedIn

theorem isScript_iff (m : Member) : m.isScript = true ↔ m.code = 11 := by
  have hindex (n : Nat) : MemberKind.all[n]? = some .script ↔ n = 11 := by
    by_cases hn : n < 16
    · have hall : ∀ k : Fin 16, MemberKind.all[k.val]? = some .script ↔ k.val = 11 := by decide
      exact hall ⟨n, hn⟩
    · have hlength : MemberKind.all.length ≤ n := by
        change 16 ≤ n
        omega
      rw [List.getElem?_eq_none hlength]
      constructor
      · intro h
        cases h
      · intro h
        omega
  unfold isScript kind? MemberKind.ofCode?
  rw [beq_iff_eq, hindex, ← UInt32.toNat_inj]
  rfl

def namedId (m : Member) (order : ByteOrder) : Int32 :=
  (UInt32.ofNat (order.value (octets (m.info.extract 8 12)))).toInt32

theorem holds_id_iff {m : Member} {order : ByteOrder} {id : Int32} :
    Holds m.info 8 (order.bytes 4 id.toUInt32.toNat) ↔
      12 ≤ m.info.size ∧ id = m.namedId order := by
  constructor
  · intro h
    have hsize := h.fits
    rw [ByteOrder.length_bytes] at hsize
    have hword : octets (m.info.extract 8 12) = order.bytes 4 id.toUInt32.toNat :=
      h.octets_extract (by rw [ByteOrder.length_bytes])
    refine ⟨hsize, ?_⟩
    unfold namedId
    rw [hword, order.value_bytes_of_lt id.toUInt32.toNat_lt, UInt32.ofNat_toNat]
    rfl
  · rintro ⟨hsize, rfl⟩
    have hlength : (octets (m.info.extract 8 12)).length = 4 := by
      rw [length_octets, ByteArray.size_extract]
      omega
    have hfits : 8 + 4 ≤ m.info.size := hsize
    refine Holds.of_eq_extract ?_ hfits
    exact (order.bytes_word hlength).symm

def Names (m : Member) (resources : Container) (order : ByteOrder) (id : Int32) : Prop :=
  Holds m.info 8 (order.bytes 4 id.toUInt32.toNat) ∧ 0 < id ∧
    ∃ e, resources.find? id = some e ∧ e.tag = .script

/-- The script that a member stands for: the one that its info block names, most significant byte
first or, failing that, last; or else the first that is linked to it. -/
inductive Resolves (m : Member) (resources : Container) (memberId : Int32) : Int32 → Prop
  | big {id : Int32} : m.Names resources .big id → Resolves m resources memberId id
  | little {id : Int32} : (∀ other, ¬ m.Names resources .big other) →
    m.Names resources .little id → Resolves m resources memberId id
  | linked {before after : List Link} {link : Link} :
    (∀ order other, ¬ m.Names resources order other) →
    resources.links = before ++ link :: after →
    (∀ l ∈ before, ¬ (l.parent = memberId ∧ l.tag = .script)) →
    link.parent = memberId ∧ link.tag = .script → Resolves m resources memberId link.child

def named? (m : Member) (resources : Container) (order : ByteOrder) : Option Int32 :=
  if 12 ≤ m.info.size ∧ (0 < m.namedId order && ScriptEntry.isScriptId resources (m.namedId order))
  then some (m.namedId order) else none

theorem named?_eq_some_iff {m : Member} {resources : Container} {order : ByteOrder} {id : Int32} :
    m.named? resources order = some id ↔ m.Names resources order id := by
  have haccept : (0 < id && ScriptEntry.isScriptId resources id) = true ↔
      0 < id ∧ ∃ e, resources.find? id = some e ∧ e.tag = .script := by
    unfold ScriptEntry.isScriptId
    simp only [Bool.and_eq_true, decide_eq_true_iff, Option.any_eq_true, beq_iff_eq]
  unfold named? Names
  rw [Option.ite_none_right_eq_some, holds_id_iff, ← haccept]
  constructor
  · rintro ⟨⟨hsize, hid⟩, h⟩
    cases h
    exact ⟨⟨hsize, rfl⟩, hid⟩
  · rintro ⟨⟨hsize, rfl⟩, hid⟩
    exact ⟨⟨hsize, hid⟩, rfl⟩

theorem named?_eq_none_iff {m : Member} {resources : Container} {order : ByteOrder} :
    m.named? resources order = none ↔ ∀ id, ¬ m.Names resources order id := by
  simp only [Option.eq_none_iff_forall_ne_some, ne_eq, named?_eq_some_iff]

theorem scriptId?_eq (m : Member) (resources : Container) :
    m.scriptId? (ScriptEntry.isScriptId resources) =
      (m.named? resources .big).or (m.named? resources .little) := by
  have hlength : (octets (m.info.extract 8 12)).length = min 12 m.info.size - 8 := by
    rw [length_octets, ByteArray.size_extract]
  unfold scriptId? named?
  by_cases hsize : 12 ≤ m.info.size
  · dsimp only
    rw [if_neg (by omega)]
    simp only [hsize, true_and]
    change List.find? _ [m.namedId .big, m.namedId .little] = _
    rw [List.find?_cons, List.find?_singleton]
    split
    · next h => rw [if_pos h, Option.some_or]
    · next h => simp only [h, Bool.false_eq_true, if_false, Option.none_or]
  · dsimp only
    rw [if_pos (by omega), if_neg (fun h => hsize h.1), if_neg (fun h => hsize h.1)]
    rfl

def linked? (resources : Container) (memberId : Int32) : Option Int32 :=
  ((resources.childrenOf memberId).find? (·.tag == .script)).map (·.child)

theorem linked?_eq_some_iff {resources : Container} {memberId id : Int32} :
    linked? resources memberId = some id ↔ ∃ before link after,
      resources.links = before ++ link :: after ∧
      (∀ l ∈ before, ¬ (l.parent = memberId ∧ l.tag = .script)) ∧
      (link.parent = memberId ∧ link.tag = .script) ∧ link.child = id := by
  unfold linked? Container.childrenOf
  rw [List.find?_filter, Option.map_eq_some_iff]
  simp only [List.find?_eq_some_iff_append, beq_iff_eq, decide_eq_true_iff, Bool.not_eq_true',
    decide_eq_false_iff_not]
  constructor
  · rintro ⟨link, ⟨hlink, before, after, hlinks, hbefore⟩, hid⟩
    exact ⟨before, link, after, hlinks, hbefore, hlink, hid⟩
  · rintro ⟨before, link, after, hlinks, hbefore, hlink, hid⟩
    exact ⟨link, ⟨hlink, before, after, hlinks, hbefore⟩, hid⟩

theorem scriptOf?_eq_some_iff {m : Member} {resources : Container} {memberId id : Int32} :
    ScriptEntry.scriptOf? resources memberId m = some id ↔ m.Resolves resources memberId id := by
  have hscript : ScriptEntry.scriptOf? resources memberId m =
      ((m.named? resources .big).or (m.named? resources .little)).or
        (linked? resources memberId) := by
    rw [← scriptId?_eq]
    rfl
  rw [hscript, Option.or_eq_some_iff, Option.or_eq_some_iff, Option.or_eq_none_iff,
    named?_eq_none_iff, named?_eq_none_iff, named?_eq_some_iff, named?_eq_some_iff,
    linked?_eq_some_iff]
  constructor
  · rintro ((hbig | ⟨hbig, hlittle⟩) | ⟨⟨hbig, hlittle⟩, before, link, after, hlinks, hbefore,
      hlink, rfl⟩)
    · exact .big hbig
    · exact .little hbig hlittle
    · refine .linked (fun order => ?_) hlinks hbefore hlink
      cases order with
      | big => exact hbig
      | little => exact hlittle
  · intro h
    cases h with
    | big hbig => exact .inl (.inl hbig)
    | little hbig hlittle => exact .inl (.inr ⟨hbig, hlittle⟩)
    | linked hnames hlinks hbefore hlink =>
      exact .inr ⟨⟨hnames .big, hnames .little⟩, _, _, _, hlinks, hbefore, hlink, rfl⟩

end Member

namespace Container

theorem id_of_find? {c : Container} {id : Int32} {e : Entry} (h : c.find? id = some e) :
    e.id = id := by
  unfold find? at h
  simpa using List.find?_some h

theorem find?_eq_some_iff {c : Container} (hnodup : (c.entries.map (·.id)).Nodup) {id : Int32}
    {e : Entry} : c.find? id = some e ↔ e ∈ c.entries ∧ e.id = id := by
  constructor
  · intro h
    exact ⟨List.mem_of_find?_eq_some h, id_of_find? h⟩
  · rintro ⟨hmem, rfl⟩
    exact find?_eq_some hnodup hmem

theorem has_iff {c : Container} {id : Int32} : c.has id = true ↔ id ∈ c.entries.map (·.id) := by
  unfold has find?
  rw [List.find?_isSome, List.mem_map]
  simp only [beq_iff_eq]

theorem id_replace (e old : Entry) : (if old.id = e.id then e else old).id = old.id := by
  split
  next h => exact h.symm
  next => rfl

theorem map_id_insert (c : Container) (e : Entry) :
    (c.insert e).entries.map (·.id) =
      if e.id ∈ c.entries.map (·.id) then c.entries.map (·.id)
      else c.entries.map (·.id) ++ [e.id] := by
  unfold insert
  split
  next hhas =>
    rw [if_pos (has_iff.mp hhas), List.map_map]
    exact List.map_congr_left fun old _ => id_replace e old
  next hnew =>
    rw [if_neg (fun h => hnew (has_iff.mpr h)), List.map_append]
    rfl

theorem nodup_insert {c : Container} (h : (c.entries.map (·.id)).Nodup) (e : Entry) :
    ((c.insert e).entries.map (·.id)).Nodup := by
  rw [map_id_insert]
  split
  next => exact h
  next hnew =>
    refine List.nodup_append.mpr ⟨h, by simp, ?_⟩
    intro a ha b hb hab
    rw [List.mem_singleton] at hb
    exact hnew (hb ▸ hab ▸ ha)

theorem nodup_foldl_insert {c : Container} (h : (c.entries.map (·.id)).Nodup)
    (entries : List Entry) : ((entries.foldl insert c).entries.map (·.id)).Nodup := by
  induction entries generalizing c with
  | nil => exact h
  | cons e rest ih => exact ih (nodup_insert h e)

def withEntries (c : Container) (entries : List Entry) : Container := { c with entries }

theorem entries_withEntries (c : Container) (entries : List Entry) :
    (c.withEntries entries).entries = entries := rfl

theorem find?_perm {c : Container} (hnodup : (c.entries.map (·.id)).Nodup) {entries : List Entry}
    (hperm : entries.Perm c.entries) (id : Int32) :
    (c.withEntries entries).find? id = c.find? id := by
  have hnodup' : (entries.map (·.id)).Nodup := (hperm.map _).nodup_iff.mpr hnodup
  apply Option.ext
  intro e
  rw [find?_eq_some_iff hnodup', find?_eq_some_iff hnodup, entries_withEntries, hperm.mem_iff]

end Container

def Session.withEntries (s : Session) (entries : List Entry) : Session :=
  { s with resources := s.resources.withEntries entries }

theorem Session.resources_withEntries (s : Session) (entries : List Entry) :
    (s.withEntries entries).resources = s.resources.withEntries entries := rfl

namespace ScriptEntry

theorem mem_castEntries {resources : Container} {e : Entry} :
    e ∈ castEntries resources ↔
      e ∈ resources.entries ∧ (e.tag = .castMember ∨ e.tag = .castMemberOld) := by
  unfold castEntries Container.withTag
  rw [List.mem_mergeSort, List.mem_append, List.mem_filter, List.mem_filter, beq_iff_eq, beq_iff_eq,
    and_or_left]

theorem pairwise_castEntries (resources : Container) :
    (castEntries resources).Pairwise fun a b => a.id ≤ b.id := by
  have htrans (a b c : Entry) (hab : decide (a.id ≤ b.id) = true)
      (hbc : decide (b.id ≤ c.id) = true) : decide (a.id ≤ c.id) = true :=
    decide_eq_true (Int32.le_trans (of_decide_eq_true hab) (of_decide_eq_true hbc))
  have htotal (a b : Entry) : (decide (a.id ≤ b.id) || decide (b.id ≤ a.id)) = true := by
    simpa using Int32.le_total a.id b.id
  exact (List.pairwise_mergeSort htrans htotal _).imp of_decide_eq_true

theorem castEntries_perm {resources : Container} (hnodup : (resources.entries.map (·.id)).Nodup)
    {entries : List Entry} (hperm : entries.Perm resources.entries) :
    castEntries (resources.withEntries entries) = castEntries resources := by
  refine List.Perm.eq_of_pairwise ?_ (pairwise_castEntries _) (pairwise_castEntries _) ?_
  · intro a b ha hb hab hba
    have ha' : a ∈ resources.entries := hperm.mem_iff.mp (mem_castEntries.mp ha).1
    have hb' := Container.find?_eq_some hnodup (mem_castEntries.mp hb).1
    rw [← Int32.le_antisymm hab hba, Container.find?_eq_some hnodup ha'] at hb'
    exact Option.some.inj hb'
  · unfold castEntries
    refine (List.mergeSort_perm _ _).trans (List.Perm.trans ?_ (List.mergeSort_perm _ _).symm)
    exact (hperm.filter _).append (hperm.filter _)

structure Owns (s : Session) (id : Int32) (e : Entry) (m : Member) : Prop where
  registered : e ∈ s.resources.entries
  cast : e.tag = .castMember ∨ e.tag = .castMemberOld
  stored : ∃ bytes, Payload.content s e = some bytes ∧ m.StoredIn bytes
  script : m.code = 11
  resolves : m.Resolves s.resources e.id id

def ownerAs (e : Entry) (m : Member) : Owner :=
  { memberId := e.id, format := m.format, info := m.info }

theorem bytesOf?_eq_some_iff {s : Session} {e : Entry} {bytes : ByteArray} :
    bytesOf? s e = some bytes ↔ Payload.content s e = some bytes ∧ bytes.size ≠ 0 := by
  unfold bytesOf?
  rw [Option.filter_eq_some_iff, decide_eq_true_iff]

theorem ownerOf?_eq_some_iff {s : Session} {e : Entry} {id : Int32} {o : Owner} :
    ownerOf? s e = some (id, o) ↔ ∃ m : Member,
      (∃ bytes, Payload.content s e = some bytes ∧ m.StoredIn bytes) ∧ m.code = 11 ∧
        m.Resolves s.resources e.id id ∧ o = ownerAs e m := by
  have hread {bytes : ByteArray} {m : Member} :
      (Decode.run Member.read bytes).toOption = some m ↔ m.StoredIn bytes := by
    rw [← Member.run_read_eq_ok_iff]
    cases Decode.run Member.read bytes <;> simp [Except.toOption]
  unfold ownerOf?
  simp only [Option.bind_eq_some_iff, Option.filter_eq_some_iff, Option.map_eq_some_iff,
    bytesOf?_eq_some_iff, hread, Member.isScript_iff, Member.scriptOf?_eq_some_iff, Prod.mk.injEq]
  constructor
  · rintro ⟨bytes, ⟨hcontent, hsize⟩, m, ⟨hstored, hcode⟩, id, hid, rfl, rfl⟩
    exact ⟨m, ⟨bytes, hcontent, hstored⟩, hcode, hid, rfl⟩
  · rintro ⟨m, ⟨bytes, hcontent, hstored⟩, hcode, hid, rfl⟩
    exact ⟨bytes, ⟨hcontent, hstored.size_ne_zero⟩, m, ⟨hstored, hcode⟩, id, hid, rfl, rfl⟩

/-- The first of the sorted entries that passes a test has the least id. -/
theorem le_of_find?_castEntries {resources : Container} {test : Entry → Bool} {e e' : Entry}
    (h : (castEntries resources).find? test = some e) (hmem : e' ∈ castEntries resources)
    (htest : test e' = true) : e.id ≤ e'.id := by
  obtain ⟨-, before, after, hsplit, hbefore⟩ := List.find?_eq_some_iff_append.mp h
  have hsorted := pairwise_castEntries resources
  rw [hsplit] at hmem hsorted
  rcases List.mem_append.mp hmem with hmem | hmem
  · have hfails := hbefore e' hmem
    rw [htest] at hfails
    cases hfails
  · rcases List.mem_cons.mp hmem with rfl | hmem
    · exact Int32.le_refl _
    · exact List.rel_of_pairwise_cons (List.pairwise_append.mp hsorted).2.1 hmem

theorem Owns.mem_castEntries {s : Session} {id : Int32} {e : Entry} {m : Member}
    (h : Owns s id e m) : e ∈ castEntries s.resources :=
  ScriptEntry.mem_castEntries.mpr ⟨h.registered, h.cast⟩

theorem Owns.ownerOf?_eq {s : Session} {id : Int32} {e : Entry} {m : Member} (h : Owns s id e m) :
    ownerOf? s e = some (id, ownerAs e m) :=
  ownerOf?_eq_some_iff.mpr ⟨m, h.stored, h.script, h.resolves, rfl⟩

theorem exists_owns_of_ownerOf? {s : Session} {id : Int32} {e : Entry} {o : Owner}
    (hmem : e ∈ castEntries s.resources) (h : ownerOf? s e = some (id, o)) :
    ∃ m, Owns s id e m ∧ o = ownerAs e m := by
  obtain ⟨hregistered, hcast⟩ := mem_castEntries.mp hmem
  obtain ⟨m, hstored, hscript, hresolves, ho⟩ := ownerOf?_eq_some_iff.mp h
  exact ⟨m, ⟨hregistered, hcast, hstored, hscript, hresolves⟩, ho⟩

theorem owner?_cases (s : Session) (id : Int32) :
    (∃ e m, Owns s id e m ∧ (∀ e' m', Owns s id e' m' → e.id ≤ e'.id) ∧
        owner? s id = some (ownerAs e m)) ∨
      ((∀ e m, ¬ Owns s id e m) ∧ owner? s id = none) := by
  unfold owner?
  rw [List.find?_filterMap]
  cases hfind : (castEntries s.resources).find? fun e => (ownerOf? s e).any (·.1 == id) with
  | none =>
    refine .inr ⟨fun e m h => ?_, rfl⟩
    have hnone := List.find?_eq_none.mp hfind e h.mem_castEntries
    simp [h.ownerOf?_eq] at hnone
  | some e =>
    have hany := List.find?_some hfind
    rw [Option.any_eq_true] at hany
    obtain ⟨⟨id', o⟩, howner, hid⟩ := hany
    rw [beq_iff_eq] at hid
    subst hid
    obtain ⟨m, howns, rfl⟩ := exists_owns_of_ownerOf? (List.mem_of_find?_eq_some hfind) howner
    refine .inl ⟨e, m, howns, fun e' m' h => ?_, by rw [Option.bind_some, howner]; rfl⟩
    exact le_of_find?_castEntries hfind h.mem_castEntries (by simp [h.ownerOf?_eq])

/-- What a script says of its owner, with the text of the owner's info block if that is asked for. -/
inductive Credited (archiveVersion : UInt32) (decodeText : Bool) (s : Session) (x : ScriptEntry) :
    Prop
  | owned (e : Entry) (m : Member) : Owns s x.id e m →
    (∀ e' m', Owns s x.id e' m' → e.id ≤ e'.id) → x.memberId = some e.id → x.format = m.format →
    x.info = (if decodeText then (ScriptInfo.detect? m.info archiveVersion).map (·.1) else none) →
    x.ambiguous = (decodeText && (ScriptInfo.detect? m.info archiveVersion).any (·.2)) →
    Credited archiveVersion decodeText s x
  | unowned : (∀ e m, ¬ Owns s x.id e m) → x.memberId = none → x.format = .unknown →
    x.info = none → x.ambiguous = false → Credited archiveVersion decodeText s x

variable (archiveVersion : UInt32) (decodeText : Bool) (s : Session)

theorem credited_of_owner? (id : Int32) (bytes : ByteArray) :
    Credited archiveVersion decodeText s
      (credited archiveVersion decodeText (owner? s id) id bytes) := by
  obtain ⟨e, m, howns, hleast, howner⟩ | ⟨hnone, howner⟩ := owner?_cases s id
  · rw [howner]
    refine .owned e m howns hleast rfl rfl ?_ ?_
    · cases decodeText <;> rfl
    · cases decodeText <;> rfl
  · rw [howner]
    refine .unowned hnone rfl rfl ?_ ?_
    · cases decodeText <;> rfl
    · cases decodeText <;> rfl

theorem map_found :
    (found archiveVersion decodeText s).map (fun x => (x.id, x.bytes)) =
      (s.resources.withTag .script).filterMap fun e =>
        ((Payload.content s e).filter fun bytes => bytes.size ≠ 0).map (e.id, ·) := by
  unfold found
  rw [List.map_filterMap]
  congr 1
  funext e
  rw [Option.map_map]
  rfl

theorem found_without_text :
    found archiveVersion false s =
      (found archiveVersion decodeText s).map
        fun x => { x with info := none, ambiguous := false } := by
  unfold found
  rw [List.map_filterMap]
  congr 1
  funext e
  rw [Option.map_map]
  rfl

variable {s}

theorem owner?_perm (hnodup : (s.resources.entries.map (·.id)).Nodup) {entries : List Entry}
    (hperm : entries.Perm s.resources.entries) (id : Int32) :
    owner? (s.withEntries entries) id = owner? s id := by
  have hscript : isScriptId (s.resources.withEntries entries) = isScriptId s.resources := by
    funext id
    unfold isScriptId
    rw [Container.find?_perm hnodup hperm]
  have howner : ownerOf? (s.withEntries entries) = ownerOf? s := by
    funext e
    unfold ownerOf? scriptOf?
    rw [Session.resources_withEntries, hscript]
    rfl
  unfold owner?
  rw [howner, Session.resources_withEntries, castEntries_perm hnodup hperm]

theorem found_perm (hnodup : (s.resources.entries.map (·.id)).Nodup) {entries : List Entry}
    (hperm : entries.Perm s.resources.entries)
    (hscripts : entries.filter (·.tag == .script) = s.resources.withTag .script) :
    found archiveVersion decodeText (s.withEntries entries) =
      found archiveVersion decodeText s := by
  unfold found
  simp only [owner?_perm hnodup hperm]
  rw [← hscripts]
  rfl

variable (s)

/-- All scripts that have bytes are found, in the order of the resources, and each is credited to the
least of its owners. In which order the cast was registered makes no difference, and without the text
of the info blocks nothing else is missing. -/
theorem collect_credited {ε : Type} :
    ∃ scripts : List ScriptEntry,
      Step.Yields (collect archiveVersion decodeText : Step ε _) s scripts ∧
      (∀ e, Step.Yields (Payload.load e : Step ε _) s (Payload.content s e)) ∧
      (scripts.map fun x => (x.id, x.bytes)) = (s.resources.withTag .script).filterMap (fun e =>
        ((Payload.content s e).filter fun bytes => bytes.size ≠ 0).map (e.id, ·)) ∧
      (∀ x ∈ scripts, Credited archiveVersion decodeText s x) ∧
      ((s.resources.entries.map (·.id)).Nodup → ∀ entries : List Entry,
        entries.Perm s.resources.entries →
        entries.filter (·.tag == .script) = s.resources.withTag .script →
        Step.Yields (collect archiveVersion decodeText : Step ε _)
          (s.withEntries entries) scripts) ∧
      Step.Yields (collect archiveVersion false : Step ε _) s
        (scripts.map fun x => { x with info := none, ambiguous := false }) := by
  refine ⟨found archiveVersion decodeText s, yields_collect archiveVersion decodeText s,
    fun e => Payload.yields_load e s, map_found archiveVersion decodeText s, ?_, ?_, ?_⟩
  · intro x hx
    obtain ⟨e, -, he⟩ := List.mem_filterMap.mp hx
    obtain ⟨bytes, -, rfl⟩ := Option.map_eq_some_iff.mp he
    exact credited_of_owner? archiveVersion decodeText s e.id bytes
  · intro hnodup entries hperm hscripts
    rw [← found_perm archiveVersion decodeText hnodup hperm hscripts]
    exact yields_collect archiveVersion decodeText _
  · rw [← found_without_text]
    exact yields_collect archiveVersion false s

def rival : Member where
  code := 11
  info := [0, 0, 0, 0, 0, 0, 0, 0, 0, 0, 0, 5].toByteArray
  specific := [0, 3].toByteArray

def rivalBytes : ByteArray :=
  (ByteOrder.big.bytes 4 11 ++ ByteOrder.big.bytes 4 12 ++ ByteOrder.big.bytes 4 2 ++
    (octets rival.info ++ octets rival.specific)).toByteArray

def inSegment (id : Int32) (tag : Tag) : Entry :=
  { id, tag, size := 1, storage := .archived (-1) 1 0 }

/-- An archive with one script and two members that stand for it. The member with the greater id was
registered first. -/
def contested : Session where
  fileName := "contested.dcr"
  cursor := { data := .empty }
  archive := some { version := 0, versionText := none, bodyOffset := 0 }
  resources :=
    { [inSegment 7 .castMember, inSegment 5 .script, inSegment 2 .castMemberOld].foldl
        Container.insert {} with
      segments := [(7, rivalBytes), (5, [1].toByteArray), (2, rivalBytes)] }

theorem owns_contested : Owns contested 5 (inSegment 2 .castMemberOld) rival where
  registered := by decide
  cast := .inr rfl
  stored := ⟨rivalBytes, rfl, 12, 2, _, octets_toByteArray _, by decide, by decide⟩
  script := rfl
  resolves := by
    refine .big ⟨?_, by decide, inSegment 5 .script, by decide, rfl⟩
    exact ⟨[0, 0, 0, 0, 0, 0, 0, 0], [], by decide, rfl⟩

theorem collect_contested :
    (contested.resources.entries.map (·.id)).Nodup ∧
    ∃ scripts, Step.Yields (collect 0 true : Step Halt _) contested scripts ∧
      Step.Yields (collect 0 true : Step Halt _)
        (contested.withEntries contested.resources.entries.reverse) scripts ∧
      (scripts.map fun x => (x.id, x.memberId, x.format)) = [(5, some 2, .movie)] := by
  have hnodup : (contested.resources.entries.map (·.id)).Nodup :=
    Container.nodup_foldl_insert (by decide) _
  obtain ⟨scripts, hyields, -, hbytes, hcredited, hperm, -⟩ :=
    collect_credited 0 true contested (ε := Halt)
  refine ⟨hnodup, scripts, hyields, hperm hnodup _ (List.reverse_perm _) (by decide), ?_⟩
  have hone : (scripts.map fun x => (x.id, x.bytes)) = [(5, [1].toByteArray)] := hbytes
  obtain ⟨x, rfl, hx⟩ := List.map_eq_singleton_iff.mp hone
  obtain ⟨hid, -⟩ := Prod.mk.inj hx
  cases hcredited x (List.mem_singleton_self x) with
  | owned e m howns hleast hmember hformat _ _ =>
    rw [hid] at howns hleast
    have hsole : ∀ e ∈ contested.resources.entries, e.tag = .castMember ∨ e.tag = .castMemberOld →
        e.id ≤ (inSegment 2 .castMemberOld).id → e = inSegment 2 .castMemberOld := by decide
    have hle := hleast _ _ owns_contested
    obtain rfl := hsole e howns.registered howns.cast hle
    have howner := howns.ownerOf?_eq.symm.trans owns_contested.ownerOf?_eq
    have hrival : m.format = rival.format :=
      congrArg Owner.format (Prod.mk.inj (Option.some.inj howner)).2
    rw [List.map_singleton, hid, hmember, hformat, hrival]
    decide
  | unowned hnone _ _ _ _ =>
    rw [hid] at hnone
    exact absurd owns_contested (hnone _ _)

end ScriptEntry
end Shockwave
