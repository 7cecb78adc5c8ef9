import Shockwave.Proofs.Reopening
import Shockwave.Proofs.Walking

/-!
The body of a classic resource, told by the heads that stand in the stream. The first place with a
head under the tag of the resource decides, also when the body there is cut off, and loading leaves
nothing behind but notes.
-/
namespace Shockwave

namespace ChunkHead

/-- Of some places, the head stands at the first one that has a head under the tag. -/
inductive First (data : ByteArray) (order : ByteOrder) (tag : Tag) :
    List Nat → ChunkHead → Prop where
  | here {head : ChunkHead} {rest : List Nat} (stands : head.Stands data order)
      (tag_eq : head.tag = tag) : First data order tag (head.pos :: rest) head
  | later {place : Nat} {head : ChunkHead} {rest : List Nat}
      (missed : ∀ other : ChunkHead, other.Stands data order → other.pos = place → other.tag ≠ tag)
      (first : First data order tag rest head) : First data order tag (place :: rest) head

section

variable {data : ByteArray} {order : ByteOrder} {tag : Tag} {head : ChunkHead}

theorem Stands.fits (h : head.Stands data order) : head.pos + 8 ≤ data.size := by
  have hfits := h.bytes.fits
  rwa [List.length_append, Tag.length_written, ByteOrder.length_bytes] at hfits

theorem Stands.parse_eq (h : head.Stands data order) : parse data order head.pos = head := by
  have htag := h.bytes.append_left
  have hlength := h.bytes.append_right
  rw [Tag.length_written] at hlength
  unfold parse
  dsimp only
  rw [htag.octets_extract (by rw [Tag.length_written]),
    hlength.octets_extract (by rw [ByteOrder.length_bytes]), order.value_bytes_of_lt h.length_lt,
    Tag.written, order.value_bytes_of_lt head.tag.code.toNat_lt, UInt32.ofNat_toNat]

theorem under?_eq_some_iff {place : Nat} :
    under? data order tag place = some head ↔
      head.Stands data order ∧ head.pos = place ∧ head.tag = tag := by
  constructor
  · intro h
    obtain ⟨hat, htag⟩ := Option.filter_eq_some_iff.mp h
    obtain ⟨hfits, hparse⟩ := Option.ite_none_right_eq_some.mp hat
    cases hparse
    exact ⟨stands_parse hfits, rfl, by simpa using htag⟩
  · rintro ⟨hstands, rfl, rfl⟩
    refine under?_of_eq ?_ rfl
    rw [at?, if_pos hstands.fits, hstands.parse_eq]

theorem under?_eq_none_iff {place : Nat} :
    under? data order tag place = none ↔
      ∀ other : ChunkHead, other.Stands data order → other.pos = place → other.tag ≠ tag := by
  simp only [Option.eq_none_iff_forall_ne_some, ne_eq, under?_eq_some_iff, not_and]

theorem First.eq_of_stands {other : ChunkHead} {rest : List Nat}
    (h : First data order tag (head.pos :: rest) other) (hstands : head.Stands data order)
    (htag : head.tag = tag) : other = head := by
  generalize hplace : head.pos = place at h
  cases h with
  | here hother _ => rw [← hstands.parse_eq, hplace, hother.parse_eq]
  | later hmissed _ => exact absurd htag (hmissed head hstands hplace)

theorem firstUnder?_eq_some_iff {places : List Nat} :
    firstUnder? data order tag places = some head ↔ First data order tag places head := by
  induction places with
  | nil =>
    constructor
    · intro h
      cases h
    · intro h
      cases h
  | cons place rest ih =>
    cases hunder : under? data order tag place with
    | none =>
      have hmissed := under?_eq_none_iff.mp hunder
      rw [firstUnder?_of_none hunder, ih]
      constructor
      · exact .later hmissed
      · rintro (⟨hstands, htag⟩ | ⟨-, hfirst⟩)
        · exact absurd htag (hmissed head hstands rfl)
        · exact hfirst
    | some found =>
      obtain ⟨hstands, rfl, htag⟩ := under?_eq_some_iff.mp hunder
      rw [firstUnder?_of_some hunder, Option.some.injEq]
      constructor
      · rintro rfl
        exact .here hstands htag
      · intro hfirst
        exact (hfirst.eq_of_stands hstands htag).symm

theorem body?_eq_some_iff {bytes : ByteArray} :
    head.body? data = some bytes ↔
      Holds data head.body (octets bytes) ∧ bytes.size = head.length := by
  unfold body?
  rw [Option.ite_none_right_eq_some, Option.some.injEq]
  constructor
  · rintro ⟨hfits, rfl⟩
    obtain ⟨found, hfound, hlength⟩ := Holds.of_fits hfits
    rw [hfound.extract (by rw [hlength]), octets_toByteArray, ← length_octets, octets_toByteArray]
    exact ⟨hfound, hlength⟩
  · rintro ⟨hholds, hsize⟩
    have hfits := hholds.fits
    rw [length_octets, hsize] at hfits
    refine ⟨hfits, octets_injective ?_⟩
    exact hholds.octets_extract (by rw [length_octets, hsize])

theorem under?_further (hsize : data.size < 0x10000000000000000) (start distance : Nat) :
    under? data order tag (further start distance) = under? data order tag (start + distance) := by
  rcases Nat.lt_or_ge (start + distance) 0x10000000000000000 with hlt | hge
  · have hsum : further start distance = start + distance := by
      unfold further
      omega
    rw [hsum]
  · have hlast : further start distance = 0xFFFFFFFFFFFFFFFF := by
      unfold further
      omega
    have hcut {place : Nat} (h : 0xFFFFFFFFFFFFFFFF ≤ place) : under? data order tag place = none :=
      under?_of_cut (if_neg (by omega))
    rw [hlast, hcut (Nat.le_refl _), hcut (by omega)]

end

end ChunkHead

theorem Step.restoring_noting {ε α : Type} {step : Step ε α} {s : Session} {a : α}
    (hblind : Blind step) (h : Yields step s a) :
    ∃ notes, restoring step s = .ok a (s.noting notes) := by
  obtain ⟨t, ht, pos, notes, rfl⟩ := h
  have hfresh := hblind s.notes { s with notes := [] }
  have hs : Session.recalling s.notes { s with notes := [] } = s := by
    simp only [Session.recalling, List.append_nil]
  rw [hs, ht] at hfresh
  cases hstep : step { s with notes := [] } with
  | error e u =>
    rw [hstep] at hfresh
    cases hfresh
  | ok b u =>
    rw [hstep] at hfresh
    have hnotes : notes = s.notes ++ u.notes := by
      injection hfresh with _ hsession
      exact congrArg Session.notes hsession
    refine ⟨u.notes, ?_⟩
    simp only [restoring, ht, hnotes]
    rfl

namespace Payload

variable {ε : Type}

theorem classic_noting (e : Entry) (s : Session) :
    ∃ notes, (classic e : Step ε _) s =
      .ok (bodyOf s.cursor.data s.cursor.order s.offset e) (s.noting notes) :=
  Step.restoring_noting (blind_amongChunks e _) (yields_amongChunks e _ s)

/-- The first place counts from the start of the stream, the second from that of the container. -/
theorem bodyOf_eq_some_iff {data : ByteArray} {order : ByteOrder} {offset : Nat} {e : Entry}
    {bytes : ByteArray} (hsize : data.size < 0x10000000000000000) :
    bodyOf data order offset e = some bytes ↔ ∃ head,
      ChunkHead.First data order e.tag [e.offset.toNat, offset + e.offset.toNat] head ∧
      Holds data head.body (octets bytes) ∧ bytes.size = head.length := by
  have hplaces : ChunkHead.firstUnder? data order e.tag
      [e.offset.toNat, further offset e.offset.toNat].eraseDups =
      ChunkHead.firstUnder? data order e.tag [e.offset.toNat, offset + e.offset.toNat] := by
    unfold ChunkHead.firstUnder?
    rw [findSome?_eraseDups]
    simp only [List.findSome?_cons, ChunkHead.under?_further hsize]
  unfold bodyOf probe
  rw [hplaces, Option.bind_eq_some_iff]
  simp only [ChunkHead.firstUnder?_eq_some_iff, ChunkHead.body?_eq_some_iff]

/-- Loading always has a result and puts the cursor back. It gives just the body under the first
head with the tag of the resource, and nothing when there is no such head or it is cut off. -/
theorem classic_exact (e : Entry) (s : Session)
    (hsize : s.cursor.data.size < 0x10000000000000000) :
    ∃ result t, (classic e : Step ε _) s = .ok result t ∧
      t.cursor = s.cursor ∧ (∃ notes, t = s.noting notes) ∧
      (∀ bytes, result = some bytes ↔ ∃ head,
        ChunkHead.First s.cursor.data s.cursor.order e.tag
          [e.offset.toNat, s.offset + e.offset.toNat] head ∧
        Holds s.cursor.data head.body (octets bytes) ∧ bytes.size = head.length) ∧
      ∀ head : ChunkHead, head.Stands s.cursor.data s.cursor.order →
        head.pos = e.offset.toNat → head.tag = e.tag →
        s.cursor.data.size < head.body + head.length → result = none := by
  obtain ⟨notes, hrun⟩ := classic_noting (ε := ε) e s
  refine ⟨_, _, hrun, rfl, ⟨notes, rfl⟩, fun bytes => bodyOf_eq_some_iff hsize, ?_⟩
  intro head hstands hpos htag hcut
  refine Option.eq_none_iff_forall_ne_some.mpr fun bytes hbytes => ?_
  obtain ⟨other, hfirst, hholds, hlength⟩ := (bodyOf_eq_some_iff hsize).mp hbytes
  rw [← hpos] at hfirst
  obtain rfl := hfirst.eq_of_stands hstands htag
  have hfits := hholds.fits
  rw [length_octets, hlength] at hfits
  omega

/-- Two heads under the tag of a script, of which the first declares more than the stream has. -/
def cutScript : List UInt8 :=
  [0, 0, 0, 0] ++ (Tag.script.written .little ++ ByteOrder.little.bytes 4 1000) ++
    [0, 0, 0, 0] ++ (Tag.script.written .little ++ ByteOrder.little.bytes 4 3) ++ [7, 8, 9, 1]

def cutScriptSession (offset : Nat) : Session :=
  { fileName := "cut.dir", cursor := ⟨cutScript.toByteArray, 3, .little⟩, offset }

theorem classic_cutScript :
    cutScript.toByteArray.size < 0x10000000000000000 ∧
    (∃ t, (classic { id := 1, tag := .script, offset := 4 } : Step Halt _) (cutScriptSession 12) =
      .ok none t ∧ t.cursor = (cutScriptSession 12).cursor) ∧
    ∃ t, (classic { id := 1, tag := .script } : Step Halt _) (cutScriptSession 16) =
      .ok (some [7, 8, 9].toByteArray) t ∧ t.cursor = (cutScriptSession 16).cursor := by
  have hsize : cutScript.toByteArray.size < 0x10000000000000000 := by decide
  refine ⟨hsize, ?_, ?_⟩
  · obtain ⟨result, t, hrun, hcursor, -, -, hcut⟩ := classic_exact (ε := Halt)
      { id := 1, tag := .script, offset := 4 } (cutScriptSession 12) hsize
    have hunder : ChunkHead.under? cutScript.toByteArray .little .script 4 =
        some ⟨4, .script, 1000⟩ := by decide
    obtain ⟨hstands, hpos, htag⟩ := ChunkHead.under?_eq_some_iff.mp hunder
    rw [hcut _ hstands hpos htag (by decide)] at hrun
    exact ⟨t, hrun, hcursor⟩
  · obtain ⟨result, t, hrun, hcursor, -, hbytes, -⟩ := classic_exact (ε := Halt)
      { id := 1, tag := .script } (cutScriptSession 16) hsize
    have hfirst : ChunkHead.firstUnder? cutScript.toByteArray .little .script [0, 16] =
        some ⟨16, .script, 3⟩ := by decide
    have hbody : ChunkHead.body? ⟨16, .script, 3⟩ cutScript.toByteArray =
        some [7, 8, 9].toByteArray := by decide
    rw [(hbytes [7, 8, 9].toByteArray).mpr ⟨_, ChunkHead.firstUnder?_eq_some_iff.mp hfirst,
      ChunkHead.body?_eq_some_iff.mp hbody⟩] at hrun
    exact ⟨t, hrun, hcursor⟩

end Payload

end Shockwave
