import Shockwave.Proofs.Layout
import Shockwave.Proofs.Probing

/-!
Where the container of a stream is found: at its start, where a projector stub points, or at the
first magic word.
-/
namespace Shockwave

theorem ClassicLayout.isMagicAt_of_holds {m : ClassicLayout} {data : ByteArray} {pos : Nat}
    (h : Holds data pos m.bytes) : isMagicAt data pos = true := by
  have hmagic : Holds data pos m.order.magic := h.append_left.append_left.append_left
  rw [isMagicAt, hmagic.octets_extract (by simp), magicOrder?_magic]
  rfl

theorem firstMagic?_eq_some {data : ByteArray} {start pos : Nat} (hstart : start ≤ pos)
    (hfits : pos + 4 ≤ data.size) (hfound : isMagicAt data pos = true)
    (hbefore : ∀ k, start ≤ k → k < pos → isMagicAt data k = false) :
    firstMagic? data start = some pos := by
  fun_induction firstMagic? data start with
  | case1 start hsize hmagic =>
    rcases Nat.lt_or_eq_of_le hstart with hlt | rfl
    · rw [hbefore start (Nat.le_refl start) hlt] at hmagic
      cases hmagic
    · rfl
  | case2 start hsize hmagic ih =>
    have hne : start ≠ pos := by
      rintro rfl
      exact hmagic hfound
    exact ih (by omega) fun k hk => hbefore k (by omega)
  | case3 start hsize => omega

section

variable {s : Session} {pos : Nat}

theorem locate_of_start (hsize : headerSize ≤ s.cursor.data.size)
    (hfound : isMagicAt s.cursor.data 0 = true) (search : Bool) :
    locate search s = .ok 0 s := by
  rw [locate_eq hsize, container?, if_pos hfound, findingNotes, if_pos hfound, Session.noting_nil]
  rfl

/-- A projector stub leads to the magic word at the offset that it stores. -/
theorem locate_of_stub {marker : List UInt8} (hmarker : marker ∈ projectorMarkers)
    (hstub : Holds s.cursor.data 0 (marker ++ ByteOrder.little.bytes 4 pos))
    (hpos : pos < 0x100000000) (hsize : headerSize ≤ s.cursor.data.size)
    (hfound : isMagicAt s.cursor.data pos = true)
    (search : Bool) : ∃ t, locate search s = .ok pos t := by
  have hlength : marker.length = 4 := by
    have hall : ∀ marker ∈ projectorMarkers, marker.length = 4 := by decide
    exact hall marker hmarker
  have hplain : magicOrder? marker = none := by
    have hall : ∀ marker ∈ projectorMarkers, magicOrder? marker = none := by decide
    exact hall marker hmarker
  have hhead : octets (s.cursor.data.extract 0 4) = marker :=
    hstub.append_left.octets_extract (by omega)
  have hplace := hstub.append_right
  rw [hlength, Nat.zero_add] at hplace
  have hpointed : projectorOffset? s.cursor.data = some pos := by
    have hvalue : ByteOrder.little.value (octets (s.cursor.data.extract 4 8)) = pos := by
      rw [hplace.octets_extract (by rw [ByteOrder.length_bytes])]
      exact ByteOrder.value_bytes_of_lt _ (by simpa using hpos)
    unfold projectorOffset?
    dsimp only
    rw [hvalue, List.find?_cons_of_pos hfound]
  have hstart : ¬isMagicAt s.cursor.data 0 = true := by
    rw [isMagicAt, hhead, hplain]
    simp
  have hcontains : projectorMarkers.contains marker = true := List.contains_iff_mem.mpr hmarker
  have hfollowed : stubOffset? s.cursor.data = some pos := by
    rw [stubOffset?, hhead, if_pos hcontains, hpointed]
  rw [locate_eq hsize, container?, if_neg hstart, hfollowed]
  exact ⟨_, rfl⟩

/-- Without a stub, the search leads to the first magic word. -/
theorem locate_of_search (hsize : headerSize ≤ s.cursor.data.size) (hpos : 0 < pos)
    (hplain : octets (s.cursor.data.extract 0 4) ∉ projectorMarkers)
    (hfits : pos + 4 ≤ s.cursor.data.size) (hfound : isMagicAt s.cursor.data pos = true)
    (hbefore : ∀ k < pos, isMagicAt s.cursor.data k = false) :
    locate true s = .ok pos s := by
  have hfirst : firstMagic? s.cursor.data 1 = some pos :=
    firstMagic?_eq_some hpos hfits hfound fun k _ hk => hbefore k hk
  have hstart : ¬isMagicAt s.cursor.data 0 = true := by simp [hbefore 0 hpos]
  have hstub : ¬projectorMarkers.contains (octets (s.cursor.data.extract 0 4)) = true := by
    simpa using hplain
  rw [locate_eq hsize, container?, if_neg hstart, stubOffset?, if_neg hstub, if_pos rfl, hfirst,
    findingNotes, if_neg hstart, stubNotes, if_neg hstub, Session.noting_nil]
  rfl

end

theorem ClassicMovie.locate_start (m : ClassicMovie) {s : Session}
    (h : Holds s.cursor.data 0 m.bytes) (search : Bool) : locate search s = .ok 0 s := by
  have hfits := h.fits
  rw [ClassicLayout.length_bytes, ClassicLayout.size] at hfits
  exact locate_of_start (by unfold headerSize; omega) (ClassicLayout.isMagicAt_of_holds h) search

end Shockwave
