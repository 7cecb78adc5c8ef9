import Shockwave.Movie.Header
import Shockwave.Proofs.Quiet

/-!
What the search for a container comes to. The search jumps about in the stream and reads words; as no
stream that it enters is shorter than a header, none of its reads fails, and what it finds and notes
is told by the bytes of the stream alone. In the end the cursor is back where it was.
-/
namespace Shockwave

def isMagicAt (data : ByteArray) (offset : Nat) : Bool :=
  (magicOrder? (octets (data.extract offset (offset + 4)))).isSome

def firstMagic? (data : ByteArray) (offset : Nat) : Option Nat :=
  if offset + 4 ≤ data.size then
    if isMagicAt data offset then some offset else firstMagic? data (offset + 1)
  else none
termination_by data.size - offset

/-- The movie offset of a projector stub, read in one byte order and then the other; the first at
which there is a magic word. -/
def projectorOffset? (data : ByteArray) : Option Nat :=
  let stored := octets (data.extract 4 8)
  [ByteOrder.little.value stored, ByteOrder.big.value stored].find? (isMagicAt data)

def stubOffset? (data : ByteArray) : Option Nat :=
  if projectorMarkers.contains (octets (data.extract 0 4)) then projectorOffset? data else none

def container? (search : Bool) (data : ByteArray) : Option Nat :=
  if isMagicAt data 0 then some 0
  else (stubOffset? data).or (if search then firstMagic? data 1 else none)

def stubNotes (data : ByteArray) : List Note :=
  if projectorMarkers.contains (octets (data.extract 0 4)) then
    [(projectorOffset? data).elim .projectorWithoutMovie
      (.projectorOffset (.ofBytes (octets (data.extract 0 4))))]
  else []

def findingNotes (data : ByteArray) : List Note :=
  if isMagicAt data 0 then [] else stubNotes data

section

variable {data : ByteArray} {offset : Nat}

theorem exists_magicOrder?_of_isMagicAt (h : isMagicAt data offset = true) :
    ∃ order, magicOrder? (octets (data.extract offset (offset + 4))) = some order :=
  Option.isSome_iff_exists.mp h

theorem le_size_of_isMagicAt (h : isMagicAt data offset = true) : offset + 4 ≤ data.size := by
  obtain ⟨order, horder⟩ := exists_magicOrder?_of_isMagicAt h
  have hlength : (octets (data.extract offset (offset + 4))).length = 4 := by
    unfold magicOrder? at horder
    split at horder
    next hword => rw [hword]; rfl
    next =>
      split at horder
      next hword => rw [hword]; rfl
      next => cases horder
  rw [octets_extract, List.length_take, List.length_drop, length_octets] at hlength
  omega

/-- The offsets up to the last word of a stream are all that a search needs to try. -/
theorem find?_range'_isMagicAt {start count : Nat} (h : start + count + 3 = data.size) :
    (List.range' start count).find? (isMagicAt data) = firstMagic? data start := by
  induction count generalizing start with
  | zero =>
    unfold firstMagic?
    rw [if_neg (by omega)]
    rfl
  | succ count ih =>
    unfold firstMagic?
    rw [if_pos (by omega), List.range'_succ]
    cases hmagic : isMagicAt data start with
    | true => rw [List.find?_cons_of_pos hmagic, if_pos rfl]
    | false => rw [List.find?_cons_of_neg (by simp [hmagic]), if_neg (by simp), ih (by omega)]

end

section

variable {ε : Type} {s : Session}

theorem Decode.bytes_fits {c : Cursor} {n : Nat} (h : c.pos + n ≤ c.data.size) :
    Decode.bytes n c =
      .ok (c.data.extract c.pos (c.pos + n)) { c with pos := c.pos + n } := by
  unfold Decode.bytes
  rw [bind_ok (require_ok h), take_fits h]
  rfl

theorem hasMagicAt_eq (offset : Nat) (s : Session) :
    ∃ pos, (hasMagicAt offset : Step ε _) s =
      .ok (isMagicAt s.cursor.data offset) (s.movedTo pos) := by
  unfold hasMagicAt
  rw [get_bind]
  by_cases hcut : s.cursor.size < offset + 4
  · have hnone : isMagicAt s.cursor.data offset = false := by
      rw [Bool.eq_false_iff]
      intro hmagic
      exact Nat.not_le_of_lt hcut (le_size_of_isMagicAt hmagic)
    rw [if_pos hcut, hnone]
    exact ⟨s.cursor.pos, rfl⟩
  · have hread : (do Decode.jump offset; Decode.bytes 4) s.cursor =
        .ok (s.cursor.data.extract offset (offset + 4)) { s.cursor with pos := offset + 4 } :=
      modify_bind.trans (Decode.bytes_fits (Nat.le_of_not_lt hcut))
    rw [if_neg hcut, bind_ok (Step.attempt_ok hread)]
    exact ⟨offset + 4, rfl⟩

theorem firstAmong_eq (offsets : List Nat) (s : Session) :
    ∃ pos, (firstAmong offsets : Step ε _) s =
      .ok (offsets.find? (isMagicAt s.cursor.data)) (s.movedTo pos) := by
  induction offsets generalizing s with
  | nil => exact ⟨s.cursor.pos, rfl⟩
  | cons offset rest ih =>
    obtain ⟨pos, hhas⟩ := hasMagicAt_eq (ε := ε) offset s
    unfold firstAmong
    rw [bind_ok hhas]
    cases hmagic : isMagicAt s.cursor.data offset with
    | true =>
      rw [List.find?_cons_of_pos hmagic]
      exact ⟨pos, rfl⟩
    | false =>
      rw [List.find?_cons_of_neg (by simp [hmagic])]
      -- the words that follow are looked for from where this look left the cursor
      exact ih (s.movedTo pos)

theorem scanStream_eq (h : headerSize ≤ s.cursor.data.size) :
    ∃ pos, (scanStream : Step ε _) s = .ok (firstMagic? s.cursor.data 1) (s.movedTo pos) := by
  have hoffsets : 1 + (s.cursor.data.size - 4) + 3 = s.cursor.data.size := by
    unfold headerSize at h
    omega
  rw [← find?_range'_isMagicAt hoffsets]
  exact firstAmong_eq _ s

theorem readMarker_eq (h : headerSize ≤ s.cursor.data.size) :
    readMarker s = .ok (octets (s.cursor.data.extract 0 4)) (s.movedTo 4) := by
  have hfits : 0 + 4 ≤ s.cursor.data.size := Nat.le_trans (by decide) h
  have hjump : Decode.jump 0 s.cursor = .ok () (s.movedTo 0).cursor := rfl
  have hread : Decode.bytes 4 (s.movedTo 0).cursor =
      .ok (s.cursor.data.extract 0 4) (s.movedTo 4).cursor := Decode.bytes_fits hfits
  exact (bind_ok (Step.readOr_ok hjump)).trans (bind_ok (Step.readOr_ok hread))

theorem followStub_eq (h : headerSize ≤ s.cursor.data.size) :
    ∃ pos, followStub (octets (s.cursor.data.extract 0 4)) (s.movedTo 4) =
      .ok (stubOffset? s.cursor.data) ((s.movedTo pos).noting (stubNotes s.cursor.data)) := by
  have hfits : 4 + 4 ≤ s.cursor.data.size := Nat.le_trans (by decide) h
  unfold followStub stubOffset? stubNotes
  by_cases hmarker : projectorMarkers.contains (octets (s.cursor.data.extract 0 4)) = true
  · have hread : Decode.bytes 4 (s.movedTo 4).cursor =
        .ok (s.cursor.data.extract 4 8) { s.cursor with pos := 8 } := Decode.bytes_fits hfits
    obtain ⟨pos, hfound⟩ := firstAmong_eq (ε := OpenError)
      [ByteOrder.little.value (octets (s.cursor.data.extract 4 8)),
        ByteOrder.big.value (octets (s.cursor.data.extract 4 8))] (s.movedTo 8)
    simp only [if_pos hmarker]
    refine ⟨pos, ?_⟩
    rw [bind_ok (Step.readOr_ok hread)]
    exact bind_ok hfound
  · simp only [if_neg hmarker, Session.noting_nil]
    exact ⟨4, rfl⟩

theorem seekContainer_eq (h : headerSize ≤ s.cursor.data.size) (search : Bool) :
    ∃ pos, seekContainer search s = (container? search s.cursor.data).elim
      (.error .containerNotFound ((s.movedTo pos).noting (findingNotes s.cursor.data)))
      fun offset => .ok offset ((s.movedTo pos).noting (findingNotes s.cursor.data)) := by
  have hmarker : isMagic (octets (s.cursor.data.extract 0 4)) = isMagicAt s.cursor.data 0 := rfl
  unfold seekContainer container? findingNotes
  rw [bind_ok (readMarker_eq h), hmarker]
  by_cases hstart : isMagicAt s.cursor.data 0 = true
  · simp only [if_pos hstart, Option.elim_some, Session.noting_nil]
    exact ⟨4, rfl⟩
  · obtain ⟨pos, hstub⟩ := followStub_eq h
    simp only [if_neg hstart]
    rw [bind_ok hstub]
    cases stubOffset? s.cursor.data with
    | some offset => exact ⟨pos, rfl⟩
    | none =>
      cases search with
      | false => exact ⟨pos, rfl⟩
      | true =>
        let t := (s.movedTo pos).noting (stubNotes s.cursor.data)
        have hdata : t.cursor.data = s.cursor.data := rfl
        obtain ⟨place, hscan⟩ := scanStream_eq (ε := OpenError) (s := t) h
        rw [hdata] at hscan
        refine ⟨place, (bind_ok hscan).trans ?_⟩
        cases firstMagic? s.cursor.data 1 <;> rfl

theorem locate_of_small (h : s.cursor.data.size < headerSize) (search : Bool) :
    locate search s = .error .streamTooSmall s := by
  unfold locate Cursor.size
  rw [get_bind, if_pos h]
  rfl

/-- Whatever the search finds, it leaves nothing behind but notes. -/
theorem locate_eq (h : headerSize ≤ s.cursor.data.size) (search : Bool) :
    locate search s = (container? search s.cursor.data).elim
      (.error .containerNotFound (s.noting (findingNotes s.cursor.data)))
      fun offset => .ok offset (s.noting (findingNotes s.cursor.data)) := by
  obtain ⟨pos, hseek⟩ := seekContainer_eq h search
  unfold locate Cursor.size
  rw [get_bind, if_neg (by omega)]
  cases hfound : container? search s.cursor.data with
  | none =>
    rw [hfound] at hseek
    exact Step.restoring_error hseek
  | some offset =>
    rw [hfound] at hseek
    exact Step.restoring_ok hseek

end
end Shockwave
