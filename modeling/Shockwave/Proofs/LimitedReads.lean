import Shockwave.Bytes.Source
import Shockwave.Proofs.Stream

/-!
Reading a source to its end, whole or up to a limit. Where the sizes of the reads do not matter to
what is handed out, a limit takes the front of it, and a limit that is not reached takes it all.
-/
namespace Shockwave

theorem extract_zero (data : ByteArray) (n : Nat) :
    data.extract 0 n = ((octets data).take n).toByteArray := by
  apply octets_injective
  rw [octets_extract, octets_toByteArray, List.drop_zero, Nat.sub_zero]

theorem extract_of_size_le {data : ByteArray} {n : Nat} (h : data.size ≤ n) :
    data.extract 0 n = data := by
  rw [extract_zero, List.take_of_length_le (by rwa [length_octets]), toByteArray_octets]

namespace Rooms

def cons (room : Nat) (hroom : 0 < room) (rooms : Rooms) : Rooms where
  size
    | 0 => room
    | i + 1 => rooms.size i
  size_pos
    | 0 => hroom
    | i + 1 => rooms.size_pos i

@[simp] theorem tail_cons {room : Nat} (hroom : 0 < room) (rooms : Rooms) :
    (cons room hroom rooms).tail = rooms := rfl

end Rooms

namespace Source

variable {σ : Type} {source : Source σ} {rooms : Rooms} {s : σ} {full : ByteArray}

section

variable {e : ReadError} {bytes : ByteArray} {t : σ}

theorem readToEnd_of_error (h : source.read (rooms.size 0) s = .error e t) :
    source.readToEnd rooms s = .error e := by
  rw [readToEnd]
  split
  · next hread =>
    rw [h] at hread
    cases hread
    rfl
  · next hread =>
    rw [h] at hread
    cases hread

theorem readToEnd_of_ok (h : source.read (rooms.size 0) s = .ok bytes t) :
    source.readToEnd rooms s = if bytes.size = 0 then .ok .empty
      else (source.readToEnd rooms.tail t).map (bytes ++ ·) := by
  rw [readToEnd]
  split
  · next hread =>
    rw [h] at hread
    cases hread
  · next hread =>
    rw [h] at hread
    cases hread
    rfl

theorem readWithin_ok {limit room : Nat} (hsome : limit ≠ 0)
    (h : source.read (min room limit) s = .ok bytes t) :
    source.readWithin room (s, limit) = .ok bytes (t, limit - bytes.size) := by
  unfold readWithin
  simp only [if_neg hsome, h]

theorem exists_rest (h : source.readToEnd rooms s = .ok full)
    (hread : source.read (rooms.size 0) s = .ok bytes t) (hsome : bytes.size ≠ 0) :
    ∃ rest, source.readToEnd rooms.tail t = .ok rest ∧ full = bytes ++ rest := by
  rw [readToEnd_of_ok hread, if_neg hsome] at h
  cases hrest : source.readToEnd rooms.tail t with
  | error e =>
    rw [hrest] at h
    cases h
  | ok rest =>
    rw [hrest] at h
    cases h
    exact ⟨rest, rfl, rfl⟩

end

theorem readToEnd_limited (h : ∀ rooms, source.readToEnd rooms s = .ok full) (rooms : Rooms)
    (n : Nat) : source.limited.readToEnd rooms (s, n) = .ok (full.extract 0 n) := by
  induction hleft : source.left s using Nat.strongRecOn generalizing s full rooms n with
  | ind left ih =>
    rcases Nat.eq_zero_or_pos n with rfl | hn
    · have hnone : source.limited.read (rooms.size 0) (s, 0) = .ok .empty (s, 0) := rfl
      rw [readToEnd_of_ok hnone, ByteArray.extract_same]
      rfl
    -- The first read under the limit is one that the source itself could be read with.
    have hroom : 0 < min (rooms.size 0) n := Nat.lt_min.mpr ⟨rooms.size_pos 0, hn⟩
    have hwhole := h (.cons _ hroom rooms)
    cases hread : source.read (min (rooms.size 0) n) s with
    | error e t =>
      rw [readToEnd_of_error hread] at hwhole
      cases hwhole
    | ok bytes t =>
      have hwithin : source.limited.read (rooms.size 0) (s, n) = .ok bytes (t, n - bytes.size) :=
        readWithin_ok (Nat.ne_of_gt hn) hread
      rw [readToEnd_of_ok hwithin]
      by_cases hend : bytes.size = 0
      · rw [readToEnd_of_ok hread, if_pos hend] at hwhole
        cases hwhole
        rw [if_pos hend, extract_of_size_le (Nat.zero_le n)]
      · obtain ⟨rest, -, rfl⟩ := exists_rest hwhole hread hend
        have hrest (rooms' : Rooms) : source.readToEnd rooms' t = .ok rest := by
          obtain ⟨other, hother, heq⟩ := exists_rest (h (.cons _ hroom rooms')) hread hend
          rwa [(ByteArray.append_right_inj bytes).mp heq]
        have hsize : bytes.size ≤ n := Nat.le_trans (source.size_le hread) (Nat.min_le_right ..)
        rw [if_neg hend, ih _ (hleft ▸ source.left_lt hread hend) hrest rooms.tail _ rfl,
          ByteArray.extract_append, extract_of_size_le hsize, Nat.zero_sub]
        rfl

/-- Reading that ends before its limit has read the source to the end, with other rooms. -/
theorem exists_rooms_of_limited {n : Nat} (h : source.limited.readToEnd rooms (s, n) = .ok full)
    (hshort : full.size < n) : ∃ rooms', source.readToEnd rooms' s = .ok full := by
  induction hleft : source.left s using Nat.strongRecOn generalizing s full rooms n with
  | ind left ih =>
    have hroom : 0 < min (rooms.size 0) n := Nat.lt_min.mpr ⟨rooms.size_pos 0, by omega⟩
    cases hread : source.limited.read (rooms.size 0) (s, n) with
    | error e t =>
      rw [readToEnd_of_error hread] at h
      cases h
    | ok bytes t =>
      rcases readWithin_cases hread with ⟨rfl, -⟩ | ⟨-, u, hinner, rfl⟩
      · cases hshort
      by_cases hend : bytes.size = 0
      · rw [readToEnd_of_ok hread, if_pos hend] at h
        refine ⟨.cons _ hroom rooms, ?_⟩
        rw [readToEnd_of_ok hinner, if_pos hend, h]
      · obtain ⟨rest, hrest, rfl⟩ := exists_rest h hread hend
        rw [ByteArray.size_append] at hshort
        obtain ⟨rooms', hall⟩ :=
          ih _ (hleft ▸ source.left_lt hinner hend) hrest (by omega) rfl
        refine ⟨.cons _ hroom rooms', ?_⟩
        rw [readToEnd_of_ok hinner, if_neg hend, Rooms.tail_cons, hall]
        rfl

end Source

namespace Decoder

variable {decoder : Decoder}

/-- If the sizes of the reads do not matter, each limit takes the front of the data of a whole stream,
and what each limit takes the front of is the data of a whole stream. -/
theorem expand_eq_ok_iff_limited (h : decoder.OneStream) (rooms rooms' : Rooms)
    {stream data : ByteArray} :
    decoder.expand rooms stream none = .ok data ↔
      ∀ n, decoder.expand rooms' stream (some n) = .ok ((octets data).take n).toByteArray := by
  simp only [← extract_zero]
  constructor
  · intro hwhole n
    exact Source.readToEnd_limited (fun other => h stream data rooms other hwhole) rooms' n
  · intro hlimited
    have hbeyond := hlimited (data.size + 1)
    rw [extract_of_size_le (Nat.le_succ _)] at hbeyond
    obtain ⟨other, hwhole⟩ := Source.exists_rooms_of_limited hbeyond (Nat.lt_succ_self _)
    exact h stream data other rooms hwhole

end Decoder
end Shockwave
