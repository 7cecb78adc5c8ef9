import Shockwave.Proofs.ArchiveLayout
import Shockwave.Proofs.LimitedReads

/-!
Zlib streams that are read up to a limit. The decoder hands out its data in order, so the sizes of
the reads do not matter, and each limit gives the front of the data of a whole stream.
-/
namespace Shockwave
namespace Inflate

variable {stream data : ByteArray}

theorem extract_append_rest (data : ByteArray) (pos width : Nat) :
    data.extract pos (pos + width) ++ data.extract (pos + width) data.size =
      data.extract pos data.size := by
  rw [ByteArray.extract_append_extract, Nat.min_eq_left (Nat.le_add_right ..)]
  apply octets_injective
  rw [octets_extract, octets_extract, ← length_octets, ← List.length_drop, List.take_length,
    List.take_of_length_le (by rw [List.length_drop]; omega)]

/-- The data from the position on, unless a failure follows it. -/
theorem Supply.readToEnd_eq (rooms : Rooms) (s : Supply) :
    source.readToEnd rooms s =
      s.failure.elim (.ok (s.data.extract s.pos s.data.size)) Except.error := by
  induction hleft : s.data.size - s.pos using Nat.strongRecOn generalizing s rooms with
  | ind left ih =>
    have hroom := rooms.size_pos 0
    rcases Nat.lt_or_ge s.pos s.data.size with hmore | hdone
    · have hread : source.read (rooms.size 0) s =
          .ok (s.data.extract s.pos (s.pos + rooms.size 0))
            { s with pos := s.pos + rooms.size 0 } := if_pos hmore
      have hsome : (s.data.extract s.pos (s.pos + rooms.size 0)).size ≠ 0 := by
        rw [ByteArray.size_extract]
        omega
      rw [Source.readToEnd_of_ok hread, if_neg hsome, ih _ (by dsimp only; omega) rooms.tail _ rfl]
      dsimp only
      cases s.failure with
      | some e => rfl
      | none => exact congrArg Except.ok (extract_append_rest s.data s.pos _)
    · have hread : source.read (rooms.size 0) s =
          s.failure.elim (.ok .empty s) (fun e => .error e s) := by
        refine (if_neg (by omega)).trans ?_
        cases s.failure <;> rfl
      cases hfailure : s.failure with
      | some e =>
        rw [hfailure] at hread
        rw [Source.readToEnd_of_error hread]
        rfl
      | none =>
        rw [hfailure] at hread
        have hnone : s.data.extract s.pos s.data.size = .empty := by
          rw [ByteArray.extract_eq_empty_iff]
          omega
        rw [Source.readToEnd_of_ok hread, hnone]
        rfl

theorem decoder_oneStream : decoder.OneStream := by
  intro stream data rooms rooms' h
  unfold Decoder.expand decoder at h ⊢
  dsimp only at h ⊢
  rwa [Supply.readToEnd_eq] at h ⊢

theorem inflate_eq_ok_iff : inflate stream = .ok data ↔ decode stream = .complete data := by
  have hread := Supply.readToEnd_eq .pages (Supply.ofStream stream)
  have hinflate : inflate stream = Supply.source.readToEnd .pages (Supply.ofStream stream) := rfl
  rw [hinflate, hread]
  unfold Supply.ofStream
  cases decode stream <;> simp

theorem inflate_eq_ok_iff_limited :
    inflate stream = .ok data ↔
      ∀ n, inflate stream (some n) = .ok ((octets data).take n).toByteArray :=
  Decoder.expand_eq_ok_iff_limited decoder_oneStream .pages .pages

end Inflate

theorem Inflates.limited {stream data : List UInt8} (h : Inflates stream data) :
    Inflate.inflate stream.toByteArray (some data.length) = .ok data.toByteArray := by
  rw [Inflate.inflate_eq_ok_iff_limited.mp h, octets_toByteArray, List.take_length]

end Shockwave
