import Shockwave.Proofs.Bodies
import Shockwave.Proofs.PlainStream

/-!
The body of an archived resource that is compressed. The size in its row is a limit and no promise:
of the data behind the stored stream it takes the front, and loading says when there is less.
-/
namespace Shockwave

theorem Decode.seek_bytes_ok {c : Cursor} {start width : Nat} {bytes : ByteArray}
    (h : c.stretch? start width = some bytes) :
    (do Decode.seek start; Decode.bytes width) c =
      .ok bytes { c with pos := start + width } := by
  unfold Cursor.stretch? at h
  rw [Option.ite_none_right_eq_some, Option.some.injEq] at h
  obtain ⟨hfits, rfl⟩ := h
  unfold Decode.bytes
  rw [bind_ok (seek_ok (by omega)), bind_ok (require_ok hfits), take_fits hfits]
  rfl

namespace Payload

variable {ε : Type} {s : Session} {archive : Archive} {e : Entry}

theorem stored_ok {offset : Int32} {bytes : ByteArray}
    (h : storedOf s archive e offset = some bytes) :
    (stored archive e offset : Step ε _) s = .ok (some bytes) s := by
  unfold storedOf at h
  unfold stored
  split
  · next hinline =>
    rw [if_pos hinline] at h
    rw [get_bind, h]
    rfl
  · next houtside =>
    rw [if_neg houtside] at h
    have hread : Step.restoring (Step.attempt (do
        Decode.seek (further archive.bodyOffset offset.toInt.toNat)
        Decode.bytes e.size.toNat) : Step ε _) s = .ok (.ok bytes) s := by
      unfold Step.restoring
      rw [Step.attempt_ok (Decode.seek_bytes_ok h)]
      rfl
    dsimp only
    rw [bind_ok hread]
    rfl

/-- What is noted of data that ends before the size in its row. -/
def sizeNotes (e : Entry) (fullSize : Nat) (full : ByteArray) : List Note :=
  if full.size < fullSize then [.inflatedLength e.id fullSize full.size] else []

theorem expand_zlib {inflate : Expansion} {fullSize compression : Nat} {bytes full : ByteArray}
    (hkind : s.compressions.kind? compression = some .zlib)
    (hfront : inflate bytes (some fullSize) = .ok ((octets full).take fullSize).toByteArray) :
    (expand inflate e fullSize compression bytes : Step ε _) s =
      .ok (some ((octets full).take fullSize).toByteArray)
        (s.noting (sizeNotes e fullSize full)) := by
  unfold expand sizeNotes
  rw [get_bind, hkind]
  dsimp only
  rw [hfront]
  dsimp only
  rw [List.size_toByteArray, List.length_take, length_octets]
  rcases Nat.lt_or_ge full.size fullSize with hshort | hlong
  · rw [if_pos (by omega), if_pos hshort, Nat.min_eq_right (Nat.le_of_lt hshort)]
    rfl
  · rw [if_neg (by omega), if_neg (by omega), Session.noting_nil]
    rfl

theorem archived_zlib {inflate : Expansion} {offset : Int32} {fullSize compression : UInt32}
    {bytes full : ByteArray} (hstorage : e.storage = .archived offset fullSize compression)
    (hkind : s.compressions.kind? compression.toNat = some .zlib)
    (hstored : storedOf s archive e offset = some bytes)
    (hfront : inflate bytes (some fullSize.toNat) =
      .ok ((octets full).take fullSize.toNat).toByteArray) :
    (archived inflate archive e : Step ε _) s =
      .ok (some ((octets full).take fullSize.toNat).toByteArray)
        (s.noting (sizeNotes e fullSize.toNat full)) := by
  unfold archived
  rw [hstorage]
  dsimp only
  split
  · next hempty =>
    obtain ⟨-, rfl⟩ := hempty
    -- Nothing is looked up for a row without any bytes, and a limit of none takes none.
    exact congrArg (EStateM.Result.ok _) s.noting_nil.symm
  · rw [bind_ok (stored_ok hstored)]
    exact expand_zlib hkind hfront

/-- Of any decoder whose data does not hang on the sizes of the reads: a whole stream gives the front
of its data under every limit, and only a whole stream does. So a compressed resource is loaded up to
the size in its row, and not beyond the end of its data. -/
theorem limit_takes_front (decoder : Decoder) (hone : decoder.OneStream) (rooms rooms' : Rooms) :
    (∀ stream full, decoder.expand rooms stream none = .ok full ↔
      ∀ n, decoder.expand rooms' stream (some n) = .ok ((octets full).take n).toByteArray) ∧
    ∀ (s : Session) (archive : Archive) (e : Entry) (offset : Int32)
      (fullSize compression : UInt32) (bytes full : ByteArray),
      e.storage = .archived offset fullSize compression →
      s.compressions.kind? compression.toNat = some .zlib →
      storedOf s archive e offset = some bytes →
      decoder.expand rooms bytes none = .ok full →
      ∃ out, (archived (decoder.expand rooms') archive e : Step ε _) s =
          .ok (some out) (s.noting (sizeNotes e fullSize.toNat full)) ∧
        out.size ≤ fullSize.toNat ∧ octets out = (octets full).take fullSize.toNat := by
  refine ⟨fun _ _ => decoder.expand_eq_ok_iff_limited hone rooms rooms', ?_⟩
  intro s archive e offset fullSize compression bytes full hstorage hkind hstored hfull
  have hfront := (decoder.expand_eq_ok_iff_limited hone rooms rooms').mp hfull fullSize.toNat
  refine ⟨_, archived_zlib hstorage hkind hstored hfront, ?_, octets_toByteArray _⟩
  rw [List.size_toByteArray]
  exact List.length_take_le _ _

def greetingStream : List UInt8 := Inflate.plainStream [0x68, 0x65, 0x6C, 0x6C, 0x6F]

def greetingArchive : Archive := { version := 0x400, versionText := none, bodyOffset := 1 }

def greetingSession : Session :=
  { fileName := "greeting.dcr", cursor := ⟨(0x00 :: greetingStream).toByteArray, 0, .big⟩
    compressions := ⟨[⟨0, [], "zlib", .zlib⟩]⟩, archive := some greetingArchive }

def greetingEntry (fullSize : UInt32) : Entry :=
  { id := 7, tag := .script, size := 16, storage := .archived 0 fullSize 0 }

theorem storedOf_greeting (fullSize : UInt32) :
    storedOf greetingSession greetingArchive (greetingEntry fullSize) 0 =
      some greetingStream.toByteArray := by
  have hlength : greetingStream.length = 16 := by
    simp [greetingStream, Inflate.plainStream, ByteOrder.length_bytes]
  have hholds : Holds (0x00 :: (greetingStream ++ [])).toByteArray 1 greetingStream :=
    Holds.of_append [0x00] greetingStream []
  rw [List.append_nil] at hholds
  have hfits := hholds.fits
  rw [hlength] at hfits
  have hstart : further greetingArchive.bodyOffset (0 : Int32).toInt.toNat = 1 := by decide
  unfold storedOf Cursor.stretch?
  rw [if_neg (by decide), hstart]
  exact (if_pos hfits).trans (congrArg some (hholds.extract (by rw [hlength]; rfl)))

theorem limit_takes_greeting :
    Inflate.decoder.OneStream ∧
    Inflate.inflate greetingStream.toByteArray (some 2) = .ok [0x68, 0x65].toByteArray ∧
    (∃ out, (load (greetingEntry 3) : Step Halt _) greetingSession =
        .ok (some out) greetingSession ∧ octets out = [0x68, 0x65, 0x6C]) ∧
    ∃ out, (load (greetingEntry 9) : Step Halt _) greetingSession =
        .ok (some out) (greetingSession.noting [.inflatedLength 7 9 5]) ∧
      octets out = [0x68, 0x65, 0x6C, 0x6C, 0x6F] := by
  have hfull : Inflates greetingStream [0x68, 0x65, 0x6C, 0x6C, 0x6F] :=
    inflates_plainStream (by decide)
  obtain ⟨hlimit, harchived⟩ :=
    limit_takes_front (ε := Halt) Inflate.decoder Inflate.decoder_oneStream .pages .pages
  refine ⟨Inflate.decoder_oneStream, ?_, ?_, ?_⟩
  · exact (hlimit _ _).mp hfull 2
  · obtain ⟨out, hrun, -, hout⟩ :=
      harchived _ _ _ _ _ _ _ _ rfl rfl (storedOf_greeting 3) hfull
    rw [octets_toByteArray] at hout
    refine ⟨out, hrun.trans ?_, hout⟩
    exact congrArg (EStateM.Result.ok _) (Session.noting_nil _)
  · obtain ⟨out, hrun, -, hout⟩ :=
      harchived _ _ _ _ _ _ _ _ rfl rfl (storedOf_greeting 9) hfull
    rw [octets_toByteArray] at hout
    exact ⟨out, hrun, hout⟩

end Payload
end Shockwave
