import Shockwave.Bytes.Cursor

/-!
Sources that hand out bytes piece by piece, and the ways of emptying them: to the end, or up to a
limit. A decoder is a source that starts from a stored stream.
-/
namespace Shockwave

/-- A read hands out at most as many bytes as there is room for. One that hands out nothing where
there is room is at the end, and only finitely many hand out something. -/
structure Source (σ : Type) where
  read : Nat → EStateM ReadError σ ByteArray
  left : σ → Nat
  size_le : ∀ {room s bytes t}, read room s = .ok bytes t → bytes.size ≤ room
  left_lt : ∀ {room s bytes t}, read room s = .ok bytes t → bytes.size ≠ 0 → left t < left s

/-- The room for each read in turn. -/
structure Rooms where
  size : Nat → Nat
  size_pos : ∀ i, 0 < size i

namespace Rooms

def tail (rooms : Rooms) : Rooms := ⟨fun i => rooms.size (i + 1), fun _ => rooms.size_pos _⟩

/-- Room for 8 KiB each time. -/
def pages : Rooms := ⟨fun _ => 0x2000, fun _ => by decide⟩

end Rooms

namespace Source

variable {σ : Type}

/-- All that the source still hands out. -/
def readToEnd (source : Source σ) (rooms : Rooms) (s : σ) : Except ReadError ByteArray :=
  match _hread : source.read (rooms.size 0) s with
  | .error e _ => .error e
  | .ok bytes t =>
    if _hsome : bytes.size = 0 then .ok .empty
    else (source.readToEnd rooms.tail t).map (bytes ++ ·)
termination_by source.left s
decreasing_by exact source.left_lt _hread _hsome

/-- A read of no more than what is left of a limit. When nothing is left, the source is not read. -/
def readWithin (source : Source σ) (room : Nat) : EStateM ReadError (σ × Nat) ByteArray :=
  fun (s, limit) =>
    if limit = 0 then .ok .empty (s, limit)
    else match source.read (min room limit) s with
      | .ok bytes t => .ok bytes (t, limit - bytes.size)
      | .error e t => .error e (t, limit)

theorem readWithin_cases {source : Source σ} {room limit : Nat} {s : σ} {bytes : ByteArray}
    {t : σ × Nat} (h : source.readWithin room (s, limit) = .ok bytes t) :
    (limit = 0 ∧ bytes = .empty) ∨
    (limit ≠ 0 ∧ ∃ u, source.read (min room limit) s = .ok bytes u ∧ t = (u, limit - bytes.size)) := by
  unfold readWithin at h
  dsimp only at h
  split at h
  · next hzero =>
    cases h
    exact .inl ⟨hzero, rfl⟩
  · next hsome =>
    split at h
    · next u hread =>
      cases h
      exact .inr ⟨hsome, u, hread, rfl⟩
    · cases h

/-- The source up to a limit, which its state counts down. -/
def limited (source : Source σ) : Source (σ × Nat) where
  read := source.readWithin
  left := fun (s, _) => source.left s
  size_le := by
    intro room s bytes t h
    rcases readWithin_cases h with ⟨-, rfl⟩ | ⟨-, u, hread, -⟩
    · exact Nat.zero_le room
    · exact Nat.le_trans (source.size_le hread) (Nat.min_le_left ..)
  left_lt := by
    intro room s bytes t h hsome
    rcases readWithin_cases h with ⟨-, rfl⟩ | ⟨-, u, hread, rfl⟩
    · exact absurd rfl hsome
    · exact source.left_lt hread hsome

end Source

/-- Undoes a compression, up to a number of bytes if one is given. -/
abbrev Expansion := ByteArray → Option Nat → Except ReadError ByteArray

structure Decoder where
  State : Type
  source : Source State
  start : ByteArray → State

namespace Decoder

/-- The data of a stored stream. -/
def expand (decoder : Decoder) (rooms : Rooms) : Expansion := fun stream limit =>
  match limit with
  | some n => decoder.source.limited.readToEnd rooms (decoder.start stream, n)
  | none => decoder.source.readToEnd rooms (decoder.start stream)

/-- What a stream holds does not hang on the sizes of the reads. -/
def OneStream (decoder : Decoder) : Prop :=
  ∀ stream data rooms rooms', decoder.expand rooms stream none = .ok data →
    decoder.expand rooms' stream none = .ok data

end Decoder
end Shockwave
