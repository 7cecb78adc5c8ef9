/-!
A byte stream read bit by bit, least significant bit of each byte first, and the parsers over it.
No parser gives bits back, which is what ends the loops of the decoder.
-/
namespace Shockwave.Inflate

/-- Why decoding stopped before the end of the stream. -/
inductive Stop where
  | truncated
  | corrupt
  deriving DecidableEq, Repr

structure Bits where
  data : ByteArray
  /-- Bits already used. -/
  used : Nat := 0

namespace Bits

def left (b : Bits) : Nat := 8 * b.data.size - b.used

/-- The next bit and what follows it. -/
def next? (b : Bits) : Option (Bool × Bits) :=
  if h : b.used / 8 < b.data.size then
    some (b.data[b.used / 8].toNat.testBit (b.used % 8), { b with used := b.used + 1 })
  else none

/-- What follows the rest of the current byte. -/
def align (b : Bits) : Bits := { b with used := (b.used + 7) / 8 * 8 }

theorem left_of_next? {b rest : Bits} {bit : Bool} (h : b.next? = some (bit, rest)) :
    rest.left < b.left := by
  unfold next? at h
  split at h
  · simp only [Option.some.injEq, Prod.mk.injEq] at h
    obtain ⟨-, rfl⟩ := h
    simp only [left]
    omega
  · contradiction

theorem left_align_le (b : Bits) : b.align.left ≤ b.left := by
  simp only [left, align]
  omega

end Bits

abbrev Parse := StateT Bits (Except Stop)

namespace Parse

def bit : Parse Bool := fun b =>
  match b.next? with
  | some (bit, rest) => .ok (bit, rest)
  | none => .error .truncated

/-- The next `n` bits as a number, first bit lowest. -/
def bits : Nat → Parse Nat
  | 0 => return 0
  | n + 1 => do
    let low ← bit
    return 2 * (← bits n) + low.toNat

def align : Parse Unit := modify Bits.align

/-- No result of the parser leaves more bits than there were. -/
def Shrinks (p : Parse α) : Prop :=
  ∀ ⦃b a rest⦄, p b = .ok (a, rest) → rest.left ≤ b.left

theorem shrinks_pure (a : α) : Shrinks (pure a : Parse α) := by
  intro b a' rest h
  cases h
  exact Nat.le_refl _

theorem shrinks_throw (e : Stop) : Shrinks (throw e : Parse α) := by
  intro b a rest h
  cases h

theorem shrinks_bind {p : Parse α} {f : α → Parse β} (hp : Shrinks p) (hf : ∀ a, Shrinks (f a)) :
    Shrinks (p >>= f) := by
  intro b a rest h
  simp only [bind, StateT.bind, Except.bind] at h
  split at h
  · contradiction
  · next first hfirst => exact Nat.le_trans (hf _ h) (hp hfirst)

theorem left_of_bit {b rest : Bits} {a : Bool} (h : bit b = .ok (a, rest)) :
    rest.left < b.left := by
  unfold bit at h
  split at h
  · next hb =>
    cases h
    exact Bits.left_of_next? hb
  · contradiction

theorem shrinks_bit : Shrinks bit := fun _ _ _ h => Nat.le_of_lt (left_of_bit h)

theorem shrinks_bits (n : Nat) : Shrinks (bits n) := by
  induction n with
  | zero => exact shrinks_pure 0
  | succ n ih => exact shrinks_bind shrinks_bit fun _ => shrinks_bind ih fun _ => shrinks_pure _

theorem shrinks_align : Shrinks align := by
  intro b a rest h
  cases h
  exact b.left_align_le

/-- A parser that starts with a bit leaves fewer bits. -/
theorem left_of_bit_bind {f : Bool → Parse α} {b rest : Bits} {a : α}
    (hf : ∀ x, Shrinks (f x)) (h : (bit >>= f) b = .ok (a, rest)) : rest.left < b.left := by
  simp only [bind, StateT.bind, Except.bind] at h
  split at h
  · contradiction
  · next first hfirst => exact Nat.lt_of_le_of_lt (hf _ h) (left_of_bit hfirst)

end Parse
end Shockwave.Inflate
