import Shockwave.Proofs.Finding

/-!
The walk over the chunks of a classic movie. It goes from head to head, always forward, and keeps the
last part of the map of each kind that it could read; an initial map or a memory map that it cannot
read ends it. The map is what the heads on its way tell, and nothing else is registered.
-/
namespace Shockwave

theorem findSome?_filter_ne {α β : Type} [BEq α] [LawfulBEq α] {f : α → Option β} {a : α}
    (h : f a = none) (l : List α) : (l.filter fun b => !b == a).findSome? f = l.findSome? f := by
  rw [← List.head?_filterMap, ← List.head?_filterMap, List.filterMap_filter]
  congr 2
  funext b
  by_cases hb : b = a
  · simp [hb, h]
  · simp [hb]

theorem findSome?_eraseDups {α β : Type} [BEq α] [LawfulBEq α] (f : α → Option β) (l : List α) :
    l.eraseDups.findSome? f = l.findSome? f := by
  cases l with
  | nil => rfl
  | cons a rest =>
    rw [List.eraseDups_cons, List.findSome?_cons, List.findSome?_cons,
      findSome?_eraseDups f (rest.filter fun b => !b == a)]
    cases h : f a with
    | some b => rfl
    | none => exact findSome?_filter_ne h rest
termination_by l.length
decreasing_by
  rw [List.length_cons]
  exact Nat.lt_succ_of_le (List.length_filter_le _ _)

namespace ChunkHead

def part? {α : Type} (tag : Tag) (read : Nat → Decode α) (data : ByteArray) (order : ByteOrder)
    (head : ChunkHead) : Option α :=
  if head.tag = tag then (Decode.outcome (read head.length) (head.cursor data order)).toOption
  else none

def initial? : ByteArray → ByteOrder → ChunkHead → Option InitialMap :=
  part? .imap fun _ => InitialMap.read

def memory? : ByteArray → ByteOrder → ChunkHead → Option MemoryMap := part? .mmap MemoryMap.read

/-- The head is that of an initial map or a memory map that cannot be read. -/
def Halts (data : ByteArray) (order : ByteOrder) (head : ChunkHead) : Prop :=
  head.tag = .imap ∧ head.initial? data order = none ∨
    head.tag = .mmap ∧ head.memory? data order = none

structure Stands (data : ByteArray) (order : ByteOrder) (head : ChunkHead) : Prop where
  bytes : Holds data head.pos (head.tag.written order ++ order.bytes 4 head.length)
  length_lt : head.length < 0x100000000

section

variable {data : ByteArray} {order : ByteOrder} {pos : Nat} {head : ChunkHead}

theorem stands_parse (h : pos + 8 ≤ data.size) : (parse data order pos).Stands data order := by
  obtain ⟨code, hcode⟩ : ∃ n : UInt32, Holds data pos (order.bytes 4 n.toNat) :=
    Holds.exists_word order (by omega)
  obtain ⟨length, hlength⟩ : ∃ n : UInt32, Holds data (pos + 4) (order.bytes 4 n.toNat) :=
    Holds.exists_word order (by omega)
  have hparse : parse data order pos = { pos, tag := ⟨code⟩, length := length.toNat } := by
    unfold parse
    dsimp only
    rw [hcode.octets_extract (by simp), hlength.octets_extract (by simp),
      order.value_bytes_of_lt code.toNat_lt, order.value_bytes_of_lt length.toNat_lt,
      UInt32.ofNat_toNat]
  rw [hparse]
  exact ⟨hcode.append hlength (by simp), length.toNat_lt⟩

theorem add_eight_le_next (head : ChunkHead) : head.pos + 8 ≤ head.next := by
  unfold next body
  dsimp only
  omega

end

end ChunkHead

/-- The heads that a walk from a position visits: each is followed by the next, up to one at which the
walk halts or the last that ends by the given position. -/
inductive Visits (data : ByteArray) (order : ByteOrder) (stop : Nat) :
    Nat → List ChunkHead → Prop where
  | ended {pos : Nat} (full : stop < pos + 8) : Visits data order stop pos []
  | halted {pos : Nat} {head : ChunkHead} (place : head.pos = pos) (stands : head.Stands data order)
      (room : pos + 8 ≤ stop) (halts : head.Halts data order) : Visits data order stop pos [head]
  | passed {pos : Nat} {head : ChunkHead} {rest : List ChunkHead} (place : head.pos = pos)
      (stands : head.Stands data order) (room : pos + 8 ≤ stop) (passes : ¬head.Halts data order)
      (more : Visits data order stop head.next rest) : Visits data order stop pos (head :: rest)

namespace Visits

variable {data : ByteArray} {order : ByteOrder} {stop pos : Nat} {heads : List ChunkHead}

theorem bounds (h : Visits data order stop pos heads) :
    ∀ head ∈ heads, pos ≤ head.pos ∧ head.pos + 8 ≤ stop := by
  induction h with
  | ended => simp
  | halted hplace _ hroom _ => simpa [hplace] using hroom
  | @passed pos head rest hplace _ hroom _ _ ih =>
    intro other hother
    rcases List.mem_cons.mp hother with rfl | hrest
    · omega
    · have hnext := head.add_eight_le_next
      have hother := ih other hrest
      omega

theorem eight_mul_length_le (h : Visits data order stop pos heads) :
    8 * heads.length ≤ stop - pos := by
  induction h with
  | ended => simp
  | halted => rw [List.length_singleton]; omega
  | @passed pos head rest hplace _ hroom _ _ ih =>
    have hnext := head.add_eight_le_next
    rw [List.length_cons]
    omega

theorem length_le (h : Visits data order stop pos heads) : heads.length ≤ (stop - pos) / 8 := by
  rw [Nat.le_div_iff_mul_le (by decide), Nat.mul_comm]
  exact h.eight_mul_length_le

end Visits

namespace ClassicMap

variable {data : ByteArray} {order : ByteOrder}

section

variable {head : ChunkHead} (rest : List ChunkHead) (map : ClassicMap)

end

end ClassicMap

end Shockwave
