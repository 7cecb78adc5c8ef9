import Shockwave.Map.Classic
import Shockwave.Movie.Header

/-!
A classic movie as it is written: a header, the initial map, the memory map, and one chunk for each
resource, with the key table last if there are links. Offsets count from the start of the container.
-/
namespace Shockwave

def ByteOrder.magic : ByteOrder → List UInt8
  | .big => [0x52, 0x49, 0x46, 0x58]
  | .little => [0x58, 0x46, 0x49, 0x52]

/-- A tag as it is written; the little-endian order turns it around. -/
def Tag.written (order : ByteOrder) (tag : Tag) : List UInt8 :=
  order.bytes 4 tag.code.toNat

structure Chunk where
  tag : Tag
  body : List UInt8
  deriving DecidableEq, Repr

namespace Chunk

def extent (c : Chunk) : Nat := 8 + c.body.length + c.body.length % 2

def written (order : ByteOrder) (c : Chunk) : List UInt8 :=
  c.tag.written order ++ order.bytes 4 c.body.length ++ c.body ++
    List.replicate (c.body.length % 2) 0

def extents : List Chunk → Nat
  | [] => 0
  | c :: rest => c.extent + extents rest

end Chunk

def Entry.written (order : ByteOrder) (e : Entry) : List UInt8 :=
  e.tag.written order ++ order.bytes 4 e.size.toNat ++ order.bytes 4 e.offset.toNat ++
    order.bytes 2 e.flags.toNat ++ order.bytes 2 e.attributes.toNat ++
    order.bytes 4 e.nextFree.toNat

def Link.written (order : ByteOrder) (l : Link) : List UInt8 :=
  order.bytes 4 l.child.toUInt32.toNat ++ order.bytes 4 l.parent.toUInt32.toNat ++
    l.tag.written order

def tableHeader (order : ByteOrder) (size rowSize count : Nat) : List UInt8 :=
  order.bytes 2 size ++ order.bytes 2 rowSize ++ order.bytes 4 count ++ order.bytes 4 count

def rowsFrom (index offset : Nat) : List Chunk → List Entry
  | [] => []
  | c :: rest =>
    { id := Int32.ofNat index, tag := c.tag, size := UInt32.ofNat c.body.length,
      offset := UInt32.ofNat offset, nextFree := 0xFFFFFFFF } ::
      rowsFrom (index + 1) (offset + c.extent) rest

structure ClassicLayout where
  order : ByteOrder
  codec : Tag
  mapVersion : UInt32
  archiveVersion : UInt32
  resources : List Chunk
  links : List Link
  deriving DecidableEq, Repr

namespace ClassicLayout

def keyChunk (m : ClassicLayout) : Chunk :=
  { tag := .keys
    body := tableHeader m.order 12 12 m.links.length ++ m.links.flatMap (Link.written m.order) }

/-- The chunks that have a row: the resources, then the key table if there are links. -/
def stored (m : ClassicLayout) : List Chunk :=
  m.resources ++ if m.links.isEmpty then [] else [m.keyChunk]

def firstOffset (m : ClassicLayout) : Nat := 56 + 20 * m.stored.length

def entries (m : ClassicLayout) : List Entry := rowsFrom 0 m.firstOffset m.stored

def initialChunk (m : ClassicLayout) : Chunk :=
  { tag := .imap
    body := m.order.bytes 4 16 ++ m.order.bytes 4 m.mapVersion.toNat ++ m.order.bytes 4 36 ++
      m.order.bytes 4 m.archiveVersion.toNat }

def memoryChunk (m : ClassicLayout) : Chunk :=
  { tag := .mmap
    body := tableHeader m.order 12 20 m.stored.length ++
      m.entries.flatMap (Entry.written m.order) }

def chunks (m : ClassicLayout) : List Chunk := m.initialChunk :: m.memoryChunk :: m.stored

def size (m : ClassicLayout) : Nat := 12 + Chunk.extents m.chunks

def bytes (m : ClassicLayout) : List UInt8 :=
  m.order.magic ++ m.order.bytes 4 (m.size - 12) ++ m.codec.written m.order ++
    m.chunks.flatMap (Chunk.written m.order)

end ClassicLayout

def Tag.IsPlain (tag : Tag) : Prop := tag ≠ .imap ∧ tag ≠ .mmap ∧ tag ≠ .keys

instance (tag : Tag) : Decidable tag.IsPlain := inferInstanceAs (Decidable (_ ∧ _))

/-- A layout that can be written: it is no archive, no resource passes for a part of the map, and
all sizes and offsets fit in a word. -/
structure ClassicMovie extends ClassicLayout where
  not_archive : Tag.ofText? "FGDM" ≠ some codec ∧ Tag.ofText? "FGDC" ≠ some codec
  plain : ∀ c ∈ resources, c.tag.IsPlain
  fits : toClassicLayout.size < 0x100000000

theorem mv93_not_archive :
    Tag.ofText? "FGDM" ≠ some ⟨0x4d563933⟩ ∧ Tag.ofText? "FGDC" ≠ some ⟨0x4d563933⟩ := by
  decide

/-! Lengths of the written parts. -/

@[simp] theorem ByteOrder.length_magic (order : ByteOrder) : order.magic.length = 4 := by
  cases order <;> rfl

theorem magicOrder?_magic (order : ByteOrder) : magicOrder? order.magic = some order := by
  cases order <;> decide

@[simp] theorem Tag.length_written (order : ByteOrder) (tag : Tag) :
    (tag.written order).length = 4 :=
  ByteOrder.length_bytes order 4 _

@[simp] theorem Entry.length_written (order : ByteOrder) (e : Entry) :
    (e.written order).length = 20 := by
  simp [Entry.written]

@[simp] theorem Link.length_written (order : ByteOrder) (l : Link) :
    (l.written order).length = 12 := by
  simp [Link.written]

@[simp] theorem length_tableHeader (order : ByteOrder) (size rowSize count : Nat) :
    (tableHeader order size rowSize count).length = 12 := by
  simp [tableHeader]

@[simp] theorem length_rowsFrom (index offset : Nat) (chunks : List Chunk) :
    (rowsFrom index offset chunks).length = chunks.length := by
  induction chunks generalizing index offset with
  | nil => rfl
  | cons c rest ih => simp [rowsFrom, ih]

namespace Chunk

@[simp] theorem length_written (order : ByteOrder) (c : Chunk) :
    (c.written order).length = c.extent := by
  simp only [written, extent, List.length_append, Tag.length_written, ByteOrder.length_bytes,
    List.length_replicate]

theorem length_flatMap_written (order : ByteOrder) (chunks : List Chunk) :
    (chunks.flatMap (written order)).length = extents chunks := by
  induction chunks with
  | nil => rfl
  | cons c rest ih => simp [extents, ih]

theorem even_extent (c : Chunk) : c.extent % 2 = 0 := by
  unfold extent
  omega

theorem body_lt_extent (c : Chunk) : c.body.length < c.extent := by
  unfold extent
  omega

theorem extent_le_extents {c : Chunk} {chunks : List Chunk} (h : c ∈ chunks) :
    c.extent ≤ extents chunks := by
  induction chunks with
  | nil => simp at h
  | cons d rest ih =>
    rw [extents]
    rcases List.mem_cons.mp h with rfl | hrest
    · omega
    · have := ih hrest
      omega

end Chunk

namespace ClassicLayout

variable (m : ClassicLayout)

@[simp] theorem length_entries : m.entries.length = m.stored.length := length_rowsFrom ..

@[simp] theorem length_initialBody : m.initialChunk.body.length = 16 := by
  simp [initialChunk]

@[simp] theorem length_memoryBody : m.memoryChunk.body.length = 12 + 20 * m.stored.length := by
  simp only [memoryChunk, List.length_append, length_tableHeader, List.length_flatMap,
    Entry.length_written, List.map_const', length_entries, List.sum_replicate_nat]
  omega

@[simp] theorem length_keyBody : m.keyChunk.body.length = 12 + 12 * m.links.length := by
  simp only [keyChunk, List.length_append, length_tableHeader, List.length_flatMap,
    Link.length_written, List.map_const', List.sum_replicate_nat]
  omega

theorem size_eq : m.size = m.firstOffset + Chunk.extents m.stored := by
  simp only [size, chunks, Chunk.extents, Chunk.extent, length_initialBody, length_memoryBody,
    firstOffset]
  omega

@[simp] theorem length_bytes : m.bytes.length = m.size := by
  simp only [bytes, List.length_append, ByteOrder.length_magic, ByteOrder.length_bytes,
    Tag.length_written, Chunk.length_flatMap_written, size]

end ClassicLayout
end Shockwave
