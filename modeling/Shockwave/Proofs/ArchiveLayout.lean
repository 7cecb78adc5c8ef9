import Shockwave.Map.Archived
import Shockwave.Proofs.Layout
import Shockwave.Proofs.Varint

/-!
An archived movie as it is written: the version record, the table of compression schemes, the map,
and the initial load segment with the rest of the body. Every part but the last states its length.
-/
namespace Shockwave

structure ArchiveRow where
  id : Int32
  offset : UInt32
  size : UInt32
  fullSize : UInt32
  compression : UInt32
  tag : Tag

namespace ArchiveRow

def written (order : ByteOrder) (r : ArchiveRow) : List UInt8 :=
  Varint.written r.id.toUInt32 ++ (Varint.written r.offset ++ (Varint.written r.size ++
    (Varint.written r.fullSize ++ (Varint.written r.compression ++ r.tag.written order))))

theorem length_written_pos (order : ByteOrder) (r : ArchiveRow) : 0 < (r.written order).length := by
  have := Varint.length_written_pos r.id.toUInt32
  rw [written, List.length_append]
  omega

def entry (r : ArchiveRow) : Entry :=
  { id := r.id, tag := r.tag, size := r.size
    offset := UInt32.ofNat r.offset.toInt32.toInt.toNat
    storage := .archived r.offset.toInt32 r.fullSize r.compression }

end ArchiveRow

structure Scheme where
  identifier : List UInt8
  name : String

namespace Scheme

def nameWritten (s : Scheme) : List UInt8 := octets s.name.toUTF8 ++ [0]

def kind (s : Scheme) : Compression := .resolve s.identifier s.name

end Scheme

/-- Where the bytes of a resource are: in the initial load segment, or in the body at an offset. -/
inductive Place where
  | segment
  | body (offset : Nat)

def Place.offset : Place → UInt32
  | .segment => 0xFFFFFFFF
  | .body offset => UInt32.ofNat offset

structure ArchivedResource where
  id : Int32
  tag : Tag
  data : List UInt8
  stored : List UInt8
  compression : UInt32
  place : Place

namespace ArchivedResource

def isInline (r : ArchivedResource) : Bool :=
  match r.place with
  | .segment => true
  | .body _ => false

def row (r : ArchivedResource) : ArchiveRow :=
  { id := r.id, offset := r.place.offset, size := UInt32.ofNat r.stored.length
    fullSize := UInt32.ofNat r.data.length, compression := r.compression, tag := r.tag }

def record (r : ArchivedResource) : List UInt8 := Varint.written r.id.toUInt32 ++ r.stored

end ArchivedResource

def archivePart (order : ByteOrder) (tag : Tag) (content : List UInt8) : List UInt8 :=
  tag.written order ++ (Varint.written (UInt32.ofNat content.length) ++ content)

theorem length_archivePart (order : ByteOrder) (tag : Tag) (content : List UInt8) :
    (archivePart order tag content).length =
      4 + (Varint.written (UInt32.ofNat content.length) ++ content).length := by
  rw [archivePart, List.length_append, Tag.length_written]

def Inflates (stream data : List UInt8) : Prop :=
  Inflate.inflate stream.toByteArray = .ok data.toByteArray

/-- The data of an archive, with a stream for each part that is compressed. The row of the initial
load segment stands between the early and the late resources. -/
structure ArchiveLayout where
  order : ByteOrder
  codec : Tag
  declaredSize : UInt32
  version : UInt32
  mapVersion : UInt32
  archiveVersion : UInt32
  versionText : List UInt8
  schemes : List Scheme
  schemeStream : List UInt8
  unused : UInt32 × UInt32
  early : List ArchivedResource
  late : List ArchivedResource
  mapMode : UInt32
  mapStream : List UInt8
  segmentOffset : UInt32
  segmentCompression : UInt32
  segmentTag : Tag
  segmentHeader : UInt32
  segmentStream : List UInt8
  /-- What follows the initial load segment. -/
  body : List UInt8

namespace ArchiveLayout

variable (m : ArchiveLayout)

def resources : List ArchivedResource := m.early ++ m.late

def versionNumbers : List UInt8 :=
  if 0x401 ≤ m.version then Varint.written m.mapVersion ++ Varint.written m.archiveVersion else []

def textWritten : List UInt8 :=
  if 0x501 ≤ m.version then UInt8.ofNat m.versionText.length :: m.versionText else []

def versionRecord : List UInt8 :=
  Varint.written m.version ++ (m.versionNumbers ++ m.textWritten)

def schemeTable : List UInt8 :=
  m.order.bytes 2 m.schemes.length ++
    (m.schemes.flatMap (·.identifier) ++ m.schemes.flatMap Scheme.nameWritten)

def kind? (index : UInt32) : Option Compression := m.schemes[index.toNat]?.map Scheme.kind

def segment : List UInt8 :=
  (m.resources.filter (·.isInline)).flatMap ArchivedResource.record

def segmentRow : ArchiveRow :=
  { id := Archive.initialSegment, offset := m.segmentOffset
    size := UInt32.ofNat m.segmentStream.length, fullSize := UInt32.ofNat m.segment.length
    compression := m.segmentCompression, tag := m.segmentTag }

def rows : List ArchiveRow :=
  m.early.map (·.row) ++ m.segmentRow :: m.late.map (·.row)

def mapTable : List UInt8 :=
  Varint.written m.unused.1 ++ (Varint.written m.unused.2 ++
    (Varint.written (UInt32.ofNat m.rows.length) ++ m.rows.flatMap (ArchiveRow.written m.order)))

def mapPart : List UInt8 :=
  Varint.written m.mapMode ++ (Varint.written (UInt32.ofNat m.mapTable.length) ++ m.mapStream)

def header : List UInt8 :=
  m.order.magic ++ (m.order.bytes 4 m.declaredSize.toNat ++ m.codec.written m.order)

def bytes : List UInt8 :=
  m.header ++
    (archivePart m.order .version m.versionRecord ++
    (archivePart m.order .descriptors m.schemeStream ++
    (archivePart m.order .archiveMap m.mapPart ++
    (Tag.segments.written m.order ++
    (Varint.written m.segmentHeader ++
    (m.segmentStream ++ m.body))))))

def bodyOffset : Nat :=
  m.header.length + (archivePart m.order .version m.versionRecord).length +
    (archivePart m.order .descriptors m.schemeStream).length +
    (archivePart m.order .archiveMap m.mapPart).length + 4 +
    (Varint.written m.segmentHeader).length

end ArchiveLayout

/-- A layout that can be written: the streams inflate to the parts they stand for, the ids are
distinct, all lengths fit in a word, and the body has the bytes of each resource at its offset. -/
structure ArchiveMovie extends ArchiveLayout where
  is_archive : (Codec.ofTag codec).isArchive = true
  text_fits : versionText.length < 256
  schemes_fit : schemes.length < 0x10000
  length_identifier : ∀ s ∈ schemes, s.identifier.length = 16
  name_ends : ∀ s ∈ schemes, 0 ∉ octets s.name.toUTF8
  schemes_inflate : Inflates schemeStream toArchiveLayout.schemeTable
  map_inflates : if mapMode = 0 then mapStream = toArchiveLayout.mapTable
    else Inflates mapStream toArchiveLayout.mapTable
  segment_inflates : Inflates segmentStream toArchiveLayout.segment
  id_distinct : (toArchiveLayout.resources.map (·.id)).Nodup
  id_ne : ∀ r ∈ toArchiveLayout.resources, r.id ≠ Archive.initialSegment
  data_stored : ∀ r ∈ toArchiveLayout.resources,
    if toArchiveLayout.kind? r.compression = some .zlib then Inflates r.stored r.data
    else r.stored = r.data
  data_placed : ∀ r ∈ toArchiveLayout.resources, ∀ offset, r.place = .body offset →
    offset < 0x80000000 ∧ Holds (segmentStream ++ body).toByteArray offset r.stored
  parts_fit : ∀ part ∈ [schemeStream, toArchiveLayout.mapPart, toArchiveLayout.mapTable,
    segmentStream, toArchiveLayout.segment], part.length < 0x100000000
  data_fits : ∀ r ∈ toArchiveLayout.resources,
    r.stored.length < 0x100000000 ∧ r.data.length < 0x100000000

end Shockwave
