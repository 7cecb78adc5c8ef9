import Shockwave.Bytes.Cursor

/-!
The format of a movie: the codec of its container, the byte order, and the versions from which the
release that wrote it is told.
-/
namespace Shockwave

inductive Codec where
  | mv93
  | mc95
  | appl
  | fgdm
  | fgdc
  | unknown
  deriving DecidableEq, Repr

namespace Codec

def name : Codec → String
  | .mv93 => "MV93"
  | .mc95 => "MC95"
  | .appl => "APPL"
  | .fgdm => "FGDM"
  | .fgdc => "FGDC"
  | .unknown => "Unknown"

def ofTag (tag : Tag) : Codec :=
  ([mv93, mc95, appl, fgdm, fgdc].find? fun codec => Tag.ofText? codec.name == some tag).getD .unknown

/-- Whether the movie keeps its resources in a compressed archive. -/
def isArchive (codec : Codec) : Bool := codec == .fgdm || codec == .fgdc

end Codec

structure Format where
  codecTag : Tag
  order : ByteOrder := .big
  mapVersion : UInt32 := 0
  archiveVersion : UInt32 := 0
  deriving DecidableEq, Repr

namespace Format

def codec (f : Format) : Codec := .ofTag f.codecTag

/-- The release that first wrote the archive version. -/
def release (f : Format) : Nat :=
  let v := f.archiveVersion
  if v < 0x45D then 4
  else if v < 0x4C2 then 5
  else if v < 0x4C8 then 6
  else if v < 0x582 then 7
  else if v < 0x742 then 8
  else if v < 0x783 then 10
  else if v < 0x79F then 11
  else 12

def label (f : Format) : String := s!"Director {f.release}"

/-- Version of the script language in hundreds; the later archives of release 8 count as 8.5. -/
def lingoVersion (f : Format) : Nat :=
  if f.release = 8 ∧ 0x73B ≤ f.archiveVersion then 850 else f.release * 100

end Format

/-- The header of a container and the place of what follows it. -/
structure Block where
  declaredSize : UInt32
  start : Nat
  format : Format
  deriving DecidableEq, Repr

namespace Block

def stop (b : Block) : Nat := b.start + b.declaredSize.toNat

end Block
end Shockwave
