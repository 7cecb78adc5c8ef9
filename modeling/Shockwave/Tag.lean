import Shockwave.Bytes.Order

/-!
Four-character tags of chunks, resources and codecs, held as the word their bytes spell with the
first character on top.
-/
namespace Shockwave

structure Tag where
  code : UInt32
  deriving DecidableEq, Repr, Inhabited

namespace Tag

def ofBytes (bytes : List UInt8) : Tag :=
  ⟨UInt32.ofNat (ByteOrder.bigValue bytes)⟩

/-- The tag spelled by the first four UTF-8 bytes of a text; a shorter text spells none. -/
def ofText? (text : String) : Option Tag :=
  let bytes := text.toUTF8.data.toList
  if bytes.length < 4 then none else some (ofBytes (bytes.take 4))

def bytes (tag : Tag) : List UInt8 :=
  ByteOrder.bigBytes 4 tag.code.toNat

/-- The four characters, with a question mark for each that is neither graphic ASCII nor a space. -/
def text (tag : Tag) : String :=
  String.ofList (tag.bytes.map fun byte =>
    if 0x20 ≤ byte && byte ≤ 0x7E then Char.ofNat byte.toNat else '?')

def imap : Tag := ⟨0x696D6170⟩
def mmap : Tag := ⟨0x6D6D6170⟩
def keys : Tag := ⟨0x4B45592A⟩
def free : Tag := ⟨0x66726565⟩
def junk : Tag := ⟨0x6A756E6B⟩
def script : Tag := ⟨0x4C736372⟩
def names : Tag := ⟨0x4C6E616D⟩
def context : Tag := ⟨0x4C637478⟩
def contextX : Tag := ⟨0x4C637458⟩
def castMember : Tag := ⟨0x43415374⟩
def castMemberOld : Tag := ⟨0x43415354⟩
def version : Tag := ⟨0x46766572⟩
def descriptors : Tag := ⟨0x46636472⟩
def archiveMap : Tag := ⟨0x41424D50⟩
def segments : Tag := ⟨0x46474549⟩

example : [imap, mmap, keys, free, junk, script, names].map text =
    ["imap", "mmap", "KEY*", "free", "junk", "Lscr", "Lnam"] := by decide

example : [context, contextX, castMember, castMemberOld].map text =
    ["Lctx", "LctX", "CASt", "CAST"] := by decide

example : [version, descriptors, archiveMap, segments].map text =
    ["Fver", "Fcdr", "ABMP", "FGEI"] := by decide

end Tag
end Shockwave
