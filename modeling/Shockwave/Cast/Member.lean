import Shockwave.Bytes.Cursor

/-!
Cast members: a kind, a block of general information and a block for the kind. They are stored most
significant byte first in every movie.
-/
namespace Shockwave

inductive MemberKind where
  | null
  | bitmap
  | filmLoop
  | text
  | palette
  | picture
  | sound
  | button
  | shape
  | movie
  | digitalVideo
  | script
  | richText
  | ole
  | transition
  | xtra
  deriving DecidableEq, Repr

namespace MemberKind

/-- The kinds in the order of their codes, which start at zero. -/
def all : List MemberKind :=
  [.null, .bitmap, .filmLoop, .text, .palette, .picture, .sound, .button, .shape, .movie,
   .digitalVideo, .script, .richText, .ole, .transition, .xtra]

def ofCode? (code : UInt32) : Option MemberKind := all[code.toNat]?

def name : MemberKind → String
  | .null => "Null"
  | .bitmap => "Bitmap"
  | .filmLoop => "FilmLoop"
  | .text => "Text"
  | .palette => "Palette"
  | .picture => "Picture"
  | .sound => "Sound"
  | .button => "Button"
  | .shape => "Shape"
  | .movie => "Movie"
  | .digitalVideo => "DigitalVideo"
  | .script => "Script"
  | .richText => "RichText"
  | .ole => "Ole"
  | .transition => "Transition"
  | .xtra => "Xtra"

end MemberKind

/-- What a script member is used for. -/
inductive ScriptFormat where
  | unknown
  | behavior
  | movie
  | parent
  deriving DecidableEq, Repr

namespace ScriptFormat

def selector : ScriptFormat → UInt16
  | .unknown => 0
  | .behavior => 1
  | .movie => 3
  | .parent => 7

def ofSelector? (selector : UInt16) : Option ScriptFormat :=
  [unknown, behavior, movie, parent].find? (·.selector == selector)

def name : ScriptFormat → String
  | .unknown => "unknown"
  | .behavior => "behavior"
  | .movie => "movie"
  | .parent => "parent"

end ScriptFormat

structure Member where
  code : UInt32
  info : ByteArray
  specific : ByteArray

namespace Member

/-- Reads a member; blocks that reach past the end of the stream are cut there. -/
def read : Decode Member := do
  Decode.setOrder .big
  Decode.require 12
  let code ← Decode.u32
  let infoLength ← Decode.u32
  let specificLength ← Decode.u32
  let info ← Decode.bytes (min infoLength.toNat (← Decode.remaining))
  let specific ← Decode.bytes (min specificLength.toNat (← Decode.remaining))
  return { code, info, specific }

def kind? (m : Member) : Option MemberKind := MemberKind.ofCode? m.code

def isScript (m : Member) : Bool := m.kind? == some .script

/-- The format told by the first two bytes of the specific block, or by a single one. -/
def format (m : Member) : ScriptFormat :=
  match octets (m.specific.extract 0 2) with
  | [] => .unknown
  | bytes => (ScriptFormat.ofSelector? (UInt16.ofNat (ByteOrder.bigValue bytes))).getD .unknown

/-- The script id in the info block, read in one byte order and then the other; the first that is
positive and accepted. -/
def scriptId? (m : Member) (accept : Int32 → Bool) : Option Int32 :=
  let stored := octets (m.info.extract 8 12)
  if stored.length < 4 then none
  else
    let candidate (order : ByteOrder) : Int32 := (UInt32.ofNat (order.value stored)).toInt32
    [candidate .big, candidate .little].find? fun id => 0 < id && accept id

end Member
end Shockwave
