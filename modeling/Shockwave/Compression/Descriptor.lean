import Shockwave.Compression.Identifier

/-!
Compression schemes and the descriptors that tell which one a resource uses.
-/
namespace Shockwave

inductive Compression where
  | stored
  | zlib
  | sound
  | fontMap
  | unknown
  deriving DecidableEq, Repr

namespace Compression

def name : Compression → String
  | .stored => "None"
  | .zlib => "Zlib"
  | .sound => "Sound"
  | .fontMap => "FontMap"
  | .unknown => "Unknown"

def known : List (Identifier × Compression) :=
  [(.null, .stored), (.zlib, .zlib), (.sound, .sound), (.fontMap, .fontMap)]

def hints : List (String × Compression) :=
  [("zlib", .zlib), ("sound", .sound), ("font", .fontMap)]

/-- Whether a character list stands somewhere in another. -/
def occursIn (needle : List Char) : List Char → Bool
  | [] => needle.isEmpty
  | c :: text => needle.isPrefixOf (c :: text) || occursIn needle text

/-- The scheme that an identifier stands for; an identifier that is not known goes by the first hint
in the name, in capitals or not. -/
def resolve (identifier : List UInt8) (name : String) : Compression :=
  match known.find? (·.1.isSpelled identifier) with
  | some (_, kind) => kind
  | none =>
    let name := name.toList.map Char.toLower
    (hints.find? fun hint => occursIn hint.1.toList name).elim .unknown (·.2)

end Compression

structure Descriptor where
  index : Nat
  identifier : List UInt8
  name : String
  kind : Compression
  deriving DecidableEq, Repr

def Descriptor.new (index : Nat) (identifier : List UInt8) (name : String) : Descriptor :=
  { index, identifier, name, kind := .resolve identifier name }

end Shockwave
