/-!
Text for places that take only printable ASCII: tab, line feed, carriage return and the characters
from space to tilde stay, and every other character becomes a question mark.
-/
namespace Shockwave.Printable

def keeps (c : Char) : Bool :=
  c.toNat == 9 || c.toNat == 10 || c.toNat == 13 || (32 ≤ c.toNat && c.toNat ≤ 126)

def text (s : String) : String :=
  s.map fun c => if keeps c then c else '?'

end Shockwave.Printable
