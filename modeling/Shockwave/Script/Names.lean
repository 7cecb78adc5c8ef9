import Shockwave.Bytes.Cursor

/-!
Name tables, which scripts share to spell handlers, variables and symbols.
-/
namespace Shockwave

structure NameTable where
  names : List String := []
  deriving DecidableEq, Repr, Inhabited

namespace NameTable

/-- Reads the table that fills a stream. -/
def read : Decode NameTable := do
  Decode.setOrder .big
  Decode.seek 0
  Decode.require 20
  Decode.jump 16
  let offset ← Decode.u16
  let count ← Decode.u16
  Decode.seek offset.toNat
  return ⟨← Decode.times count.toNat Decode.counted⟩

end NameTable
end Shockwave
