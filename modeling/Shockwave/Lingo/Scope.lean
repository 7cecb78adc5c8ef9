import Shockwave.Script.Index
import Shockwave.Script.Names

/-!
What the scripts of one index share: names, and how far apart variable numbers lie in their code.
-/
namespace Shockwave

/-- Distance between the numbers of neighbouring variables and literals in compiled code. -/
def variableStep (capitalX : Bool) (version : Nat) : Nat :=
  if capitalX || 850 ≤ version then 1 else if 500 ≤ version then 8 else 6

structure Scope where
  names : List String := []
  /-- Whether the index carries the later of its two tags. -/
  capitalX : Bool := false
  scriptIds : List Int32 := []
  deriving DecidableEq, Repr, Inhabited

namespace Scope

def ofTables (names : NameTable) (index : Option ScriptIndex) (capitalX : Bool) : Scope :=
  { names := names.names, capitalX, scriptIds := index.elim [] (·.scriptIds) }

def name? (scope : Scope) (id : Int) : Option String :=
  if id < 0 then none else scope.names[id.toNat]?

end Scope
end Shockwave
