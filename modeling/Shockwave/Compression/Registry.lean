import Shockwave.Note

/-!
The registry of compression descriptors: one per index, in index order.
-/
namespace Shockwave

/-- Descriptors in ascending order of index. -/
structure Registry where
  descriptors : List Descriptor := []
  deriving DecidableEq, Repr, Inhabited

namespace Registry

def find? (registry : Registry) (index : Nat) : Option Descriptor :=
  registry.descriptors.find? (·.index == index)

/-- The scheme of the descriptor with an index. -/
def kind? (registry : Registry) (index : Nat) : Option Compression :=
  (registry.find? index).map (·.kind)

def place (d : Descriptor) : List Descriptor → List Descriptor
  | [] => [d]
  | e :: rest =>
    if d.index < e.index then d :: e :: rest
    else if d.index = e.index then d :: rest
    else e :: place d rest

/-- Adds a descriptor in place of one with the same index. -/
def insert (registry : Registry) (d : Descriptor) : Registry :=
  ⟨place d registry.descriptors⟩

/-- What there is to say about adding a descriptor. -/
def insertNotes (registry : Registry) (d : Descriptor) : List Note :=
  .descriptor d.index d.kind d.name ::
    if (registry.find? d.index).isSome then [.descriptorTwice d.index] else []

def size (registry : Registry) : Nat := registry.descriptors.length

end Registry
end Shockwave
