import Shockwave.Tag

/-!
Rows of a movie's resource map and the links between resources.
-/
namespace Shockwave

/-- Where the bytes of a resource are kept. -/
inductive Storage where
  /-- In a chunk of its own. -/
  | chunk
  /-- In the body of an archive, at a negative offset in its initial load segment. -/
  | archived (offset : Int32) (fullSize compression : UInt32)
  deriving DecidableEq, Repr

structure Entry where
  id : Int32
  tag : Tag
  size : UInt32 := 0
  offset : UInt32 := 0
  flags : UInt16 := 0
  attributes : UInt16 := 0
  nextFree : UInt32 := 0
  storage : Storage := .chunk
  deriving DecidableEq, Repr

/-- Whether the row stands for unused space. -/
def Entry.isFree (e : Entry) : Bool := e.tag == .free || e.tag == .junk

/-- A resource and the resource that owns it. -/
structure Link where
  child : Int32
  parent : Int32
  tag : Tag
  deriving DecidableEq, Repr

end Shockwave
