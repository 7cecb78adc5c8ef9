import Shockwave.Note
import Shockwave.Resource.Entry

/-!
The resources of one movie. Entries keep the order in which their ids first came, and a later entry
takes the place of an earlier one with the same id.
-/
namespace Shockwave

structure Container where
  entries : List Entry := []
  links : List Link := []
  /-- Bytes kept for single resources, the latest in front. -/
  segments : List (Int32 × ByteArray) := []
  deriving Inhabited

namespace Container

def find? (c : Container) (id : Int32) : Option Entry :=
  c.entries.find? (·.id == id)

def has (c : Container) (id : Int32) : Bool := (c.find? id).isSome

def insert (c : Container) (e : Entry) : Container :=
  if c.has e.id then
    { c with entries := c.entries.map fun old => if old.id = e.id then e else old }
  else { c with entries := c.entries ++ [e] }

/-- What there is to say about adding an entry. -/
def insertNotes (c : Container) (e : Entry) : List Note :=
  if c.has e.id then [.entryTwice e.id e.tag] else []

def link (c : Container) (l : Link) : Container :=
  { c with links := c.links ++ [l] }

def setSegment (c : Container) (id : Int32) (bytes : ByteArray) : Container :=
  { c with segments := (id, bytes) :: c.segments.filter (·.1 != id) }

def segment? (c : Container) (id : Int32) : Option ByteArray :=
  (c.segments.find? (·.1 == id)).map (·.2)

def withTag (c : Container) (tag : Tag) : List Entry :=
  c.entries.filter (·.tag == tag)

def firstWithTag? (c : Container) (tag : Tag) : Option Entry :=
  c.entries.find? (·.tag == tag)

def childrenOf (c : Container) (id : Int32) : List Link :=
  c.links.filter (·.parent == id)

def parentOf? (c : Container) (id : Int32) : Option Link :=
  c.links.find? (·.child == id)

end Container
end Shockwave
