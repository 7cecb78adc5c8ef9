import Shockwave.Cast.Member
import Shockwave.Session.Payload

/-!
The scripts of a movie, each with the cast member that owns it. A member names its script in its
info block; failing that, the links of the movie tell. The first member in id order wins.
-/
namespace Shockwave

structure ScriptEntry where
  id : Int32
  memberId : Option Int32
  format : ScriptFormat
  info : Option ScriptInfo
  /-- Whether the info block could be decoded in both layouts. -/
  ambiguous : Bool
  bytes : ByteArray

/-- The member that owns a script. -/
structure Owner where
  memberId : Int32
  format : ScriptFormat
  info : ByteArray

namespace ScriptEntry

variable {ε : Type}

/-- The bytes of a resource, if there are any. -/
def loadSome (e : Entry) : Step ε (Option ByteArray) := do
  return (← Payload.load e).filter fun bytes => bytes.size ≠ 0

/-- Whether an id is that of a registered script. -/
def isScriptId (resources : Container) (id : Int32) : Bool :=
  (resources.find? id).any (·.tag == .script)

/-- The script that a member stands for. -/
def scriptOf? (resources : Container) (memberId : Int32) (member : Member) : Option Int32 :=
  (member.scriptId? (isScriptId resources)).or
    (((resources.childrenOf memberId).find? (·.tag == .script)).map (·.child))

/-- The script that a cast entry owns, and the entry as its owner. -/
def ownerOf (e : Entry) : Step ε (Option (Int32 × Owner)) := do
  match ← loadSome e with
  | none => return none
  | some bytes => match Decode.run Member.read bytes with
    | .error cause =>
      Step.note (.memberUnreadable e.id cause)
      return none
    | .ok member =>
      if !member.isScript then return none
      match ← Step.consult (scriptOf? · e.id member) with
      | none =>
        Step.note (.memberWithoutScript e.id)
        return none
      | some id => return some (id, { memberId := e.id, format := member.format, info := member.info })

/-- Owners of scripts, in the order of the entries. -/
def owners : List Entry → Step ε (List (Int32 × Owner))
  | [] => return []
  | e :: rest => do
    let first ← ownerOf e
    return first.toList ++ (← owners rest)

/-- The entries of cast members, in id order. -/
def castEntries (resources : Container) : List Entry :=
  (resources.withTag .castMember ++ resources.withTag .castMemberOld).mergeSort
    fun a b => a.id ≤ b.id

/-- The script of one resource, unless it is empty. -/
def ofEntry (archiveVersion : UInt32) (decodeText : Bool) (owners : List (Int32 × Owner))
    (e : Entry) : Step ε (Option ScriptEntry) := do
  match ← loadSome e with
  | none =>
    Step.note (.scriptEmpty e.id)
    return none
  | some bytes =>
    let owner := (owners.find? (·.1 == e.id)).map (·.2)
    let detected := if decodeText then owner.bind fun o => ScriptInfo.detect? o.info archiveVersion
      else none
    Step.noteAll (detected.elim [] ScriptInfo.notes)
    return some { id := e.id, memberId := owner.map (·.memberId),
                  format := owner.elim .unknown (·.format), info := detected.map (·.1),
                  ambiguous := detected.any (·.2), bytes }

def ofEntries (archiveVersion : UInt32) (decodeText : Bool) (owners : List (Int32 × Owner)) :
    List Entry → Step ε (List ScriptEntry)
  | [] => return []
  | e :: rest => do
    let first ← ofEntry archiveVersion decodeText owners e
    return first.toList ++ (← ofEntries archiveVersion decodeText owners rest)

/-- All scripts that have bytes, in the order of the resources. -/
def collect (archiveVersion : UInt32) (decodeText : Bool) : Step ε (List ScriptEntry) := do
  let owners ← owners (castEntries (← get).resources)
  ofEntries archiveVersion decodeText owners ((← get).resources.withTag .script)

end ScriptEntry
end Shockwave
