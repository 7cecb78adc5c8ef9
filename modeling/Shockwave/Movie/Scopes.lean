import Shockwave.Lingo.Scope
import Shockwave.Session.Payload

/-!
The scopes of a movie, one for each script index that can be read. A movie without any falls back on
its first name table.
-/
namespace Shockwave

namespace Scope

variable {ε : Type}

/-- The name table with an id, if it can be read. -/
def readNames (id : Int32) : Step ε (Option NameTable) := do
  match ← Payload.loadId id with
  | none => return none
  | some bytes => match Decode.run NameTable.read bytes with
    | .ok names => return some names
    | .error cause =>
      Step.note (.namesUnreadable id cause)
      return none

/-- The id of the name table that an index refers to, or of the first one. -/
def namesId? (resources : Container) (index : ScriptIndex) : Option Int32 :=
  match (resources.find? index.namesId).filter (·.tag == .names) with
  | some e => some e.id
  | none => (resources.firstWithTag? .names).map (·.id)

/-- The names for an index, none if there are none to read. -/
def namesFor (index : ScriptIndex) : Step ε NameTable := do
  match ← Step.consult (namesId? · index) with
  | none => return {}
  | some id => return (← readNames id).getD {}

/-- The scope of one script index. -/
def ofEntry (e : Entry) : Step ε (Option Scope) := do
  match ← Payload.load e with
  | none => return none
  | some bytes => match Decode.run ScriptIndex.read bytes with
    | .error cause =>
      Step.note (.indexUnreadable e.tag e.id cause)
      return none
    | .ok index =>
      Step.noteAll index.notes
      return some (.ofTables (← namesFor index) (some index) (e.tag == .contextX))

def ofEntries : List Entry → Step ε (List Scope)
  | [] => return []
  | e :: rest => do
    let first ← ofEntry e
    return first.toList ++ (← ofEntries rest)

/-- The scope of a movie that has a name table and no script index. -/
def ofNamesAlone : Step ε (List Scope) := do
  match (← get).resources.firstWithTag? .names with
  | none => return []
  | some e => match ← readNames e.id with
    | none => return []
    | some names =>
      Step.note (.namesAlone e.id)
      return [.ofTables names none false]

/-- All scopes of a movie. -/
def collect : Step ε (List Scope) := do
  let isIndex (e : Entry) : Bool := e.tag == .context || e.tag == .contextX
  match ← ofEntries ((← get).resources.entries.filter isIndex) with
  | [] => ofNamesAlone
  | scopes => return scopes

end Scope
end Shockwave
