import Shockwave.Proofs.CheckedScripts
import Shockwave.Proofs.Slots

/-!
The reading of a classic movie with every difference, index and slice checked, and with the entries
looked up through their slots. The search for the container only goes back from the end of a stream
that has room for a header; slots are filled as rows are registered and lead to the entry of their id
from then on; and what the info blocks of cast members are taken apart into has the size asked for.
-/
namespace Shockwave

open Checked

abbrev Slots := Int32 → Option Nat

def followStubChecked (marker : List UInt8) : Step (Fault OpenError) (Option Nat) := do
  if projectorMarkers.contains marker then
    let raw ← lift (Step.readOr (fun _ => .projectorCut) (Decode.bytes 4))
    let stored ← inRange (leading? 4 (octets raw))
    let found ← lift (firstAmong [ByteOrder.little.value stored, ByteOrder.big.value stored])
    match found with
    | some offset =>
      let word ← inRange (leading? 4 marker)
      Step.note (.projectorOffset (.ofBytes word) offset)
    | none => Step.note .projectorWithoutMovie
    return found
  else return none

def scanStreamChecked : Step (Fault OpenError) (Option Nat) := do
  lift (firstAmong (List.range' 1 (← inRange (minus? (← get).cursor.size 4))))

def seekContainerChecked (search : Bool) : Step (Fault OpenError) Nat := do
  let marker ← lift readMarker
  if isMagic marker then return 0
  match ← followStubChecked marker with
  | some offset => return offset
  | none =>
    if !search then throw (.failed .containerNotFound)
    match ← scanStreamChecked with
    | some offset => return offset
    | none => throw (.failed .containerNotFound)

def locateChecked (search : Bool) : Step (Fault OpenError) Nat := do
  if (← get).cursor.size < headerSize then throw (.failed .streamTooSmall)
  Step.restoring (seekContainerChecked search)

theorem followStubChecked_eq {marker : List UInt8} (h : marker.length = 4) :
    followStubChecked marker = lift (followStub marker) := by
  unfold followStubChecked followStub
  split
  · funext s
    refine lift_bind_of fun raw t hread => ?_
    obtain ⟨d, hbytes, -⟩ := Step.exists_of_readOr_ok hread
    rw [leading?_eq (Decode.length_of_bytes_ok hbytes)]
    refine lift_bind_of fun found u _ => ?_
    cases found with
    | none => rfl
    | some offset =>
      rw [leading?_eq h]
      rfl
  · rfl

theorem scanStreamChecked_eq {s : Session} (h : 4 ≤ s.cursor.size) :
    scanStreamChecked s = lift scanStream s := by
  have hscan : scanStreamChecked s =
      (inRange (minus? s.cursor.size 4) >>= fun last => lift (firstAmong (List.range' 1 last))) s :=
    rfl
  rw [hscan, minus?_eq h]
  rfl

theorem seekContainerChecked_eq (search : Bool) {s : Session}
    (h : headerSize ≤ s.cursor.data.size) :
    seekContainerChecked search s = lift (seekContainer search) s := by
  have hfits : 4 ≤ s.cursor.data.size := Nat.le_trans (by decide) h
  refine lift_bind_of fun marker t hmarker => ?_
  rw [readMarker_eq h] at hmarker
  cases hmarker
  have hlength : (octets (s.cursor.data.extract 0 4)).length = 4 := by
    rw [octets_extract, List.drop_zero, List.length_take, length_octets]
    omega
  rw [followStubChecked_eq hlength]
  by_cases hmagic : isMagic (octets (s.cursor.data.extract 0 4)) = true
  · rw [if_pos hmagic, if_pos hmagic]
    rfl
  · rw [if_neg hmagic, if_neg hmagic]
    refine lift_bind_of fun found u hstub => ?_
    obtain ⟨pos, hfollowed⟩ := followStub_eq h
    rw [hfollowed] at hstub
    cases hstub
    cases hfound : stubOffset? s.cursor.data with
    | some offset => rfl
    | none =>
      cases search with
      | false => rfl
      | true =>
        refine bind_eq_lift (scanStreamChecked_eq hfits) fun found u _ => ?_
        cases found <;> rfl

theorem locateChecked_eq (search : Bool) : locateChecked search = lift (locate search) := by
  funext s
  rcases Nat.lt_or_ge s.cursor.data.size headerSize with hsmall | hsize
  · rw [lift_error (locate_of_small hsmall search)]
    unfold locateChecked Cursor.size
    rw [get_bind, if_pos hsmall]
    rfl
  · have hchecked : locateChecked search s = Step.restoring (seekContainerChecked search) s := by
      unfold locateChecked Cursor.size
      rw [get_bind, if_neg (Nat.not_lt.mpr hsize)]
    have hplain : locate search s = Step.restoring (seekContainer search) s := by
      unfold locate Cursor.size
      rw [get_bind, if_neg (Nat.not_lt.mpr hsize)]
    unfold lift EStateM.adaptExcept
    rw [hchecked, hplain]
    have hseek := seekContainerChecked_eq search hsize
    simp only [Step.restoring, hseek]
    cases h : seekContainer search s with
    | ok offset t => rw [lift_ok h]
    | error e t => rw [lift_error h]

namespace Step

variable {ε : Type} {slots : Slots}

def registerChecked (slots : Slots) (e : Entry) : Step (Fault ε) Slots := do
  noteAll ((← get).resources.insertNotes e)
  let changed ← inRange (Slotted.insert? { container := (← get).resources, slots } e)
  modify fun s => { s with resources := changed.container }
  return changed.slots

def registerAllChecked : List Entry → Slots → Step (Fault ε) Slots
  | [], slots => return slots
  | e :: rest, slots => do registerAllChecked rest (← registerChecked slots e)

def Aligned (slots : Slots) (s : Session) : Prop :=
  Slotted.Aligned { container := s.resources, slots }

theorem registerAllChecked_eq {s : Session} (h : Aligned slots s) (entries : List Entry) :
    ∃ slots' t, (registerAllChecked entries slots : Step (Fault ε) _) s = .ok slots' t ∧
      (registerAll entries : Step ε Unit) s = .ok () t ∧ Aligned slots' t := by
  induction entries generalizing slots s with
  | nil => exact ⟨slots, s, rfl, rfl, h⟩
  | cons e rest ih =>
    obtain ⟨changed, hchanged, hcontainer, haligned⟩ := Slotted.Aligned.insert? h e
    let t : Session :=
      { s.noting (s.resources.insertNotes e) with resources := changed.container }
    have hchecked : (registerChecked slots e : Step (Fault ε) _) s = .ok changed.slots t := by
      unfold registerChecked noteAll
      rw [get_bind, modify_bind, get_bind]
      dsimp only
      rw [hchanged]
      rfl
    have hplain : (register e : Step ε Unit) s = .ok () t := by
      simp only [t, hcontainer]
      rfl
    have ht : Aligned changed.slots t := haligned
    obtain ⟨slots', u, hrest, hplainRest, hu⟩ := ih ht
    refine ⟨slots', u, ?_, ?_, hu⟩
    · rw [registerAllChecked, bind_ok hchecked, hrest]
    · rw [registerAll, bind_ok hplain, hplainRest]

end Step

namespace ClassicMap

variable {ε : Type}

def readChecked (block : Block) : Step (Fault ε) (Slots × Block) := do
  let map ← lift (readTables block)
  let slots ← Step.registerAllChecked (map.memory.elim [] (·.entries)) fun _ => none
  Step.linkAll (map.keys.elim [] (·.links))
  return (slots, { block with format := map.versions block.format })

theorem readChecked_eq (block : Block) {s : Session} (h : s.resources = {}) :
    ∃ slots map block' t, (readChecked block : Step (Fault ε) _) s = .ok (slots, block') t ∧
      (read block : Step ε _) s = .ok (map, block') t ∧ Step.Aligned slots t := by
  let map := found s.cursor.data s.cursor.order s.offset block
  obtain ⟨t, htables, pos, notes, rfl⟩ := yields_readTables (ε := ε) block s
  have hnone : Step.Aligned (fun _ => none)
      { s with cursor := { s.cursor with pos }, notes } := by
    unfold Step.Aligned
    rw [h]
    simp [Slotted.Aligned]
  obtain ⟨slots, u, hchecked, hplain, hu⟩ := Step.registerAllChecked_eq (ε := ε) hnone map.rows
  have hlinked : Step.Aligned slots
      { u with resources := map.links.foldl Container.link u.resources } := by
    unfold Step.Aligned
    rw [Container.foldl_link]
    exact hu
  refine ⟨slots, map, { block with format := map.versions block.format }, _, ?_, ?_, hlinked⟩
  · exact (bind_ok (lift_ok htables)).trans (bind_ok hchecked)
  · exact (bind_ok htables).trans (bind_ok hplain)

end ClassicMap

namespace ScriptInfo

variable {α β : Type}

def unchecked (result : Option α) : OptionT Option α := OptionT.mk (some result)

theorem unchecked_bind (first : Option α) (rest : α → Option β) :
    unchecked (first >>= rest) = unchecked first >>= fun a => unchecked (rest a) := by
  cases first <;> rfl

def wordChecked (order : ByteOrder) (width : Nat) (bytes : Option (List UInt8)) :
    OptionT Option Nat := do
  let found ← unchecked bytes
  return order.value (← OptionT.lift (leading? width found))

def textStartChecked (info : ByteArray) : InfoLayout → OptionT Option Nat
  | .legacy => return 0x21
  | .pointer => do
    let start ← wordChecked .big 2 (slice? info 0x68 0x6A)
    unchecked (if start < 0x6A then none else some start)

def decodeChecked (info : ByteArray) (layout : InfoLayout) : OptionT Option ScriptInfo := do
  let length ← wordChecked .little 4 (slice? info 0x1D 0x21)
  let start ← textStartChecked info layout
  let stop := start + length
  let text ← unchecked (slice? info start stop)
  let nameLength := ByteOrder.bigValue (← unchecked (slice? info stop (stop + 1)))
  let name ← unchecked (slice? info (stop + 1) (stop + 1 + nameLength))
  unchecked (guard (text.all isTextByte && name.all isNameByte))
  let number ← wordChecked .big 4 (slice? info 16 20)
  return { layout, number := (UInt32.ofNat number).toInt32, text := Latin1.decode text,
           name := Latin1.decode name }

def detectChecked (info : ByteArray) (archiveVersion : UInt32) :
    Option (Option (ScriptInfo × Bool)) := do
  let pointer ← (decodeChecked info .pointer).run
  let legacy ← (decodeChecked info .legacy).run
  return choose? archiveVersion pointer legacy

theorem length_of_slice? {info : ByteArray} {start stop : Nat} {bytes : List UInt8}
    (h : slice? info start stop = some bytes) : bytes.length = stop - start := by
  unfold slice? at h
  split at h
  next hfits =>
    cases h
    rw [octets_extract, List.length_take, List.length_drop, length_octets]
    omega
  next => cases h

theorem wordChecked_eq {info : ByteArray} {start stop width : Nat} (order : ByteOrder)
    (h : stop - start = width) :
    wordChecked order width (slice? info start stop) =
      unchecked (slice? info start stop) >>= fun bytes => pure (order.value bytes) := by
  unfold wordChecked
  cases hslice : slice? info start stop with
  | none => rfl
  | some bytes =>
    have hleading : leading? width bytes = some bytes :=
      leading?_eq ((length_of_slice? hslice).trans h)
    have hpure : unchecked (some bytes) = pure bytes := rfl
    rw [hpure, pure_bind, pure_bind, hleading]
    rfl

theorem textStartChecked_eq (info : ByteArray) (layout : InfoLayout) :
    textStartChecked info layout = unchecked (textStart? info layout) := by
  cases layout with
  | legacy => rfl
  | pointer =>
    unfold textStartChecked textStart?
    simp only [wordChecked_eq .big (rfl : 0x6A - 0x68 = 2), unchecked_bind, bind_assoc, pure_bind]
    rfl

theorem decodeChecked_eq (info : ByteArray) (layout : InfoLayout) :
    decodeChecked info layout = unchecked (decode? info layout) := by
  unfold decodeChecked decode?
  rw [wordChecked_eq .little (rfl : 0x21 - 0x1D = 4), bind_assoc, unchecked_bind]
  refine bind_congr fun lengthBytes => ?_
  rw [pure_bind, textStartChecked_eq, unchecked_bind]
  refine bind_congr fun start => ?_
  dsimp only
  rw [unchecked_bind]
  refine bind_congr fun text => ?_
  rw [unchecked_bind]
  refine bind_congr fun countByte => ?_
  rw [unchecked_bind]
  refine bind_congr fun name => ?_
  rw [unchecked_bind]
  refine bind_congr fun _ => ?_
  rw [wordChecked_eq .big (rfl : 20 - 16 = 4), bind_assoc, unchecked_bind]
  exact bind_congr fun numberBytes => pure_bind _ _

theorem detectChecked_eq (info : ByteArray) (archiveVersion : UInt32) :
    detectChecked info archiveVersion = some (detect? info archiveVersion) := by
  unfold detectChecked
  rw [decodeChecked_eq, decodeChecked_eq]
  rfl

end ScriptInfo

def Member.scriptIdChecked (m : Member) (accept : Int32 → Option Bool) : Option (Option Int32) := do
  let stored := octets (m.info.extract 8 12)
  if stored.length < 4 then return none
  else
    let raw ← leading? 4 stored
    let candidate (order : ByteOrder) : Int32 := (UInt32.ofNat (order.value raw)).toInt32
    [candidate .big, candidate .little].findM? fun id => if 0 < id then accept id else some false

theorem Member.scriptIdChecked_eq (m : Member) {checked : Int32 → Option Bool}
    {accept : Int32 → Bool} (h : ∀ id, checked id = some (accept id)) :
    m.scriptIdChecked checked = some (m.scriptId? accept) := by
  have haccept : (fun id : Int32 => if 0 < id then checked id else some false) =
      fun id => pure (decide (0 < id) && accept id) := by
    funext id
    by_cases hpos : 0 < id
    · simp [hpos, h]
    · simp [hpos]
  unfold scriptIdChecked scriptId?
  by_cases hshort : (octets (m.info.extract 8 12)).length < 4
  · simp only [if_pos hshort]
    rfl
  · have hlength : (octets (m.info.extract 8 12)).length = 4 := by
      rw [octets_extract, List.length_take] at hshort ⊢
      omega
    simp only [if_neg hshort, leading?_eq hlength, haccept, List.findM?_pure]
    rfl

section

variable {ε α β : Type} {slots : Slots}

def consultChecked (slots : Slots) (check : Slotted → Option α) : Step (Fault ε) α := do
  inRange (check { container := (← get).resources, slots })

/-- The checked step mirrors the other one as long as slots lead to the entries. -/
def Tracks (slots : Slots) (checked : Step (Fault ε) α) (step : Step ε α) : Prop :=
  Mirrors (Step.Aligned slots) (fun _ => Step.Aligned slots) checked step

theorem tracks_pure (a : α) : Tracks slots (pure a : Step (Fault ε) α) (pure a) :=
  mirrors_pure fun _ h => h

theorem tracks_lift {step : Step ε α} (h : Step.Quiet step) : Tracks slots (lift step) step := by
  refine mirrors_lift fun s a t hs ht => ?_
  obtain ⟨pos, notes, rfl⟩ := Step.keeping_of_quiet h s a t ht
  exact hs

theorem tracks_bind {checked : Step (Fault ε) α} {step : Step ε α}
    {checkedRest : α → Step (Fault ε) β} {rest : α → Step ε β} (hstep : Tracks slots checked step)
    (hrest : ∀ a, Tracks slots (checkedRest a) (rest a)) :
    Tracks slots (checked >>= checkedRest) (step >>= rest) :=
  mirrors_bind hstep hrest

theorem tracks_note_pure (n : Note) (a : α) :
    Tracks slots (do lift (Step.note n); return a : Step (Fault ε) α) (do Step.note n; return a) :=
  tracks_bind (tracks_lift (Step.quiet_note n)) fun _ => tracks_pure a

theorem tracks_get_bind {checkedRest : Session → Step (Fault ε) α} {rest : Session → Step ε α}
    (hrest : ∀ s, Tracks slots (checkedRest s) (rest s)) :
    Tracks slots (get >>= checkedRest) (get >>= rest) :=
  tracks_bind (tracks_lift Step.quiet_get) hrest

theorem tracks_consult {check : Slotted → Option α} {ask : Container → α}
    (h : ∀ s : Slotted, s.Aligned → check s = some (ask s.container)) :
    Tracks slots (consultChecked slots check : Step (Fault ε) α) (Step.consult ask) := by
  intro s hs
  have hplain : (Step.consult ask : Step ε α) s = .ok (ask s.resources) s := rfl
  constructor
  · unfold consultChecked
    rw [lift_ok hplain, get_bind, h _ hs]
    rfl
  · intro a t ht
    cases ht
    exact hs

def eachChecked (checked : Entry → Step (Fault ε) (Option α)) :
    List Entry → Step (Fault ε) (List α)
  | [] => return []
  | e :: rest => do
    let first ← checked e
    return first.toList ++ (← eachChecked checked rest)

theorem tracks_each {checked : Entry → Step (Fault ε) (Option α)} {step : Entry → Step ε (Option α)}
    (loop : List Entry → Step ε (List α)) (hnil : loop [] = pure [])
    (hcons : ∀ e rest, loop (e :: rest) = do
      let first ← step e
      return first.toList ++ (← loop rest))
    (h : ∀ e, Tracks slots (checked e) (step e)) (entries : List Entry) :
    Tracks slots (eachChecked checked entries) (loop entries) := by
  induction entries with
  | nil =>
    rw [hnil]
    exact tracks_pure []
  | cons e rest ih =>
    rw [hcons]
    exact tracks_bind (h e) fun first => tracks_bind ih fun others => tracks_pure _

end

namespace ScriptEntry

variable {ε : Type} {slots : Slots}

def isScriptIdChecked (s : Slotted) (id : Int32) : Option Bool := do
  return (← s.find? id).any (·.tag == .script)

def scriptOfChecked (memberId : Int32) (member : Member) (s : Slotted) :
    Option (Option Int32) := do
  return (← member.scriptIdChecked (isScriptIdChecked s)).or
    (((s.container.childrenOf memberId).find? (·.tag == .script)).map (·.child))

def ownerOfChecked (slots : Slots) (e : Entry) : Step (Fault ε) (Option (Int32 × Owner)) := do
  match ← lift (loadSome e) with
  | none => return none
  | some bytes => match Decode.run Member.read bytes with
    | .error cause =>
      lift (Step.note (.memberUnreadable e.id cause))
      return none
    | .ok member =>
      if !member.isScript then return none
      match ← consultChecked slots (scriptOfChecked e.id member) with
      | none =>
        lift (Step.note (.memberWithoutScript e.id))
        return none
      | some id => return some (id, { memberId := e.id, format := member.format, info := member.info })

def ofEntryChecked (archiveVersion : UInt32) (decodeText : Bool) (owners : List (Int32 × Owner))
    (e : Entry) : Step (Fault ε) (Option ScriptEntry) := do
  match ← lift (loadSome e) with
  | none =>
    lift (Step.note (.scriptEmpty e.id))
    return none
  | some bytes =>
    let owner := (owners.find? (·.1 == e.id)).map (·.2)
    let detected ← inRange (if decodeText then
      owner.elim (some none) fun o => ScriptInfo.detectChecked o.info archiveVersion else some none)
    lift (Step.noteAll (detected.elim [] ScriptInfo.notes))
    return some { id := e.id, memberId := owner.map (·.memberId),
                  format := owner.elim .unknown (·.format), info := detected.map (·.1),
                  ambiguous := detected.any (·.2), bytes }

def collectChecked (slots : Slots) (archiveVersion : UInt32) (decodeText : Bool) :
    Step (Fault ε) (List ScriptEntry) := do
  let owners ← eachChecked (ownerOfChecked slots) (castEntries (← get).resources)
  eachChecked (ofEntryChecked archiveVersion decodeText owners) ((← get).resources.withTag .script)

theorem scriptOfChecked_eq (memberId : Int32) (member : Member) (s : Slotted) (h : s.Aligned) :
    scriptOfChecked memberId member s = some (scriptOf? s.container memberId member) := by
  have hscript (id : Int32) : isScriptIdChecked s id = some (isScriptId s.container id) := by
    unfold isScriptIdChecked
    rw [h.find?_eq]
    rfl
  unfold scriptOfChecked
  rw [member.scriptIdChecked_eq hscript]
  rfl

theorem tracks_ownerOf (e : Entry) :
    Tracks slots (ownerOfChecked slots e : Step (Fault ε) _) (ownerOf e) := by
  refine tracks_bind (tracks_lift (quiet_loadSome e)) fun result => ?_
  cases result with
  | none => exact tracks_pure none
  | some bytes =>
    dsimp only
    cases Decode.run Member.read bytes with
    | error cause => exact tracks_note_pure _ none
    | ok member =>
      refine mirrors_ite (tracks_pure none) ?_
      refine tracks_bind (tracks_consult (scriptOfChecked_eq e.id member)) fun script => ?_
      cases script with
      | none => exact tracks_note_pure _ none
      | some id => exact tracks_pure _

theorem tracks_ofEntry (archiveVersion : UInt32) (decodeText : Bool)
    (owners : List (Int32 × Owner)) (e : Entry) :
    Tracks slots (ofEntryChecked archiveVersion decodeText owners e : Step (Fault ε) _)
      (ofEntry archiveVersion decodeText owners e) := by
  have hdetected (owner : Option Owner) :
      (if decodeText then
        owner.elim (some none) fun o => ScriptInfo.detectChecked o.info archiveVersion
        else some none) =
      some (if decodeText then owner.bind fun o => ScriptInfo.detect? o.info archiveVersion
        else none) := by
    cases decodeText with
    | false => rfl
    | true =>
      cases owner with
      | none => rfl
      | some o => exact ScriptInfo.detectChecked_eq o.info archiveVersion
  refine tracks_bind (tracks_lift (quiet_loadSome e)) fun result => ?_
  cases result with
  | none => exact tracks_note_pure _ none
  | some bytes =>
    dsimp only
    rw [hdetected, inRange_some, pure_bind]
    exact tracks_bind (tracks_lift (Step.quiet_noteAll _)) fun _ => tracks_pure _

theorem tracks_collect (archiveVersion : UInt32) (decodeText : Bool) :
    Tracks slots (collectChecked slots archiveVersion decodeText : Step (Fault ε) _)
      (collect archiveVersion decodeText) := by
  refine tracks_get_bind fun s => ?_
  refine tracks_bind (tracks_each owners rfl (fun _ _ => rfl) tracks_ownerOf _) fun found => ?_
  refine tracks_get_bind fun t => ?_
  exact tracks_each (ofEntries archiveVersion decodeText found) rfl (fun _ _ => rfl)
    (tracks_ofEntry archiveVersion decodeText found) _

end ScriptEntry

def Payload.loadIdChecked {ε : Type} (slots : Slots) (id : Int32) :
    Step (Fault ε) (Option ByteArray) := do
  match ← consultChecked slots (·.find? id) with
  | some e => lift (load e)
  | none => return none

theorem Payload.tracks_loadId {ε : Type} {slots : Slots} (id : Int32) :
    Tracks slots (loadIdChecked slots id : Step (Fault ε) _) (loadId id) := by
  refine tracks_bind (tracks_consult fun s hs => hs.find?_eq id) fun found => ?_
  cases found with
  | none => exact tracks_pure none
  | some e => exact tracks_lift (quiet_load e)

namespace Scope

variable {ε : Type} {slots : Slots}

def readNamesChecked (slots : Slots) (id : Int32) : Step (Fault ε) (Option NameTable) := do
  match ← Payload.loadIdChecked slots id with
  | none => return none
  | some bytes => match Decode.run NameTable.read bytes with
    | .ok names => return some names
    | .error cause =>
      lift (Step.note (.namesUnreadable id cause))
      return none

def namesIdChecked (index : ScriptIndex) (s : Slotted) : Option (Option Int32) := do
  match (← s.find? index.namesId).filter (·.tag == .names) with
  | some e => return some e.id
  | none => return (s.container.firstWithTag? .names).map (·.id)

def namesForChecked (slots : Slots) (index : ScriptIndex) : Step (Fault ε) NameTable := do
  match ← consultChecked slots (namesIdChecked index) with
  | none => return {}
  | some id => return (← readNamesChecked slots id).getD {}

def ofEntryChecked (slots : Slots) (e : Entry) : Step (Fault ε) (Option Scope) := do
  match ← lift (Payload.load e) with
  | none => return none
  | some bytes => match Decode.run ScriptIndex.read bytes with
    | .error cause =>
      lift (Step.note (.indexUnreadable e.tag e.id cause))
      return none
    | .ok index =>
      lift (Step.noteAll index.notes)
      return some (.ofTables (← namesForChecked slots index) (some index) (e.tag == .contextX))

def ofNamesAloneChecked (slots : Slots) : Step (Fault ε) (List Scope) := do
  match (← get).resources.firstWithTag? .names with
  | none => return []
  | some e => match ← readNamesChecked slots e.id with
    | none => return []
    | some names =>
      lift (Step.note (.namesAlone e.id))
      return [.ofTables names none false]

def collectChecked (slots : Slots) : Step (Fault ε) (List Scope) := do
  let isIndex (e : Entry) : Bool := e.tag == .context || e.tag == .contextX
  match ← eachChecked (ofEntryChecked slots) ((← get).resources.entries.filter isIndex) with
  | [] => ofNamesAloneChecked slots
  | scopes => return scopes

theorem tracks_readNames (id : Int32) :
    Tracks slots (readNamesChecked slots id : Step (Fault ε) _) (readNames id) := by
  refine tracks_bind (Payload.tracks_loadId id) fun result => ?_
  cases result with
  | none => exact tracks_pure none
  | some bytes =>
    dsimp only
    cases Decode.run NameTable.read bytes with
    | ok names => exact tracks_pure _
    | error cause => exact tracks_note_pure _ none

theorem namesIdChecked_eq (index : ScriptIndex) (s : Slotted) (h : s.Aligned) :
    namesIdChecked index s = some (namesId? s.container index) := by
  unfold namesIdChecked namesId?
  rw [h.find?_eq, Option.bind_eq_bind, Option.bind_some]
  cases (s.container.find? index.namesId).filter (·.tag == .names) <;> rfl

theorem tracks_namesFor (index : ScriptIndex) :
    Tracks slots (namesForChecked slots index : Step (Fault ε) _) (namesFor index) := by
  refine tracks_bind (tracks_consult (namesIdChecked_eq index)) fun found => ?_
  cases found with
  | none => exact tracks_pure _
  | some id => exact tracks_bind (tracks_readNames id) fun _ => tracks_pure _

theorem tracks_ofEntry (e : Entry) :
    Tracks slots (ofEntryChecked slots e : Step (Fault ε) _) (ofEntry e) := by
  refine tracks_bind (tracks_lift (Payload.quiet_load e)) fun result => ?_
  cases result with
  | none => exact tracks_pure none
  | some bytes =>
    dsimp only
    cases Decode.run ScriptIndex.read bytes with
    | error cause => exact tracks_note_pure _ none
    | ok index =>
      refine tracks_bind (tracks_lift (Step.quiet_noteAll _)) fun _ => ?_
      exact tracks_bind (tracks_namesFor index) fun _ => tracks_pure _

theorem tracks_ofNamesAlone :
    Tracks slots (ofNamesAloneChecked slots : Step (Fault ε) _) ofNamesAlone := by
  refine tracks_get_bind fun s => ?_
  cases s.resources.firstWithTag? .names with
  | none => exact tracks_pure []
  | some e =>
    refine tracks_bind (tracks_readNames e.id) fun result => ?_
    cases result with
    | none => exact tracks_pure []
    | some names => exact tracks_note_pure _ _

theorem tracks_collect : Tracks slots (collectChecked slots : Step (Fault ε) _) collect := by
  refine tracks_get_bind fun s => ?_
  refine tracks_bind (tracks_each ofEntries rfl (fun _ _ => rfl) tracks_ofEntry _) fun scopes => ?_
  cases scopes with
  | nil => exact tracks_ofNamesAlone
  | cons scope rest => exact tracks_pure _

end Scope

namespace Step

variable {ε α β : Type}

def Sparing (step : Step ε α) : Prop := ∀ s a t, step s = .ok a t → t.resources = s.resources

theorem sparing_of_quiet {step : Step ε α} (h : Quiet step) : Sparing step := by
  intro s a t ht
  obtain ⟨pos, notes, rfl⟩ := keeping_of_quiet h s a t ht
  rfl

theorem sparing_readOr (failure : ReadError → ε) (read : Decode α) :
    Sparing (readOr failure read) := by
  intro s a t ht
  obtain ⟨d, -, rfl⟩ := exists_of_readOr_ok ht
  rfl

theorem sparing_bind {step : Step ε α} {rest : α → Step ε β} (hstep : Sparing step)
    (hrest : ∀ a, Sparing (rest a)) : Sparing (step >>= rest) := by
  intro s b u h
  obtain ⟨a, t, ht, hu⟩ := exists_of_bind_ok h
  rw [hrest a t b u hu, hstep s a t ht]

end Step

theorem sparing_readBlock (offset : Nat) : Step.Sparing (readBlock offset) := by
  refine Step.sparing_bind (Step.sparing_readOr _ _) fun _ => ?_
  refine Step.sparing_bind (Step.sparing_readOr _ _) fun magic => ?_
  cases magicOrder? (octets magic) with
  | none =>
    intro s a t h
    cases h
  | some order =>
    refine Step.sparing_bind (Step.sparing_readOr _ _) fun _ => ?_
    refine Step.sparing_bind (Step.sparing_readOr _ _) fun _ => ?_
    refine Step.sparing_bind (Step.sparing_readOr _ _) fun declaredSize => ?_
    refine Step.sparing_bind (Step.sparing_readOr _ _) fun codec => Step.sparing_of_quiet ?_
    have hend : Step.Quiet (do
        return { declaredSize, start := (← get).cursor.pos, format := { codecTag := codec, order } } :
        Step OpenError Block) :=
      Step.quiet_bind Step.quiet_get fun _ => Step.quiet_pure _
    dsimp only
    split
    · exact Step.quiet_bind (Step.quiet_note _) fun _ => hend
    · exact hend

namespace Movie

variable {α : Type}

def orFailChecked (step : Step (Fault OpenError) α) : Step (Fault Halt) α :=
  step.adaptExcept fun
    | .failed cause => .failed (.failed cause)
    | .outOfRange => .outOfRange

def readRestChecked (slots : Slots) (options : Options) (offset : Nat) (fileName : String)
    (block : Block) : Step (Fault Halt) Movie := do
  let resources := (← get).resources.entries
  lift (Step.note
    (.movieMapped fileName block.format.label block.format.archiveVersion resources.length))
  let scripts ← ScriptEntry.collectChecked slots block.format.archiveVersion options.decodeText
  let scopes ← Scope.collectChecked slots
  let s ← get
  return { fileName, offset, block, resources := s.resources.entries, links := s.resources.links,
           compressions := s.compressions.descriptors, archive := s.archive, scripts, scopes,
           lineEnding := options.lineEnding }

/-- Reads on from the header of the container. The map of an archive is read without checks. -/
def readOnChecked (options : Options) (offset : Nat) (header : Block) :
    Step (Fault Halt) Movie := do
  if header.format.codec.isArchive then lift (readOn options offset header)
  else
    let fileName := (← get).fileName
    lift (Step.note
      (.containerFound fileName offset header.format.codecTag header.declaredSize))
    let (slots, block) ← ClassicMap.readChecked header
    readRestChecked slots options offset fileName block

def readFromChecked (options : Options) : Step (Fault Halt) Movie := do
  modify Session.reset
  let offset ← orFailChecked (locateChecked options.search)
  modify fun s => { s with offset }
  let header ← lift (orFail (readBlock offset))
  readOnChecked options offset header

/-- Reads the movie in a stream, with all checks that a classic movie needs. -/
def readChecked (fileName : String) (data : ByteArray) (options : Options) :
    Except (Fault Halt) Movie :=
  match readFromChecked options (.ofBytes fileName data) with
  | .ok movie _ => .ok movie
  | .error fault _ => .error fault

theorem tracks_readRest {slots : Slots} (options : Options) (offset : Nat) (fileName : String)
    (block : Block) :
    Tracks slots (readRestChecked slots options offset fileName block)
      (readRest options offset fileName block) := by
  refine tracks_get_bind fun s => ?_
  refine tracks_bind (tracks_lift (Step.quiet_note _)) fun _ => ?_
  refine tracks_bind (ScriptEntry.tracks_collect _ _) fun scripts => ?_
  refine tracks_bind Scope.tracks_collect fun scopes => ?_
  exact tracks_get_bind fun t => tracks_pure _

theorem readOnChecked_eq (options : Options) (offset : Nat) (header : Block) {s : Session}
    (h : s.resources = {}) :
    readOnChecked options offset header s = lift (readOn options offset header) s := by
  unfold readOnChecked
  cases harchive : header.format.codec.isArchive with
  | true => rfl
  | false =>
    let note : Note :=
      .containerFound s.fileName offset header.format.codecTag header.declaredSize
    let noted := s.noting [note]
    have hnote : (lift (Step.note note) : Step (Fault Halt) Unit) s = .ok () noted := rfl
    obtain ⟨slots, map, block, t, hchecked, hplain, haligned⟩ :=
      ClassicMap.readChecked_eq (ε := Halt) header (s := noted) h
    have hmap : readMap header noted = .ok block t := by
      unfold readMap
      rw [if_neg (by simp [harchive]), bind_ok hplain]
      rfl
    have hon : readOn options offset header s = readRest options offset s.fileName block t :=
      bind_ok hmap
    rw [if_neg (by simp), get_bind, bind_ok hnote, bind_ok hchecked]
    dsimp only
    rw [(tracks_readRest options offset s.fileName block t haligned).1]
    unfold lift EStateM.adaptExcept
    rw [hon]

theorem orFailChecked_lift (step : Step OpenError α) :
    orFailChecked (lift step) = lift (orFail step) := by
  funext s
  unfold orFailChecked lift orFail EStateM.adaptExcept
  cases step s <;> rfl

theorem of_orFail_ok {step : Step OpenError α} {s t : Session} {a : α}
    (h : orFail step s = .ok a t) : step s = .ok a t := by
  unfold orFail EStateM.adaptExcept at h
  cases hs : step s with
  | ok b u =>
    rw [hs] at h
    cases h
    rfl
  | error e u =>
    rw [hs] at h
    cases h

theorem readFromChecked_eq (options : Options) (s : Session) :
    readFromChecked options s = lift (readFrom options) s := by
  have hlocate : orFailChecked (locateChecked options.search) =
      lift (orFail (locate options.search)) := by
    rw [locateChecked_eq, orFailChecked_lift]
  rw [readFrom_eq_steps]
  refine bind_eq_lift rfl fun _ _ hreset => ?_
  cases hreset
  refine bind_eq_lift (congrFun hlocate s.reset) fun offset t hfound => ?_
  refine bind_eq_lift rfl fun _ _ hoffset => ?_
  cases hoffset
  refine lift_bind_of fun header u hblock => readOnChecked_eq options offset header ?_
  obtain ⟨pos, notes, rfl⟩ := keeping_locate _ _ _ _ (of_orFail_ok hfound)
  exact sparing_readBlock offset _ _ _ (of_orFail_ok hblock)

/-- No check fails, whatever the stream holds. -/
theorem readChecked_eq (fileName : String) (data : ByteArray) (options : Options) :
    readChecked fileName data options = (read fileName data options).mapError .failed := by
  unfold readChecked read
  rw [readFromChecked_eq]
  cases hread : readFrom options (.ofBytes fileName data) with
  | ok movie t =>
    rw [lift_ok hread]
    rfl
  | error halt t =>
    rw [lift_error hread]
    rfl

end Movie
end Shockwave
