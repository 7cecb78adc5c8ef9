import Shockwave.Movie.Read
import Shockwave.Proofs.CodeSpans
import Shockwave.Proofs.Ranges

/-!
The reading and the translation of a script with every difference, index, slice and quotient checked.
The bytes of a script can be any, yet no check ever fails: the code of a handler is only read from its
start on, numbers are made of as many bytes as were read, and the machine takes no more from its stack
than is there.
-/
namespace Shockwave

open Checked

theorem Decode.length_of_bytes_ok {n : Nat} {c d : Cursor} {raw : ByteArray}
    (h : Decode.bytes n c = .ok raw d) : (octets raw).length = n := by
  obtain ⟨-, ⟨-, hsize, -⟩, -⟩ := (spans_bytes n).of_ok rfl h
  rw [length_octets, hsize]

namespace Instruction

def readChecked (start : Nat) : EStateM (Fault ReadError) Cursor Instruction := do
  let pos ← inRange (minus? (← lift Decode.pos) start)
  lift (readAt pos)

def readUntilChecked (start stop : Nat) :
    Nat → EStateM (Fault ReadError) Cursor (List Instruction)
  | 0 => return []
  | count + 1 => do
    if stop ≤ (← lift Decode.pos) then return []
    let first ← readChecked start
    return first :: (← readUntilChecked start stop count)

def readSpanChecked (offset length : Nat) :
    EStateM (Fault ReadError) Cursor (List Instruction) := do
  lift (Decode.seek offset)
  lift (Decode.require length)
  readUntilChecked offset (offset + length) length

theorem mirrors_read (start : Nat) :
    Mirrors (start ≤ ·.pos) (fun _ c => start ≤ c.pos) (readChecked start) (read start) := by
  intro c hc
  constructor
  · have hdistance : minus? c.pos start = some (c.pos - start) := minus?_eq hc
    have hchecked : readChecked start c =
        (inRange (minus? c.pos start) >>= fun pos => lift (readAt pos)) c := rfl
    rw [hchecked, hdistance]
    rfl
  · intro i d hread
    obtain ⟨next, hstands, hplace⟩ := (spans_read start).of_ok rfl hread
    have hnext := hstands.next_eq
    have hpos : d.pos = next := congrArg Cursor.pos hplace
    omega

theorem mirrors_readUntil (start stop count : Nat) :
    Mirrors (start ≤ ·.pos) (fun _ c => start ≤ c.pos) (readUntilChecked start stop count)
      (readUntil start stop count) := by
  induction count with
  | zero => exact mirrors_pure fun _ h => h
  | succ count ih =>
    have hpos : Mirrors (start ≤ ·.pos) (fun _ c => start ≤ c.pos) (lift Decode.pos) Decode.pos := by
      refine mirrors_lift fun c a d hc hd => ?_
      cases hd
      exact hc
    refine mirrors_bind hpos fun pos => ?_
    refine mirrors_ite (mirrors_pure fun _ h => h) ?_
    refine mirrors_bind (mirrors_read start) fun first => ?_
    exact mirrors_bind ih fun rest => mirrors_pure fun _ h => h

theorem readSpanChecked_eq (offset length : Nat) :
    readSpanChecked offset length = lift (readSpan offset length) := by
  funext c
  refine lift_bind_of fun _ d hseek => lift_bind_of fun _ e hrequire => ?_
  obtain ⟨stop, ⟨-, rfl⟩, hd⟩ := (Decode.spans_seek offset).of_ok rfl hseek
  obtain ⟨stop, ⟨-, rfl⟩, he⟩ := (Decode.spans_require length).of_ok hd hrequire
  have hpos : e.pos = stop := congrArg Cursor.pos he
  exact (mirrors_readUntil stop (stop + length) length e (Nat.le_of_eq hpos.symm)).1

end Instruction

def HandlerRecord.readPartsChecked (r : HandlerRecord) :
    EStateM (Fault ReadError) Cursor Handler := do
  let code ← Instruction.readSpanChecked r.codeOffset.toNat r.codeLength.toNat
  let arguments ← lift (Decode.nameIds r.argumentCount.toNat r.argumentOffset.toNat)
  let locals ← lift (Decode.nameIds r.localCount.toNat r.localOffset.toNat)
  let globals ← lift (Decode.nameIds r.globalCount.toNat r.globalOffset.toNat)
  return { nameId := r.nameId, arguments, locals, globals, code }

theorem HandlerRecord.readPartsChecked_eq (r : HandlerRecord) :
    r.readPartsChecked = lift r.readParts := by
  unfold readPartsChecked readParts
  simp only [Instruction.readSpanChecked_eq, lift_bind, lift_pure]

def Binary64.ofExtendedChecked (bytes : List UInt8) : Option Binary64 := do
  let first ← bytes[0]?
  let second ← bytes[1]?
  let significand ← filling? 8 (← slice? 2 10 bytes)
  return .ofExtended (first :: second :: significand)

theorem Binary64.ofExtendedChecked_eq {bytes : List UInt8} (h : bytes.length = 10) :
    ofExtendedChecked bytes = some (.ofExtended bytes) := by
  obtain ⟨first, rest, rfl⟩ := List.exists_cons_of_length_eq_add_one h
  obtain ⟨second, significand, rfl⟩ := List.exists_cons_of_length_eq_add_one (Nat.succ.inj h)
  have hlength : significand.length = 8 := by simpa using h
  have hslice : slice? 2 10 (first :: second :: significand) = some significand := by
    simp [slice?, hlength, List.take_of_length_le]
  simp [ofExtendedChecked, hslice, filling?_eq hlength]

namespace LiteralRecord

def readFloatChecked (length : Nat) : EStateM (Fault ReadError) Cursor Binary64 := do
  if length = 8 then
    let raw ← lift (Decode.bytes 8)
    return ⟨UInt64.ofNat (ByteOrder.bigValue (← inRange (filling? 8 (octets raw))))⟩
  else if length = 10 then
    let raw ← lift (Decode.bytes 10)
    inRange (Binary64.ofExtendedChecked (octets raw))
  else return .zero

def readValueChecked (dataOffset : Nat) (r : LiteralRecord) :
    EStateM (Fault ReadError) Cursor Datum := do
  match r.kind? with
  | some .float =>
    lift (Decode.seek (further dataOffset r.offset.toNat))
    let length ← lift Decode.u32
    return .float (← readFloatChecked length.toNat)
  | _ => lift (readValue dataOffset r)

theorem readFloatChecked_eq (length : Nat) : readFloatChecked length = lift (readFloat length) := by
  unfold readFloatChecked readFloat
  split
  · funext c
    refine lift_bind_of fun raw d hread => ?_
    rw [filling?_eq (Decode.length_of_bytes_ok hread)]
    rfl
  · split
    · funext c
      refine lift_bind_of fun raw d hread => ?_
      rw [Binary64.ofExtendedChecked_eq (Decode.length_of_bytes_ok hread)]
      rfl
    · rfl

theorem readValueChecked_eq (dataOffset : Nat) (r : LiteralRecord) :
    r.readValueChecked dataOffset = lift (r.readValue dataOffset) := by
  unfold readValueChecked
  split
  next hkind =>
    unfold readValue
    rw [hkind]
    simp only [readFloatChecked_eq, lift_bind, lift_pure]
  next => rfl

end LiteralRecord

namespace Script

def readTableChecked {ρ α : Type} (extent : Nat × Nat) (record : Decode ρ)
    (part : ρ → EStateM (Fault ReadError) Cursor α) :
    EStateM (Fault ReadError) Cursor (List α) := do
  lift (Decode.seek extent.2)
  let records ← lift (Decode.times extent.1 record)
  records.mapM part

def readTablesChecked (version : Nat) (head : ScriptHead) :
    EStateM (Fault ReadError) Cursor Script := do
  let properties ← lift (Decode.nameIds head.properties.1 head.properties.2)
  let globals ← lift (Decode.nameIds head.globals.1 head.globals.2)
  let handlers ← readTableChecked head.handlers (HandlerRecord.read version)
    HandlerRecord.readPartsChecked
  let literals ← readTableChecked head.literals (LiteralRecord.read version)
    (LiteralRecord.readValueChecked head.dataOffset)
  return { number := head.number, parentNumber := head.parentNumber, flags := head.flags
           castId := head.castId, factoryNameId := head.factoryNameId, literals, handlers, properties
           globals }

def readChecked (version : Nat) : EStateM (Fault ReadError) Cursor Script := do
  readTablesChecked version (← lift readHead)

theorem readTableChecked_eq {ρ α : Type} (extent : Nat × Nat) (record : Decode ρ)
    {checked : ρ → EStateM (Fault ReadError) Cursor α} {part : ρ → Decode α}
    (h : ∀ r, checked r = lift (part r)) :
    readTableChecked extent record checked = lift (readTable extent record part) := by
  unfold readTableChecked readTable
  simp only [lift_mapM h, lift_bind]

theorem readChecked_eq (version : Nat) : readChecked version = lift (read version) := by
  unfold readChecked read readTablesChecked readTables
  simp only [readTableChecked_eq _ _ HandlerRecord.readPartsChecked_eq,
    readTableChecked_eq _ _ (LiteralRecord.readValueChecked_eq _), lift_bind, lift_pure]

end Script

namespace Frame

variable (f : Frame)

def slotChecked (operand : Int) : Option Nat :=
  quotient? (operand.toNat % 0x100000000) (max f.step 1)

theorem slotChecked_eq (operand : Int) : f.slotChecked operand = some (f.slot operand) :=
  quotient?_eq (by omega)

end Frame

namespace Machine

variable (m : Machine)

-- In the two operations that take from the stack by place, it grows at its end.

def swapChecked : Option Machine := do
  if 2 ≤ m.stack.length then
    let top ← minus? m.stack.length 1
    let below ← minus? m.stack.length 2
    let stack ← exchange? m.stack.reverse top below
    return { m with stack := stack.reverse }
  else return m

def gatherArgsChecked (count : Nat) (noReturn : Bool) : Option Machine := do
  let available := min count m.stack.length
  let noted := if available < count then m.note (.argumentsShort count available) else m
  let parts ← splitOff? m.stack.reverse (← minus? m.stack.length available)
  return { noted with stack := parts.1.reverse }.push (.args parts.2 noReturn)

/-- Runs one instruction. Those left to the plain machine divide nothing and take from the top of the
stack alone. -/
def runChecked (f : Frame) (isLast : Bool) (i : Instruction) (m : Machine) : Option Machine :=
  match i.opcode? with
  | some .swap => m.swapChecked
  | some .pushArgListNoRet => m.gatherArgsChecked i.operand.toNat true
  | some .pushArgList => m.gatherArgsChecked i.operand.toNat false
  | some .pushCons => do return m.pushLiteral f.script.literals (← f.slotChecked i.operand)
  | some .getParam => do return m.push (.var (f.argumentAt (← f.slotChecked i.operand)))
  | some .getLocal => do return m.push (.var (f.localAt (← f.slotChecked i.operand)))
  | some .setParam => do return m.assign (f.argumentAt (← f.slotChecked i.operand))
  | some .setLocal => do return m.assign (f.localAt (← f.slotChecked i.operand))
  | _ => some (run f isLast i m)

def stepChecked (f : Frame) (code : List Instruction) (m : Machine) (index : Nat) :
    Option Machine := do
  runChecked f (code.length ≤ index + 1) (← code[index]?) m

def runAllChecked (f : Frame) (code : List Instruction) (m : Machine) : Option Machine :=
  (List.range code.length).foldlM (stepChecked f code) m

theorem swapChecked_eq : m.swapChecked = some m.swap := by
  unfold swapChecked swap
  rcases m.stack with _ | ⟨a, _ | ⟨b, rest⟩⟩
  · rfl
  · rfl
  · have hreverse : (a :: b :: rest).reverse = rest.reverse ++ [b, a] := by simp
    have hexchange : exchange? (rest.reverse ++ [b, a]) (rest.length + 1) rest.length =
        some (rest.reverse ++ [a, b]) := by
      simp [exchange?]
    simp [minus?, hreverse, hexchange]

theorem splitOff?_stack (count : Nat) :
    splitOff? m.stack.reverse (m.stack.length - min count m.stack.length) =
      some ((m.stack.drop count).reverse, (m.stack.take count).reverse) := by
  unfold splitOff?
  rw [if_pos (by simp), ← List.reverse_drop, ← List.reverse_take]
  rcases Nat.le_total count m.stack.length with hfew | hmany
  · rw [Nat.min_eq_left hfew]
  · rw [Nat.min_eq_right hmany, List.drop_of_length_le hmany, List.take_of_length_le hmany,
      List.drop_length, List.take_length]

theorem gatherArgsChecked_eq (count : Nat) (noReturn : Bool) :
    m.gatherArgsChecked count noReturn = some (m.gatherArgs count noReturn) := by
  unfold gatherArgsChecked gatherArgs
  simp only [minus?_eq (Nat.min_le_right ..), splitOff?_stack, Option.bind_eq_bind,
    Option.bind_some, List.reverse_reverse]
  split <;> rfl

theorem runChecked_eq (f : Frame) (isLast : Bool) (i : Instruction) :
    runChecked f isLast i m = some (run f isLast i m) := by
  unfold runChecked
  split
  next hop => rw [swapChecked_eq, run, hop]
  next hop => rw [gatherArgsChecked_eq, run, hop]
  next hop => rw [gatherArgsChecked_eq, run, hop]
  next hop => rw [f.slotChecked_eq, run, hop]; rfl
  next hop => rw [f.slotChecked_eq, run, hop]; rfl
  next hop => rw [f.slotChecked_eq, run, hop]; rfl
  next hop => rw [f.slotChecked_eq, run, hop]; rfl
  next hop => rw [f.slotChecked_eq, run, hop]; rfl
  next => rfl

theorem foldlM_stepChecked (f : Frame) {code rest : List Instruction} {start : Nat}
    (h : code.drop start = rest) :
    (List.range' start rest.length).foldlM (stepChecked f code) m = some (runAll f rest m) := by
  induction rest generalizing start m with
  | nil => rfl
  | cons i rest ih =>
    have hlength := congrArg List.length h
    rw [List.length_drop, List.length_cons] at hlength
    have hindex : code[start]? = some i := by rw [← List.head?_drop, h, List.head?_cons]
    have hlast : decide (code.length ≤ start + 1) = rest.isEmpty := by
      rw [Bool.eq_iff_iff, decide_eq_true_iff, List.isEmpty_iff, ← List.length_eq_zero_iff]
      omega
    have hrest : code.drop (start + 1) = rest := by rw [← List.tail_drop, h, List.tail_cons]
    have hstep : stepChecked f code m start = some (run f rest.isEmpty i m) := by
      unfold stepChecked
      rw [hindex, Option.bind_eq_bind, Option.bind_some, hlast, runChecked_eq]
    rw [List.length_cons, List.range'_succ, List.foldlM_cons, hstep]
    exact ih _ hrest

theorem runAllChecked_eq (f : Frame) (code : List Instruction) :
    runAllChecked f code m = some (runAll f code m) := by
  unfold runAllChecked
  rw [List.range_eq_range']
  exact foldlM_stepChecked m f List.drop_zero

end Machine

def Routine.ofHandlerChecked (handler : Handler) (script : Script) (scope : Scope) (step : Nat) :
    Option Routine := do
  return ofMachine handler scope
    (← Machine.runAllChecked { handler, script, scope, step } handler.code {})

namespace Script

variable (script : Script) (scope : Scope) (version : Nat)

def routinesChecked : Option (List Routine) :=
  script.handlers.mapM fun handler =>
    Routine.ofHandlerChecked handler script scope (variableStep scope.capitalX version)

def sourceChecked (ending : String) : Option String := do
  return render ending (script.layOut scope (← script.routinesChecked scope version))

theorem routinesChecked_eq :
    script.routinesChecked scope version = some (script.routines scope version) := by
  have hroutine (handler : Handler) (step : Nat) :
      Routine.ofHandlerChecked handler script scope step =
        some (.ofHandler handler script scope step) := by
    unfold Routine.ofHandlerChecked
    rw [Machine.runAllChecked_eq]
    rfl
  unfold routinesChecked routines
  simp only [hroutine]
  exact List.mapM_pure ..

theorem sourceChecked_eq (ending : String) :
    script.sourceChecked scope version ending = some (script.source scope version ending) := by
  unfold sourceChecked
  rw [routinesChecked_eq]
  rfl

end Script

namespace Movie

variable (movie : Movie) (script : ScriptEntry)

/-- The source text of a script, if its bytes can be read, unless a check fails on the way. -/
def sourceChecked : Option (Option String) :=
  let scope := (movie.scopeFor? script.id).getD {}
  match Script.readChecked movie.lingoVersion { data := script.bytes } with
  | .ok compiled _ =>
    some <$> compiled.sourceChecked scope movie.lingoVersion movie.lineEnding.text
  | .error (.failed _) _ => some none
  | .error .outOfRange _ => none

theorem sourceChecked_eq : movie.sourceChecked script = some (movie.source? script) := by
  unfold sourceChecked source? compiled Decode.run
  rw [Script.readChecked_eq]
  cases hread : Script.read movie.lingoVersion { data := script.bytes } with
  | ok compiled d =>
    rw [lift_ok hread]
    simp only [Script.sourceChecked_eq]
    rfl
  | error e d => rw [lift_error hread]

end Movie
end Shockwave
