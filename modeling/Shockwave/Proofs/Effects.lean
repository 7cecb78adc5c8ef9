import Shockwave.Lingo.Decompile

/-!
What an instruction does to the stack of expressions and to the statements. Many codes share one
effect, and no effect depends on the statements or notes that are there already.
-/
namespace Shockwave

inductive Effect where
  | nothing
  | close
  | push (value : Datum)
  | constant (pool : List Datum) (index : Nat)
  | load (name : String)
  | binary (op : Opcode)
  | unary (op : Opcode)
  | swap
  | drop (count : Nat)
  | args (count : Nat) (noReturn : Bool)
  | chunk
  | list (i : Instruction)
  | assign (name : String)
  | call (name : String)
  | giveUp (i : Instruction)

def Effect.apply : Effect → Machine → Machine
  | .nothing, m => m
  | .close, m => m.emit .ret
  | .push value, m => m.push (.literal value)
  | .constant pool index, m => m.pushLiteral pool index
  | .load name, m => m.push (.var name)
  | .binary op, m => m.binary op
  | .unary op, m => m.unary op
  | .swap, m => m.swap
  | .drop count, m => { m with stack := m.stack.drop count }
  | .args count noReturn, m => m.gatherArgs count noReturn
  | .chunk, m => m.chunk
  | .list i, m => m.pushList i
  | .assign name, m => m.assign name
  | .call name, m => m.call name
  | .giveUp i, m => m.skipOver i

def Opcode.effect (f : Frame) (isLast : Bool) (i : Instruction) : Opcode → Effect
  | .ret | .retFactory => if isLast then .nothing else .close
  | .pushZero => .push (.int 0)
  | .inv => .unary .inv
  | .not => .unary .not
  | .getChunk => .chunk
  | .pushList => .list i
  | .swap => .swap
  | .pushInt8 | .pushInt16 | .pushInt32 => .push (.int (Int32.ofInt i.operand))
  | .pushFloat32 => .push (.float (.ofSingle (i.operand % 0x100000000).toNat))
  | .pushArgListNoRet => .args i.operand.toNat true
  | .pushArgList => .args i.operand.toNat false
  | .pushCons => .constant f.script.literals (f.slot i.operand)
  | .pushSymb => .push (.symbol (f.name i.operand))
  | .pushVarRef => .push (.varRef (f.name i.operand))
  | .getGlobal | .getGlobal2 | .getProp | .getTopLevelProp => .load (f.name i.operand)
  | .getParam => .load (f.argumentName i.operand)
  | .getLocal => .load (f.localName i.operand)
  | .getMovieProp => .load ("the " ++ f.name i.operand)
  | .setGlobal | .setGlobal2 | .setProp => .assign (f.name i.operand)
  | .setParam => .assign (f.argumentName i.operand)
  | .setLocal => .assign (f.localName i.operand)
  | .setMovieProp => .assign ("the " ++ f.name i.operand)
  | .localCall => .call (f.handlerName i.operand)
  | .extCall | .tellCall => .call (f.name i.operand)
  | .pop => .drop i.operand.toNat
  | op => if op.isBinary then .binary op else .giveUp i

def Instruction.effect (f : Frame) (isLast : Bool) (i : Instruction) : Effect :=
  i.opcode?.elim (.giveUp i) (Opcode.effect f isLast i)

namespace Machine

variable (m : Machine) (f : Frame) (isLast : Bool)

theorem run_eq_apply (i : Instruction) : run f isLast i m = (i.effect f isLast).apply m := by
  unfold run Instruction.effect
  cases i.opcode? with
  | none => rfl
  | some op => cases op <;> cases isLast <;> rfl

@[simp] theorem stack_push (node : Node) : (m.push node).stack = node :: m.stack := rfl

@[simp] theorem statements_push (node : Node) : (m.push node).statements = m.statements := rfl

@[simp] theorem stack_pop : m.pop.stack = m.stack.tail := rfl

@[simp] theorem statements_pop : m.pop.statements = m.statements := rfl

@[simp] theorem stack_emit (node : Node) : (m.emit node).stack = m.stack := rfl

@[simp] theorem statements_emit (node : Node) :
    (m.emit node).statements = m.statements ++ [node] := rfl

@[simp] theorem stack_note (n : Note) : (m.note n).stack = m.stack := rfl

@[simp] theorem statements_note (n : Note) : (m.note n).statements = m.statements := rfl

@[simp] theorem stack_skipOver (i : Instruction) : (m.skipOver i).stack = [] := rfl

@[simp] theorem statements_skipOver (i : Instruction) :
    (m.skipOver i).statements = m.statements ++ [.unknown i.op i.operand] := rfl

@[simp] theorem stack_pushLiteral (literals : List Datum) (index : Nat) :
    (m.pushLiteral literals index).stack =
      .literal (literals[index]?.getD .void) :: m.stack := by
  unfold pushLiteral
  cases literals[index]? <;> rfl

@[simp] theorem statements_pushLiteral (literals : List Datum) (index : Nat) :
    (m.pushLiteral literals index).statements = m.statements := by
  unfold pushLiteral
  cases literals[index]? <;> rfl

@[simp] theorem stack_gatherArgs (count : Nat) (noReturn : Bool) :
    (m.gatherArgs count noReturn).stack =
      .args (m.stack.take count).reverse noReturn :: m.stack.drop count := by
  simp only [gatherArgs, stack_push]
  split <;> rfl

@[simp] theorem statements_gatherArgs (count : Nat) (noReturn : Bool) :
    (m.gatherArgs count noReturn).statements = m.statements := by
  simp only [gatherArgs, statements_push]
  split <;> rfl

@[simp] theorem statements_swap : m.swap.statements = m.statements := by
  unfold swap
  split <;> rfl

/-- The second machine has the stack of the first, and its statements behind some others. -/
structure Continues (sofar : List Node) (m m' : Machine) : Prop where
  stack_eq : m'.stack = m.stack
  statements_eq : m'.statements = sofar ++ m.statements

namespace Continues

variable {sofar : List Node} {m m' : Machine}

theorem top_eq (h : Continues sofar m m') : m'.top = m.top := by
  rw [top, top, h.stack_eq]

theorem emit (h : Continues sofar m m') (node : Node) :
    Continues sofar (m.emit node) (m'.emit node) :=
  ⟨h.stack_eq, by simp [h.statements_eq]⟩

theorem pop (h : Continues sofar m m') : Continues sofar m.pop m'.pop :=
  ⟨by simp [h.stack_eq], h.statements_eq⟩

theorem push (h : Continues sofar m m') (node : Node) :
    Continues sofar (m.push node) (m'.push node) :=
  ⟨by simp [h.stack_eq], h.statements_eq⟩

theorem skipOver (h : Continues sofar m m') (i : Instruction) :
    Continues sofar (m.skipOver i) (m'.skipOver i) :=
  ⟨rfl, by simp [h.statements_eq]⟩

theorem call (h : Continues sofar m m') (name : String) :
    Continues sofar (m.call name) (m'.call name) := by
  unfold Machine.call
  rw [h.top_eq]
  split
  · split
    · exact h.pop.emit _
    · exact h.pop.emit _
  · exact h.pop.push _

theorem pushList (h : Continues sofar m m') (i : Instruction) :
    Continues sofar (m.pushList i) (m'.pushList i) := by
  unfold Machine.pushList
  rw [h.top_eq]
  split
  · exact h.pop.push _
  · exact h.pop.skipOver i

theorem apply (h : Continues sofar m m') (e : Effect) :
    Continues sofar (e.apply m) (e.apply m') := by
  cases e with
  | nothing => exact h
  | close => exact h.emit .ret
  | push value => exact h.push (.literal value)
  | constant pool index =>
    exact ⟨by simp [Effect.apply, h.stack_eq], by simp [Effect.apply, h.statements_eq]⟩
  | load name => exact h.push (.var name)
  | binary op =>
    simp only [Effect.apply, Machine.binary, h.top_eq, h.pop.top_eq]
    exact h.pop.pop.push _
  | unary op =>
    simp only [Effect.apply, Machine.unary, h.top_eq]
    exact h.pop.push _
  | swap =>
    refine ⟨?_, by simp [Effect.apply, h.statements_eq]⟩
    simp only [Effect.apply, Machine.swap, h.stack_eq]
    split
    · rfl
    · exact h.stack_eq
  | drop count => exact ⟨by simp [Effect.apply, h.stack_eq], h.statements_eq⟩
  | args count noReturn =>
    exact ⟨by simp [Effect.apply, h.stack_eq], by simp [Effect.apply, h.statements_eq]⟩
  | chunk =>
    refine ⟨?_, h.statements_eq⟩
    simp only [Effect.apply, Machine.chunk, stack_push, h.stack_eq, h.top_eq]
  | list i => exact h.pushList i
  | assign name =>
    simp only [Effect.apply, Machine.assign, h.top_eq]
    exact h.pop.emit _
  | call name => exact h.call name
  | giveUp i => exact h.skipOver i

/-- What was written earlier has no bearing on what follows. -/
theorem runAll (h : Continues sofar m m') (f : Frame) (code : List Instruction) :
    Continues sofar (Machine.runAll f code m) (Machine.runAll f code m') := by
  induction code generalizing m m' with
  | nil => exact h
  | cons i rest ih =>
    simp only [Machine.runAll, run_eq_apply]
    exact ih (h.apply _)

end Continues
end Machine

namespace Frame

def statements (f : Frame) (code : List Instruction) : List Node :=
  (Routine.ofHandler { f.handler with code } f.script f.scope f.step).statements

theorem statements_eq (f : Frame) (code : List Instruction) :
    f.statements code = (Machine.runAll f code {}).statements := by
  have hcode (rest : List Instruction) (m : Machine) :
      Machine.runAll { f with handler := { f.handler with code } } rest m =
        Machine.runAll f rest m := by
    induction rest generalizing m with
    | nil => rfl
    | cons i rest ih => exact ih _
  rw [← hcode]
  rfl

end Frame
end Shockwave
