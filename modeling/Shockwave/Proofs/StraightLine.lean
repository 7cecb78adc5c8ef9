import Shockwave.Proofs.Effects

/-!
Straight-line code keeps its meaning. A machine runs the code on values, with the variables in a
store by name; the statements written for the code are executed on such a store as well. Where each
assignment takes the last value off the stack, both end with the same store.
-/
namespace Shockwave

/-- The values of the script language, and what the operators do with them. -/
structure Interpretation (V : Type) where
  literal : Datum → V
  binary : Opcode → V → V → V
  unary : Opcode → V → V

abbrev Store (V : Type) := String → V

def Store.set {V : Type} (store : Store V) (name : String) (value : V) : Store V :=
  fun other => if other = name then value else store other

namespace Node

variable {V : Type} (sem : Interpretation V)

def value? (store : Store V) : Node → Option V
  | .literal value => some (sem.literal value)
  | .var name => some (store name)
  | .binary op left right =>
    (left.value? store).bind fun l => (right.value? store).map fun r => sem.binary op l r
  | .unary op operand => (operand.value? store).map (sem.unary op)
  | _ => none

def execute? (store : Store V) : Node → Option (Store V)
  | .assign (.var name) value => (value.value? sem store).map (store.set name)
  | _ => none

def executeAll? (statements : List Node) (store : Store V) : Option (Store V) :=
  statements.foldlM (execute? sem) store

end Node

inductive Action where
  | push (value : Datum)
  | constant (pool : List Datum) (index : Nat)
  | load (name : String)
  | binary (op : Opcode)
  | unary (op : Opcode)
  | swap
  | drop (count : Nat)
  | assign (name : String)

def plainIndex (step : Nat) (operand : Int) : Nat := operand.toNat / step

/-- The index of an operand that is cut to a word first. A distance of zero counts as one. -/
def wordIndex (step : Nat) (operand : Int) : Nat := operand.toNat % 0x100000000 / max step 1

namespace Frame

variable (f : Frame)

def action? (index : Int → Nat) (i : Instruction) : Option Action :=
  match i.opcode? with
  | some .pushZero => some (.push (.int 0))
  | some .pushInt8 | some .pushInt16 | some .pushInt32 =>
    some (.push (.int (Int32.ofInt i.operand)))
  | some .pushCons => some (.constant f.script.literals (index i.operand))
  | some .pushSymb => some (.push (.symbol (f.name i.operand)))
  | some .getGlobal | some .getGlobal2 | some .getProp | some .getTopLevelProp =>
    some (.load (f.name i.operand))
  | some .getParam => some (.load (f.argumentAt (index i.operand)))
  | some .getLocal => some (.load (f.localAt (index i.operand)))
  | some .getMovieProp => some (.load ("the " ++ f.name i.operand))
  | some .setGlobal | some .setGlobal2 | some .setProp => some (.assign (f.name i.operand))
  | some .setParam => some (.assign (f.argumentAt (index i.operand)))
  | some .setLocal => some (.assign (f.localAt (index i.operand)))
  | some .setMovieProp => some (.assign ("the " ++ f.name i.operand))
  | some .inv => some (.unary .inv)
  | some .not => some (.unary .not)
  | some .swap => some .swap
  | some .pop => some (.drop i.operand.toNat)
  | some op => if op.isBinary then some (.binary op) else none
  | none => none

end Frame

structure Run (V : Type) where
  stack : List V := []
  store : Store V

namespace Action

variable {V : Type} (sem : Interpretation V)

/-- Carries out an action; a value that is missing from the stack counts as void. -/
def run (r : Run V) : Action → Run V
  | .push value => { r with stack := sem.literal value :: r.stack }
  | .constant pool index =>
    { r with stack := sem.literal (pool[index]?.getD .void) :: r.stack }
  | .load name => { r with stack := r.store name :: r.stack }
  | .binary op =>
    let right := r.stack.headD (sem.literal .void)
    let left := r.stack.tail.headD (sem.literal .void)
    { r with stack := sem.binary op left right :: r.stack.tail.tail }
  | .unary op =>
    { r with stack := sem.unary op (r.stack.headD (sem.literal .void)) :: r.stack.tail }
  | .swap => match r.stack with
    | a :: b :: rest => { r with stack := b :: a :: rest }
    | _ => r
  | .drop count => { r with stack := r.stack.drop count }
  | .assign name =>
    { stack := r.stack.tail
      store := r.store.set name (r.stack.headD (sem.literal .void)) }

def runAll (actions : List Action) (r : Run V) : Run V := actions.foldl (run sem) r

def isAssign : Action → Bool
  | .assign _ => true
  | _ => false

/-- Each assignment of the run finds at most one value on the stack. -/
def AssignsLast : List Action → Run V → Prop
  | [], _ => True
  | a :: rest, r => (a.isAssign → r.stack.length ≤ 1) ∧ AssignsLast rest (a.run sem r)

def effect : Action → Effect
  | .push value => .push value
  | .constant pool index => .constant pool index
  | .load name => .load name
  | .binary op => .binary op
  | .unary op => .unary op
  | .swap => .swap
  | .drop count => .drop count
  | .assign name => .assign name

theorem effect_of_action? {f : Frame} {i : Instruction} {a : Action}
    (h : f.action? (wordIndex f.step) i = some a) (isLast : Bool) :
    i.effect f isLast = a.effect := by
  unfold Frame.action? at h
  unfold Instruction.effect
  cases hop : i.opcode? with
  | none =>
    rw [hop] at h
    cases h
  | some op =>
    rw [hop] at h
    cases op <;> cases h <;> rfl

end Action

section

variable {V : Type} {sem : Interpretation V}

def Values (sem : Interpretation V) (store : Store V) (nodes : List Node) (values : List V) :
    Prop :=
  nodes.map (Node.value? sem store) = values.map some

namespace Values

variable {store : Store V} {nodes : List Node} {values : List V}

theorem nil : Values sem store [] [] := rfl

theorem cons {node : Node} {value : V} (hnode : node.value? sem store = some value)
    (h : Values sem store nodes values) : Values sem store (node :: nodes) (value :: values) := by
  simpa [Values, hnode] using h

theorem drop (h : Values sem store nodes values) (count : Nat) :
    Values sem store (nodes.drop count) (values.drop count) := by
  rw [Values, List.map_drop, List.map_drop, h]

theorem tail (h : Values sem store nodes values) : Values sem store nodes.tail values.tail := by
  simpa using h.drop 1

theorem head (h : Values sem store nodes values) :
    (nodes.headD (.literal .void)).value? sem store =
      some (values.headD (sem.literal .void)) := by
  cases nodes <;> cases values <;> simp_all [Values, Node.value?]

theorem length_eq (h : Values sem store nodes values) : nodes.length = values.length := by
  simpa using congrArg List.length h

end Values

/-- The machine on expressions stands where the machine on values does: its statements lead to the
store there, in which its expressions have the values on the stack there. -/
structure Agrees (sem : Interpretation V) (store : Store V) (m : Machine) (r : Run V) : Prop where
  stack : Values sem r.store m.stack r.stack
  statements : Node.executeAll? sem m.statements store = some r.store

namespace Agrees

variable {store : Store V} {m : Machine} {r : Run V}

theorem swap (h : Agrees sem store m r) : Agrees sem store m.swap (Action.swap.run sem r) := by
  obtain ⟨stack, statements, notes⟩ := m
  obtain ⟨values, current⟩ := r
  have hstack := h.stack
  match stack, values with
  | [], [] => exact h
  | [_], [_] => exact h
  | a :: b :: nodes, c :: d :: values =>
    simp only [Values, List.map_cons, List.cons.injEq] at hstack
    exact ⟨.cons hstack.2.1 (.cons hstack.1 hstack.2.2), h.statements⟩
  | [], _ :: _ | _ :: _, [] | [_], _ :: _ :: _ | _ :: _ :: _, [_] => simp [Values] at hstack

/-- Expressions on the stack are not evaluated until later, so an assignment must not leave any. -/
theorem assign (h : Agrees sem store m r) (name : String) (hlast : r.stack.length ≤ 1) :
    Agrees sem store (m.assign name) ((Action.assign name).run sem r) := by
  have htop : m.top.value? sem r.store = some (r.stack.headD (sem.literal .void)) := h.stack.head
  have hlength := h.stack.length_eq
  have hnodes : m.stack.tail = [] := List.eq_nil_of_length_eq_zero (by rw [List.length_tail]; omega)
  have hvalues : r.stack.tail = [] :=
    List.eq_nil_of_length_eq_zero (by rw [List.length_tail]; omega)
  constructor
  · simp only [Machine.assign, Machine.stack_emit, Machine.stack_pop, Action.run, hnodes, hvalues]
    exact .nil
  · have hstatements := h.statements
    simp only [Node.executeAll?] at hstatements
    simp [Node.executeAll?, Machine.assign, hstatements, Node.execute?, htop, Action.run]

theorem apply (h : Agrees sem store m r) (a : Action) (hlast : a.isAssign → r.stack.length ≤ 1) :
    Agrees sem store (a.effect.apply m) (a.run sem r) := by
  have htop : m.top.value? sem r.store = some (r.stack.headD (sem.literal .void)) := h.stack.head
  cases a with
  | push value => exact ⟨.cons rfl h.stack, h.statements⟩
  | constant pool index =>
    constructor
    · simp only [Action.effect, Effect.apply, Machine.stack_pushLiteral]
      exact .cons rfl h.stack
    · simpa [Action.effect, Effect.apply, Action.run] using h.statements
  | load name => exact ⟨.cons rfl h.stack, h.statements⟩
  | binary op =>
    have hbelow : m.pop.top.value? sem r.store =
        some (r.stack.tail.headD (sem.literal .void)) := h.stack.tail.head
    refine ⟨.cons ?_ h.stack.tail.tail, h.statements⟩
    simp only [Node.value?, Action.run, htop, hbelow, Option.bind_some, Option.map_some]
  | unary op =>
    refine ⟨.cons ?_ h.stack.tail, h.statements⟩
    simp only [Node.value?, Action.run, htop, Option.map_some]
  | swap => exact h.swap
  | drop count => exact ⟨h.stack.drop count, h.statements⟩
  | assign name => exact h.assign name (hlast rfl)

theorem runAll {f : Frame} {body ending : List Instruction} {actions : List Action}
    (h : Agrees sem store m r) (hbody : body.mapM (f.action? (wordIndex f.step)) = some actions)
    (hending : ending = [] ∨ ∃ i, ending = [i] ∧ i.opcode? = some .ret)
    (hlast : Action.AssignsLast sem actions r) :
    Agrees sem store (Machine.runAll f (body ++ ending) m) (Action.runAll sem actions r) := by
  induction body generalizing actions m r with
  | nil =>
    simp only [List.mapM_nil, pure, Option.some.injEq] at hbody
    subst hbody
    rcases hending with rfl | ⟨i, rfl, hi⟩
    · exact h
    · simp only [List.nil_append, Machine.runAll, Machine.run_eq_apply, Instruction.effect, hi]
      exact h
  | cons i body ih =>
    rw [List.mapM_cons] at hbody
    obtain ⟨a, ha, hmore⟩ := Option.bind_eq_some_iff.mp hbody
    obtain ⟨rest, hrest, hactions⟩ := Option.bind_eq_some_iff.mp hmore
    cases hactions
    rw [List.cons_append, Machine.runAll, Machine.run_eq_apply, Action.effect_of_action? ha]
    exact ih (r := a.run sem r) (h.apply a hlast.1) hrest hlast.2

end Agrees

/-- Executing the statements of straight-line code gives the store that the code leads to. -/
theorem executeAll?_statements (sem : Interpretation V) (f : Frame) (store : Store V)
    {body ending : List Instruction} {actions : List Action}
    (hbody : body.mapM (f.action? (wordIndex f.step)) = some actions)
    (hending : ending = [] ∨ ∃ i, ending = [i] ∧ i.opcode? = some .ret)
    (hlast : Action.AssignsLast sem actions { store }) :
    Node.executeAll? sem (f.statements (body ++ ending)) store =
      some (Action.runAll sem actions { store }).store := by
  have hstart : Agrees sem store {} { store } := ⟨.nil, rfl⟩
  rw [Frame.statements_eq]
  exact (hstart.runAll hbody hending hlast).statements

end

def sumFrame : Frame :=
  { handler := { nameId := 0, arguments := [1, 2], locals := [3, 4], globals := [], code := [] }
    script := { literals := [.string "sum"] }
    scope := { names := ["add", "a", "b", "total", "msg"] }, step := 8 }

/-- Whole numbers, on which only sums and products are told apart. -/
def wholeNumbers : Interpretation Int where
  literal value := value.toInt.toInt
  binary
    | .add, left, right => left + right
    | .mul, left, right => left * right
    | _, left, right => left - right
  unary _ operand := -operand

theorem executeAll?_sumFrame :
    let body : List Instruction :=
      [.ofByte 0x4B 0 0, .ofByte 0x4B 8 2, .ofByte 0x05 0 4, .ofByte 0x41 2 5, .ofByte 0x04 0 7,
        .ofByte 0x52 0 8, .ofByte 0x4B 0 10, .ofByte 0x44 0 12, .ofByte 0x21 0 14,
        .ofByte 0x0A 0 15, .ofByte 0x09 0 16, .ofByte 0x0A 0 17, .ofByte 0x52 8 18]
    let actions : List Action := [.load "a", .load "b", .binary .add, .push (.int 2), .binary .mul,
      .assign "total", .load "a", .constant [.string "sum"] 0, .swap, .binary .joinStr, .unary .inv,
      .binary .joinStr, .assign "msg"]
    let store : Store Int := fun name => if name = "a" then 3 else 4
    body.mapM (sumFrame.action? (wordIndex sumFrame.step)) = some actions ∧
      Action.AssignsLast wholeNumbers actions { store } ∧
      Node.executeAll? wholeNumbers (sumFrame.statements (body ++ [.ofByte 0x01 0 20])) store =
        some (Action.runAll wholeNumbers actions { store }).store := by
  intro body actions store
  have hbody : body.mapM (sumFrame.action? (wordIndex sumFrame.step)) = some actions := rfl
  have hlast : Action.AssignsLast wholeNumbers actions { store } := by
    simp [actions, Action.AssignsLast, Action.run, Action.isAssign]
  exact ⟨hbody, hlast,
    executeAll?_statements wholeNumbers sumFrame store hbody (.inr ⟨_, rfl, rfl⟩) hlast⟩

def wideFrame : Frame :=
  { handler := { nameId := 0, arguments := [], locals := [1, 2], globals := [], code := [] }
    script := {}, scope := { names := ["go", "x", "y"] }, step := 0xFFFFFFFF }

def isOne : Interpretation Bool where
  literal value := value.isInt 1
  binary _ left right := left && right
  unary _ operand := operand

/-- An operand that does not fit in a word is cut to one, so `y = 1` is written as `x = 1`. -/
theorem executeAll?_wideOperand :
    let body : List Instruction := [.ofByte 0x41 1 0, .ofByte 0x52 0x100000000 2]
    let actions : List Action := [.push (.int 1), .assign "y"]
    let store : Store Bool := fun _ => false
    body.mapM (wideFrame.action? (plainIndex wideFrame.step)) = some actions ∧
      Action.AssignsLast isOne actions { store } ∧
      Node.executeAll? isOne (wideFrame.statements (body ++ [.ofByte 0x01 0 7])) store ≠
        some (Action.runAll isOne actions { store }).store := by
  intro body actions store
  refine ⟨rfl, ?_, ?_⟩
  · simp [actions, Action.AssignsLast, Action.run, Action.isAssign]
  · intro h
    have hy := congrArg (Option.map fun final => final "y") h
    revert hy
    decide

end Shockwave
