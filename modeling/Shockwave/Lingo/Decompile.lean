import Shockwave.Lingo.Node
import Shockwave.Lingo.Scope
import Shockwave.Note
import Shockwave.Script.Compiled

/-!
Source text of compiled handlers. The code is run on a stack of expressions in place of values; an
instruction that acts on variables or calls for effect becomes a statement. An instruction that has
no counterpart in the source clears the stack and becomes a comment.
-/
namespace Shockwave

/-- What the names and numbers in a handler's code refer to. -/
structure Frame where
  handler : Handler
  script : Script
  scope : Scope
  step : Nat

namespace Frame

def name (f : Frame) (id : Int) : String :=
  (f.scope.name? id).getD s!"UNKNOWN_{id}"

/-- The place of a variable or literal in its list, for an operand cut to 32 bits. -/
def slot (f : Frame) (operand : Int) : Nat :=
  operand.toNat % 0x100000000 / max f.step 1

def localAt (f : Frame) (i : Nat) : String :=
  (f.handler.locals[i]?.bind fun id => f.scope.name? id.toNat).getD s!"local_{i}"

def localName (f : Frame) (operand : Int) : String := f.localAt (f.slot operand)

def argumentAt (f : Frame) (i : Nat) : String :=
  (f.handler.arguments[i]?.bind fun id => f.scope.name? id.toNat).getD s!"arg_{i}"

def argumentName (f : Frame) (operand : Int) : String := f.argumentAt (f.slot operand)

def handlerName (f : Frame) (index : Int) : String :=
  let handler := if index < 0 then none else f.script.handlers[index.toNat]?
  (handler.bind fun h => f.scope.name? h.nameId.toInt).getD s!"handler_{index}"

end Frame

/-- Expressions on the stack, top first, and the statements so far. -/
structure Machine where
  stack : List Node := []
  statements : List Node := []
  notes : List Note := []

namespace Machine

def push (m : Machine) (node : Node) : Machine := { m with stack := node :: m.stack }

/-- The top of the stack; an empty stack gives the void value. -/
def top (m : Machine) : Node := m.stack.headD (.literal .void)

def pop (m : Machine) : Machine := { m with stack := m.stack.tail }

def emit (m : Machine) (node : Node) : Machine := { m with statements := m.statements ++ [node] }

def note (m : Machine) (n : Note) : Machine := { m with notes := m.notes ++ [n] }

/-- Gives up on an instruction. -/
def skipOver (m : Machine) (i : Instruction) : Machine :=
  { m.note (.noCounterpart i.op i.pos) with stack := [] }.emit (.unknown i.op i.operand)

def assign (m : Machine) (name : String) : Machine :=
  m.pop.emit (.assign (.var name) m.top)

/-- A call with the arguments on top. Arguments that want no result make it a statement, and one by
the name of the return statement is that statement. -/
def call (m : Machine) (name : String) : Machine :=
  match m.top with
  | .args values true =>
    if name = "return" then
      m.pop.emit (match values with
        | [] => .ret
        | value :: _ => .retValue value)
    else m.pop.emit (.call name m.top true)
  | _ => m.pop.push (.call name m.top false)

def binary (m : Machine) (op : Opcode) : Machine :=
  m.pop.pop.push (.binary op m.pop.top m.top)

def unary (m : Machine) (op : Opcode) : Machine :=
  m.pop.push (.unary op m.top)

def gatherArgs (m : Machine) (count : Nat) (noReturn : Bool) : Machine :=
  let available := min count m.stack.length
  let m := if available < count then m.note (.argumentsShort count available) else m
  { m with stack := m.stack.drop count }.push (.args (m.stack.take count).reverse noReturn)

/-- Wraps an expression in a chunk, unless its first bound says that there is none. -/
def wrapChunk (unit : ChunkUnit) (first last string : Node) : Node :=
  if first.isInt 0 then string else .chunk unit first last string

/-- A chunk of the string on top, with four pairs of bounds below it, those of lines uppermost. -/
def chunk (m : Machine) : Machine :=
  let bound (n : Nat) : Node := m.stack.getD n (.literal .void)
  let lines := wrapChunk .line (bound 2) (bound 1) m.top
  let items := wrapChunk .item (bound 4) (bound 3) lines
  let words := wrapChunk .word (bound 6) (bound 5) items
  let chars := wrapChunk .char (bound 8) (bound 7) words
  { m with stack := m.stack.drop 9 }.push chars

def literal? : Node → Option Datum
  | .literal value => some value
  | _ => none

/-- The items of an argument list that holds nothing but literals. -/
def literals? : Node → Option (List Datum)
  | .args values _ => values.mapM literal?
  | _ => none

def swap (m : Machine) : Machine :=
  match m.stack with
  | a :: b :: rest => { m with stack := b :: a :: rest }
  | _ => m

def pushLiteral (m : Machine) (literals : List Datum) (index : Nat) : Machine :=
  match literals[index]? with
  | some value => m.push (.literal value)
  | none => (m.note (.literalAbsent index literals.length)).push (.literal .void)

def pushList (m : Machine) (i : Instruction) : Machine :=
  match literals? m.top with
  | some items => m.pop.push (.literal (.list items))
  | none => m.pop.skipOver i

/-- Runs one instruction; a return that ends the handler is not written. -/
def run (f : Frame) (isLast : Bool) (i : Instruction) (m : Machine) : Machine :=
  match i.opcode? with
  | none => m.skipOver i
  | some op => match op with
    | .ret | .retFactory => if isLast then m else m.emit .ret
    | .pushZero => m.push (.literal (.int 0))
    | .mul | .add | .sub | .div | .mod | .joinStr | .joinPadStr | .lt | .ltEq | .ntEq | .eq | .gt
    | .gtEq | .and | .or | .containsStr | .contains0Str => m.binary op
    | .inv | .not => m.unary op
    | .getChunk => m.chunk
    | .pushList => m.pushList i
    | .swap => m.swap
    | .pushInt8 | .pushInt16 | .pushInt32 => m.push (.literal (.int (Int32.ofInt i.operand)))
    | .pushFloat32 =>
      m.push (.literal (.float (.ofSingle (i.operand % 0x100000000).toNat)))
    | .pushArgListNoRet => m.gatherArgs i.operand.toNat true
    | .pushArgList => m.gatherArgs i.operand.toNat false
    | .pushCons => m.pushLiteral f.script.literals (f.slot i.operand)
    | .pushSymb => m.push (.literal (.symbol (f.name i.operand)))
    | .pushVarRef => m.push (.literal (.varRef (f.name i.operand)))
    | .getGlobal | .getGlobal2 | .getProp | .getTopLevelProp => m.push (.var (f.name i.operand))
    | .getParam => m.push (.var (f.argumentName i.operand))
    | .getLocal => m.push (.var (f.localName i.operand))
    | .getMovieProp => m.push (.var ("the " ++ f.name i.operand))
    | .setGlobal | .setGlobal2 | .setProp => m.assign (f.name i.operand)
    | .setParam => m.assign (f.argumentName i.operand)
    | .setLocal => m.assign (f.localName i.operand)
    | .setMovieProp => m.assign ("the " ++ f.name i.operand)
    | .localCall => m.call (f.handlerName i.operand)
    | .extCall | .tellCall => m.call (f.name i.operand)
    | .pop => { m with stack := m.stack.drop i.operand.toNat }
    | _ => m.skipOver i

/-- Runs instructions in order. -/
def runAll (f : Frame) : List Instruction → Machine → Machine
  | [], m => m
  | i :: rest, m => runAll f rest (run f rest.isEmpty i m)

end Machine

/-- A handler as source text has it. -/
structure Routine where
  name : String
  arguments : List String
  globals : List String
  statements : List Node
  notes : List Note

namespace Routine

/-- The source of a handler whose code has been run. Globals without a name are left out. -/
def ofMachine (handler : Handler) (scope : Scope) (m : Machine) : Routine :=
  { name := (scope.name? handler.nameId.toInt).getD s!"handler_{handler.nameId.toInt}"
    arguments := handler.arguments.zipIdx.map fun (id, i) =>
      (scope.name? id.toNat).getD s!"arg_{i}"
    globals := handler.globals.filterMap fun id => scope.name? id.toNat
    statements := m.statements
    notes := m.notes }

def ofHandler (handler : Handler) (script : Script) (scope : Scope) (step : Nat) : Routine :=
  ofMachine handler scope (Machine.runAll { handler, script, scope, step } handler.code {})

def pieces (r : Routine) : List Piece :=
  [.text "on ", .text r.name] ++
    (if r.arguments.isEmpty then [] else [.text " ", .text (String.intercalate ", " r.arguments)]) ++
    [.lineEnd, .indent] ++
    (if r.globals.isEmpty then []
     else [.text ("global " ++ String.intercalate ", " r.globals), .lineEnd]) ++
    (Node.block r.statements).pieces ++
    [.outdent, .text "end", .lineEnd]

end Routine

namespace Script

def propertyNames (script : Script) (scope : Scope) : List String :=
  script.properties.filterMap fun id => scope.name? id.toNat

def routines (script : Script) (scope : Scope) (version : Nat) : List Routine :=
  script.handlers.map fun handler =>
    .ofHandler handler script scope (variableStep scope.capitalX version)

/-- Properties and routines, with a blank line in front of each routine but one that comes first. -/
def layOut (script : Script) (scope : Scope) (routines : List Routine) : List Piece :=
  let properties := script.propertyNames scope
  let head := if properties.isEmpty then []
    else [.text ("property " ++ String.intercalate ", " properties), .lineEnd]
  head ++ routines.zipIdx.flatMap fun (routine, i) =>
    (if i = 0 ∧ properties.isEmpty then [] else [.lineEnd]) ++ routine.pieces

def pieces (script : Script) (scope : Scope) (version : Nat) : List Piece :=
  script.layOut scope (script.routines scope version)

/-- Source text of a script. -/
def source (script : Script) (scope : Scope) (version : Nat) (ending : String) : String :=
  render ending (script.pieces scope version)

/-- Notes on the code of all handlers. -/
def sourceNotes (script : Script) (scope : Scope) (version : Nat) : List Note :=
  (script.routines scope version).flatMap (·.notes)

end Script
end Shockwave
