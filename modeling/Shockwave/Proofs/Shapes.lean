import Shockwave.Proofs.Calls

/-!
The trees that a handler's code gives. Only expressions are ever on the stack, and an instruction
writes one statement or none, whatever code comes before it.
-/
namespace Shockwave

/-- The names and literals that expressions may have. A value that is missing is void, and lists of
literals are literals. -/
structure Vocabulary where
  named : String → Prop
  held : Datum → Prop
  void : held .void
  list : ∀ items, (∀ item ∈ items, held item) → held (.list items)

namespace Node

inductive IsValue (words : Vocabulary) : Node → Prop where
  | literal {value : Datum} (h : words.held value) : IsValue words (.literal value)
  | var {name : String} (h : words.named name) : IsValue words (.var name)
  | binary {op : Opcode} {left right : Node} (h : op.isBinary = true) (hleft : IsValue words left)
      (hright : IsValue words right) : IsValue words (.binary op left right)
  | unary {op : Opcode} {operand : Node} (h : op.unarySign?.isSome = true)
      (hoperand : IsValue words operand) : IsValue words (.unary op operand)
  | args {values : List Node} (noReturn : Bool) (h : ∀ value ∈ values, IsValue words value) :
      IsValue words (.args values noReturn)
  | call {name : String} {given : Node} (h : words.named name) (hgiven : IsValue words given) :
      IsValue words (.call name given false)
  | chunk {first last string : Node} (unit : ChunkUnit) (hfirst : IsValue words first)
      (hlast : IsValue words last) (hstring : IsValue words string) :
      IsValue words (.chunk unit first last string)

/-- Statements of a handler: assignments to a variable, calls that want no result, returns, and
comments in place of what has no counterpart. -/
inductive IsStatement (words : Vocabulary) : Node → Prop where
  | assign {name : String} {value : Node} (h : words.named name) (hvalue : IsValue words value) :
      IsStatement words (.assign (.var name) value)
  | call {name : String} {values : List Node} (h : words.named name)
      (hvalues : ∀ value ∈ values, IsValue words value) :
      IsStatement words (.call name (.args values true) true)
  | ret : IsStatement words .ret
  | retValue {value : Node} (hvalue : IsValue words value) : IsStatement words (.retValue value)
  | unknown (op : UInt8) (operand : Int) : IsStatement words (.unknown op operand)

mutual

/-- The pieces of a node, with a text of choice for operations that have no sign. -/
def piecesOr (missing : String) : Node → List Piece
  | .block statements => blockPiecesOr missing statements
  | .binary op left right =>
    inParens (left.needsParens op.level? false) (left.piecesOr missing) ++
      [.text " ", .text (op.binarySign?.getD missing), .text " "] ++
      inParens (right.needsParens op.level? true) (right.piecesOr missing)
  | .unary op operand =>
    .text (op.unarySign?.getD missing) :: inParens operand.hasSpaces (operand.piecesOr missing)
  | .assign target value => target.piecesOr missing ++ .text " = " :: value.piecesOr missing
  | .args values _ => listPiecesOr missing values
  | .call name given true =>
    .text name :: if given.isNoArgs then [] else .text " " :: given.piecesOr missing
  | .call name given false => .text name :: .text "(" :: given.piecesOr missing ++ [.text ")"]
  | .retValue value => .text "return " :: value.piecesOr missing
  | .chunk unit first last string =>
    .text unit.name :: .text " " :: inParens first.hasSpaces (first.piecesOr missing) ++
      (if last.isInt 0 then []
       else .text " to " :: inParens last.hasSpaces (last.piecesOr missing)) ++
      .text " of " :: inParens (string.stringNeedsParens unit) (string.piecesOr missing)
  | .literal value => (literal value).pieces
  | .var name => (var name).pieces
  | .ret => ret.pieces
  | .unknown op operand => (unknown op operand).pieces

def blockPiecesOr (missing : String) : List Node → List Piece
  | [] => []
  | node :: nodes => node.piecesOr missing ++ .lineEnd :: blockPiecesOr missing nodes

def listPiecesOr (missing : String) : List Node → List Piece
  | [] => []
  | [node] => node.piecesOr missing
  | node :: nodes => node.piecesOr missing ++ .text ", " :: listPiecesOr missing nodes

end

mutual

theorem piecesOr_question : (node : Node) → node.piecesOr "?" = node.pieces
  | .block statements => by
    rw [piecesOr, pieces, blockPiecesOr_question statements]
  | .literal _ | .var _ | .ret | .unknown .. => by rw [piecesOr]
  | .binary op left right => by
    rw [piecesOr, pieces, piecesOr_question left, piecesOr_question right]
  | .unary op operand => by rw [piecesOr, pieces, piecesOr_question operand]
  | .assign target value => by
    rw [piecesOr, pieces, piecesOr_question target, piecesOr_question value]
  | .args values _ => by rw [piecesOr, pieces, listPiecesOr_question values]
  | .call _ given true => by rw [piecesOr, pieces, piecesOr_question given]
  | .call _ given false => by rw [piecesOr, pieces, piecesOr_question given]
  | .retValue value => by rw [piecesOr, pieces, piecesOr_question value]
  | .chunk _ first last string => by
    rw [piecesOr, pieces, piecesOr_question first, piecesOr_question last,
      piecesOr_question string]

theorem blockPiecesOr_question : (nodes : List Node) → blockPiecesOr "?" nodes = blockPieces nodes
  | [] => by rw [blockPiecesOr, blockPieces]
  | node :: nodes => by
    rw [blockPiecesOr, blockPieces, piecesOr_question node, blockPiecesOr_question nodes]

theorem listPiecesOr_question : (nodes : List Node) → listPiecesOr "?" nodes = listPieces nodes
  | [] => by rw [listPiecesOr, listPieces]
  | [node] => by rw [listPiecesOr, listPieces, piecesOr_question node]
  | node :: next :: nodes => by
    rw [listPiecesOr, listPieces, piecesOr_question node, listPiecesOr_question (next :: nodes)]
    all_goals simp

end

section

variable {words : Vocabulary} {node : Node}

theorem listPiecesOr_eq {missing : String} {nodes : List Node}
    (h : ∀ node ∈ nodes, node.piecesOr missing = node.pieces) :
    listPiecesOr missing nodes = listPieces nodes := by
  induction nodes with
  | nil => rw [listPiecesOr, listPieces]
  | cons node nodes ih =>
    have hnode := h node List.mem_cons_self
    cases nodes with
    | nil => rw [listPiecesOr, listPieces, hnode]
    | cons next rest =>
      have hrest := ih fun other hother => h other (List.mem_cons_of_mem _ hother)
      rw [listPiecesOr, listPieces, hnode, hrest]
      all_goals simp

theorem IsValue.piecesOr_eq (h : IsValue words node) (missing : String) :
    node.piecesOr missing = node.pieces := by
  induction h with
  | literal | var => rw [piecesOr]
  | binary h _ _ ihleft ihright =>
    obtain ⟨sign, hsign⟩ := Option.isSome_iff_exists.mp h
    rw [piecesOr, pieces, ihleft, ihright, hsign, Option.getD_some, Option.getD_some]
  | unary h _ ih =>
    obtain ⟨sign, hsign⟩ := Option.isSome_iff_exists.mp h
    rw [piecesOr, pieces, ih, hsign, Option.getD_some, Option.getD_some]
  | args _ _ ih => rw [piecesOr, pieces, listPiecesOr_eq ih]
  | call _ _ ih => rw [piecesOr, pieces, ih]
  | chunk _ _ _ _ ihfirst ihlast ihstring =>
    rw [piecesOr, pieces, ihfirst, ihlast, ihstring]

theorem IsStatement.piecesOr_eq (h : IsStatement words node) (missing : String) :
    node.piecesOr missing = node.pieces := by
  cases h with
  | assign _ hvalue => rw [piecesOr, pieces, hvalue.piecesOr_eq, piecesOr]
  | call _ hvalues => rw [piecesOr, pieces, (IsValue.args true hvalues).piecesOr_eq]
  | retValue hvalue => rw [piecesOr, pieces, hvalue.piecesOr_eq]
  | ret | unknown => rw [piecesOr]

end

end Node

inductive Frame.Gives (f : Frame) : String → Prop where
  | name (id : Int) : Gives f (f.name id)
  | localVar (operand : Int) : Gives f (f.localName operand)
  | argument (operand : Int) : Gives f (f.argumentName operand)
  | handler (index : Int) : Gives f (f.handlerName index)
  | property (id : Int) : Gives f ("the " ++ f.name id)

/-- The literals that the code of a handler can make: those of the script, numbers, names, and lists
of such. -/
inductive Frame.Supplies (f : Frame) : Datum → Prop where
  | stored {value : Datum} (h : value ∈ f.script.literals) : Supplies f value
  | void : Supplies f .void
  | int (value : Int32) : Supplies f (.int value)
  | float (value : Binary64) : Supplies f (.float value)
  | symbol (id : Int) : Supplies f (.symbol (f.name id))
  | varRef (id : Int) : Supplies f (.varRef (f.name id))
  | list {items : List Datum} (h : ∀ item ∈ items, Supplies f item) : Supplies f (.list items)

open Node

def Frame.vocabulary (f : Frame) : Vocabulary := ⟨f.Gives, f.Supplies, .void, fun _ => .list⟩

def Effect.Within (words : Vocabulary) : Effect → Prop
  | .push value => words.held value
  | .constant pool _ => ∀ value ∈ pool, words.held value
  | .load name | .assign name | .call name => words.named name
  | .binary op => op.isBinary = true
  | .unary op => op.unarySign?.isSome = true
  | _ => True

theorem Instruction.effect_within (f : Frame) (isLast : Bool) (i : Instruction) :
    (i.effect f isLast).Within f.vocabulary := by
  unfold effect
  cases i.opcode? with
  | none => trivial
  | some op =>
    cases op with
    | pushZero | pushInt8 | pushInt16 | pushInt32 => exact .int _
    | pushFloat32 => exact .float _
    | pushSymb => exact .symbol _
    | pushVarRef => exact .varRef _
    | pushCons => exact fun _ => .stored
    | getGlobal | getGlobal2 | getProp | getTopLevelProp | setGlobal | setGlobal2 | setProp
    | extCall | tellCall => exact .name _
    | getParam | setParam => exact .argument _
    | getLocal | setLocal => exact .localVar _
    | getMovieProp | setMovieProp => exact .property _
    | localCall => exact .handler _
    | inv | not | mul | add | sub | div | mod | joinStr | joinPadStr | lt | ltEq | ntEq | eq | gt
    | gtEq | and | or | containsStr | contains0Str => exact rfl
    | ret | retFactory => cases isLast <;> trivial
    | _ => trivial

namespace Machine

variable {words : Vocabulary}

def Valued (words : Vocabulary) (m : Machine) : Prop := ∀ node ∈ m.stack, node.IsValue words

/-- The second machine is what a step can make of the first: expressions on the stack, and one new
statement at most. -/
structure Steps (words : Vocabulary) (m m' : Machine) : Prop where
  valued : m'.Valued words
  statements_eq : ∃ written : Option Node, (∀ node ∈ written, node.IsStatement words) ∧
    m'.statements = m.statements ++ written.toList

namespace Valued

variable {m : Machine}

theorem getD (h : m.Valued words) (n : Nat) :
    (m.stack.getD n (.literal .void)).IsValue words := by
  rw [List.getD_eq_getElem?_getD]
  cases hnode : m.stack[n]? with
  | none => exact .literal words.void
  | some node => exact h node (List.mem_of_getElem? hnode)

theorem top (h : m.Valued words) : m.top.IsValue words := by
  rw [m.top_eq_getD]
  exact h.getD 0

theorem pop (h : m.Valued words) : m.pop.Valued words :=
  fun node hnode => h node (List.mem_of_mem_tail hnode)

theorem drop (h : m.Valued words) (count : Nat) :
    ∀ node ∈ m.stack.drop count, node.IsValue words :=
  fun node hnode => h node (List.mem_of_mem_drop hnode)

theorem push (h : m.Valued words) {node : Node} (hnode : node.IsValue words) :
    (m.push node).Valued words :=
  List.forall_mem_cons.mpr ⟨hnode, h⟩

end Valued

namespace Steps

variable {m m' : Machine}

theorem silent (h : m'.Valued words) (hstatements : m'.statements = m.statements) :
    Steps words m m' :=
  ⟨h, none, by simp, by rw [hstatements, Option.toList_none, List.append_nil]⟩

theorem emit (h : m'.Valued words) (hstatements : m'.statements = m.statements) {node : Node}
    (hnode : node.IsStatement words) : Steps words m (m'.emit node) :=
  ⟨h, some node, by simpa using hnode, by rw [statements_emit, hstatements, Option.toList_some]⟩

theorem skipOver (hstatements : m'.statements = m.statements) (i : Instruction) :
    Steps words m (m'.skipOver i) :=
  ⟨by simp [Valued], some (.unknown i.op i.operand), by simpa using IsStatement.unknown _ _,
    by rw [statements_skipOver, hstatements, Option.toList_some]⟩

end Steps

theorem wrapChunk_isValue (unit : ChunkUnit) {first last string : Node}
    (hfirst : first.IsValue words) (hlast : last.IsValue words) (hstring : string.IsValue words) :
    (wrapChunk unit first last string).IsValue words := by
  unfold wrapChunk
  split
  · exact hstring
  · exact .chunk unit hfirst hlast hstring

theorem held_of_literals? {node : Node} {items : List Datum} (h : node.IsValue words)
    (hitems : literals? node = some items) : ∀ item ∈ items, words.held item := by
  cases h with
  | @args values noReturn hvalues =>
    change values.mapM literal? = some items at hitems
    induction values generalizing items with
    | nil =>
      cases hitems
      simp
    | cons value values ih =>
      rw [List.mapM_cons] at hitems
      obtain ⟨first, hfirst, hmore⟩ := Option.bind_eq_some_iff.mp hitems
      obtain ⟨rest, hrest, hpair⟩ := Option.bind_eq_some_iff.mp hmore
      cases hpair
      have hvalue := hvalues value List.mem_cons_self
      cases hvalue with
      | literal hheld =>
        cases hfirst
        have hothers := ih (fun other hother => hvalues other (List.mem_cons_of_mem _ hother)) hrest
        exact List.forall_mem_cons.mpr ⟨hheld, hothers⟩
      | _ => cases hfirst
  | _ => cases hitems

variable {m : Machine}

theorem steps_swap (h : m.Valued words) : Steps words m m.swap := by
  refine .silent ?_ m.statements_swap
  unfold swap
  split
  next a b rest hstack =>
    intro node hnode
    refine h node ?_
    rw [hstack]
    simp only [List.mem_cons] at hnode ⊢
    rwa [or_left_comm]
  next => exact h

theorem steps_chunk (h : m.Valued words) : Steps words m m.chunk := by
  refine .silent (List.forall_mem_cons.mpr ⟨?_, ?_⟩) rfl
  · have hlines := wrapChunk_isValue .line (h.getD 2) (h.getD 1) h.top
    have hitems := wrapChunk_isValue .item (h.getD 4) (h.getD 3) hlines
    have hwords := wrapChunk_isValue .word (h.getD 6) (h.getD 5) hitems
    exact wrapChunk_isValue .char (h.getD 8) (h.getD 7) hwords
  · exact h.drop 9

theorem steps_call (h : m.Valued words) {name : String} (hname : words.named name) :
    Steps words m (m.call name) := by
  unfold call
  have htop := h.top
  split
  next values hargs =>
    rw [hargs] at htop
    cases htop with
    | args _ hvalues =>
      split
      · refine .emit h.pop m.statements_pop ?_
        split
        · exact .ret
        · exact .retValue (hvalues _ List.mem_cons_self)
      · rw [hargs]
        exact .emit h.pop m.statements_pop (.call hname hvalues)
  next => exact .silent (h.pop.push (.call hname htop)) rfl

theorem steps_pushList (h : m.Valued words) (i : Instruction) :
    Steps words m (m.pushList i) := by
  unfold pushList
  split
  next items hitems =>
    have hlist := words.list items (held_of_literals? h.top hitems)
    exact .silent (h.pop.push (.literal hlist)) rfl
  next => exact .skipOver rfl i

theorem steps_apply {e : Effect} (he : e.Within words) (h : m.Valued words) :
    Steps words m (e.apply m) := by
  cases e with
  | nothing => exact .silent h rfl
  | close => exact .emit h rfl .ret
  | push value => exact .silent (h.push (.literal he)) rfl
  | constant pool index =>
    refine .silent ?_ (m.statements_pushLiteral pool index)
    rw [Valued, Effect.apply, stack_pushLiteral]
    refine List.forall_mem_cons.mpr ⟨.literal ?_, h⟩
    cases hvalue : pool[index]? with
    | none => exact words.void
    | some value => exact he value (List.mem_of_getElem? hvalue)
  | load name => exact .silent (h.push (.var he)) rfl
  | binary op => exact .silent (h.pop.pop.push (.binary he h.pop.top h.top)) rfl
  | unary op => exact .silent (h.pop.push (.unary he h.top)) rfl
  | swap => exact steps_swap h
  | drop count => exact .silent (h.drop count) rfl
  | args count noReturn =>
    refine .silent ?_ (m.statements_gatherArgs count noReturn)
    rw [Valued, Effect.apply, stack_gatherArgs]
    refine List.forall_mem_cons.mpr ⟨.args noReturn fun value hvalue => ?_, h.drop count⟩
    exact h value (List.mem_of_mem_take (List.mem_reverse.mp hvalue))
  | chunk => exact steps_chunk h
  | list i => exact steps_pushList h i
  | assign name => exact .emit h.pop m.statements_pop (.assign he h.top)
  | call name => exact steps_call h he
  | giveUp i => exact .skipOver rfl i

variable (f : Frame)

theorem steps_run (isLast : Bool) (i : Instruction) (h : m.Valued f.vocabulary) :
    Steps f.vocabulary m (run f isLast i m) := by
  rw [run_eq_apply]
  exact steps_apply (i.effect_within f isLast) h

theorem valued_runAll (code : List Instruction) (h : m.Valued f.vocabulary) :
    (runAll f code m).Valued f.vocabulary := by
  induction code generalizing m with
  | nil => exact h
  | cons i rest ih => exact ih (steps_run f rest.isEmpty i h).valued

/-- The statements of a run are of the right shape, and each comes from an instruction of its own,
in the order of the code. -/
theorem origins_shaped (code : List Instruction) (h : m.Valued f.vocabulary) :
    (∀ origin ∈ origins f code m, origin.2.IsStatement f.vocabulary) ∧
      ((origins f code m).map (·.1)).Sublist code := by
  induction code generalizing m with
  | nil => exact ⟨by simp [origins], .slnil⟩
  | cons i rest ih =>
    have hstep := steps_run f rest.isEmpty i h
    obtain ⟨hrest, horder⟩ := ih hstep.valued
    obtain ⟨written, hwritten, hstatements⟩ := hstep.statements_eq
    have hadds : adds f rest.isEmpty i m = written.toList := by
      rw [adds, hstatements, List.drop_left]
    rw [origins, hadds]
    cases written with
    | none => exact ⟨hrest, horder.cons i⟩
    | some node => exact ⟨List.forall_mem_cons.mpr ⟨hwritten node rfl, hrest⟩, horder.cons_cons i⟩

end Machine

namespace Frame

def routine (f : Frame) : Routine := .ofHandler f.handler f.script f.scope f.step

theorem map_origins (f : Frame) :
    (Machine.origins f f.handler.code {}).map (·.2) = f.routine.statements :=
  (Machine.statements_runAll f f.handler.code {}).symm

theorem valued_start (f : Frame) : Machine.Valued f.vocabulary {} := by
  simp [Machine.Valued]

theorem isStatement_of_mem (f : Frame) {statement : Node} (h : statement ∈ f.routine.statements) :
    statement.IsStatement f.vocabulary := by
  rw [← f.map_origins] at h
  obtain ⟨origin, horigin, rfl⟩ := List.mem_map.mp h
  exact (Machine.origins_shaped f f.handler.code f.valued_start).1 origin horigin

/-- A handler's code of any kind gives statements of the right shape only, at most one for each
instruction and in their order, and the mark that stands for a missing sign is never written. -/
theorem statements_shaped (f : Frame) :
    let origins := Machine.origins f f.handler.code {}
    origins.map (·.2) = f.routine.statements ∧ (origins.map (·.1)).Sublist f.handler.code ∧
      (∀ statement ∈ f.routine.statements, statement.IsStatement f.vocabulary) ∧
      (∀ node : Node, node.pieces = node.piecesOr "?") ∧
      ∀ statement ∈ f.routine.statements, ∀ missing,
        statement.pieces = statement.piecesOr missing := by
  intro origins
  refine ⟨f.map_origins, (Machine.origins_shaped f f.handler.code f.valued_start).2, ?_, ?_, ?_⟩
  · exact fun statement hmem => f.isStatement_of_mem hmem
  · exact fun node => node.piecesOr_question.symm
  · exact fun statement hmem missing => ((f.isStatement_of_mem hmem).piecesOr_eq missing).symm

end Frame
end Shockwave
