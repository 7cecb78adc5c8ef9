import Shockwave.Proofs.Effects

/-!
Where the calls of a handler go. A call that gives a value stays on the stack until something takes
it from there; what is taken off and put nowhere, or is still there at the end, is all that the
statements leave out.
-/
namespace Shockwave

namespace Node

mutual

/-- The names of the calls in a node, each behind the calls in its arguments. -/
def calls : Node → List String
  | .block statements => callsIn statements
  | .binary _ left right => left.calls ++ right.calls
  | .unary _ operand => operand.calls
  | .assign target value => target.calls ++ value.calls
  | .args values _ => callsIn values
  | .call name given _ => given.calls ++ [name]
  | .retValue value => value.calls
  | .chunk _ first last string => first.calls ++ last.calls ++ string.calls
  | .literal _ | .var _ | .ret | .unknown .. => []

def callsIn : List Node → List String
  | [] => []
  | node :: nodes => node.calls ++ callsIn nodes

end

@[simp] theorem callsIn_append (left right : List Node) :
    callsIn (left ++ right) = callsIn left ++ callsIn right := by
  induction left with
  | nil => simp [callsIn]
  | cons node left ih => simp [callsIn, ih]

def isReturn : Node → Bool
  | .ret | .retValue _ => true
  | _ => false

theorem calls_of_isInt {node : Node} {value : Int32} (h : node.isInt value = true) :
    node.calls = [] := by
  cases node with
  | literal value => rfl
  | _ => cases h

end Node

open Node

def Frame.callName? (f : Frame) (i : Instruction) : Option String :=
  match i.opcode? with
  | some .localCall => some (f.handlerName i.operand)
  | some .extCall | some .tellCall => some (f.name i.operand)
  | _ => none

/-- The calls of a statement that an instruction wrote. A return statement is one of them if it was
written for a call. -/
def Frame.callsOf (f : Frame) (origin : Instruction × Node) : List String :=
  origin.2.calls ++
    if (f.callName? origin.1).isSome && origin.2.isReturn then ["return"] else []

def spareBound (first last : Node) : List Node := if first.isInt 0 then [last] else []

/-- The expressions that are taken off the stack and become part of nothing: dropped values, bounds
of chunks that are left out, all values that are returned but the first, and what was on the stack
before an instruction without a counterpart. -/
def Effect.discards (m : Machine) : Effect → List Node
  | .drop count => m.stack.take count
  | .chunk =>
    let bound (n : Nat) : Node := m.stack.getD n (.literal .void)
    spareBound (bound 8) (bound 7) ++ spareBound (bound 6) (bound 5) ++
      spareBound (bound 4) (bound 3) ++ spareBound (bound 2) (bound 1)
  | .call name => match m.top with
    | .args values true => if name = "return" then values.tail else []
    | _ => []
  | .list _ => if (Machine.literals? m.top).isSome then [] else m.stack
  | .giveUp _ => m.stack
  | _ => []

/-- If two expressions are exchanged, one of them has no call. -/
def Effect.KeepsOrder (m : Machine) : Effect → Prop
  | .swap => m.top.calls = [] ∨ m.pop.top.calls = []
  | _ => True

instance (m : Machine) : (e : Effect) → Decidable (e.KeepsOrder m)
  | .swap => inferInstanceAs (Decidable (_ ∨ _))
  | .nothing | .close | .push _ | .constant .. | .load _ | .binary _ | .unary _ | .drop _ | .args ..
  | .chunk | .list _ | .assign _ | .call _ | .giveUp _ => .isTrue trivial

namespace Machine

def adds (f : Frame) (isLast : Bool) (i : Instruction) (m : Machine) : List Node :=
  (run f isLast i m).statements.drop m.statements.length

def origins (f : Frame) : List Instruction → Machine → List (Instruction × Node)
  | [], _ => []
  | i :: rest, m =>
    (adds f rest.isEmpty i m).map (i, ·) ++ origins f rest (run f rest.isEmpty i m)

/-- The expressions that a run discards, with those that it leaves on the stack. -/
def discarded (f : Frame) : List Instruction → Machine → List Node
  | [], m => m.stack
  | i :: rest, m =>
    (i.effect f rest.isEmpty).discards m ++ discarded f rest (run f rest.isEmpty i m)

def pending (m : Machine) : List String := callsIn m.stack.reverse

/-- A statement with a call is only written when no call is left on the stack, and no two
expressions with calls are exchanged. -/
def Orderly (f : Frame) : List Instruction → Machine → Prop
  | [], _ => True
  | i :: rest, m =>
    ((adds f rest.isEmpty i m).flatMap (fun node => f.callsOf (i, node)) ≠ [] →
      (run f rest.isEmpty i m).pending = []) ∧
    (i.effect f rest.isEmpty).KeepsOrder m ∧ Orderly f rest (run f rest.isEmpty i m)

instance decidableOrderly (f : Frame) :
    (code : List Instruction) → (m : Machine) → Decidable (Orderly f code m)
  | [], _ => .isTrue trivial
  | i :: rest, m =>
    have := decidableOrderly f rest (run f rest.isEmpty i m)
    inferInstanceAs (Decidable ((_ → _) ∧ _ ∧ _))

end Machine

namespace Effect

def request? : Effect → Option String
  | .call name => some name
  | _ => none

def written (e : Effect) (m : Machine) : List String :=
  ((e.apply m).statements.drop m.statements.length).flatMap fun node =>
    node.calls ++ if e.request?.isSome && node.isReturn then ["return"] else []

end Effect

theorem Frame.callName?_eq (f : Frame) (isLast : Bool) (i : Instruction) :
    f.callName? i = (i.effect f isLast).request? := by
  unfold callName? Instruction.effect
  cases i.opcode? with
  | none => rfl
  | some op => cases op <;> cases isLast <;> rfl

/-- The calls `before`, together with a new one, are those written, those still pending and those
lost. Unless some are lost or out of order, they are written before the pending ones. -/
structure Balanced (before requested written after lost : List String) (inOrder : Prop) :
    Prop where
  count : ∀ name, (before ++ requested).count name = (written ++ after ++ lost).count name
  order : lost = [] → inOrder → (written ≠ [] → after = []) → before ++ requested = written ++ after

namespace Balanced

variable {before requested written after lost : List String} {inOrder : Prop}

theorem keep (h : before ++ requested = after) :
    Balanced before requested [] after [] inOrder :=
  ⟨by simp [h], fun _ _ _ => h⟩

theorem write (h : before ++ requested = after ++ written) :
    Balanced before requested written after [] inOrder := by
  constructor
  · intro name
    rw [h]
    simp only [List.count_append, List.count_nil]
    omega
  · intro _ _ hafter
    cases written with
    | nil => simpa using h
    | cons name names => simpa [hafter] using h

theorem lose {kept taken : List String} (put : List String) (hbefore : before = kept ++ taken)
    (hafter : after = kept ++ put) (hcount : ∀ name, taken.count name = (put ++ lost).count name)
    (hlost : lost = [] → taken = put) : Balanced before [] [] after lost inOrder := by
  constructor
  · intro name
    have := hcount name
    simp only [hbefore, hafter, List.count_append, List.count_nil] at this ⊢
    omega
  · intro hnil _ _
    simp [hbefore, hafter, hlost hnil]

end Balanced

namespace Machine

variable (m : Machine)

theorem pending_eq_drop (count : Nat) :
    m.pending = callsIn (m.stack.drop count).reverse ++ callsIn (m.stack.take count).reverse := by
  rw [pending, ← callsIn_append, ← List.reverse_append, List.take_append_drop]

theorem callsIn_drop (stack : List Node) (n : Nat) :
    callsIn (stack.drop n).reverse =
      callsIn (stack.drop (n + 1)).reverse ++ (stack.getD n (.literal .void)).calls := by
  induction stack generalizing n with
  | nil => simp [callsIn, calls]
  | cons node stack ih =>
    cases n with
    | zero => simp [callsIn]
    | succ n => simpa using ih n

theorem top_eq_getD : m.top = m.stack.getD 0 (.literal .void) := by
  cases h : m.stack <;> simp [top, h]

theorem pending_eq_pop : m.pending = m.pop.pending ++ m.top.calls := by
  have h := callsIn_drop m.stack 0
  rw [← top_eq_getD] at h
  simpa [pending] using h

theorem pending_push (node : Node) : (m.push node).pending = m.pending ++ node.calls := by
  simp [pending, callsIn]

theorem count_callsIn_reverse (nodes : List Node) (name : String) :
    (callsIn nodes.reverse).count name = (callsIn nodes).count name := by
  induction nodes with
  | nil => rfl
  | cons node nodes ih =>
    simp [callsIn, ih]
    omega

theorem callsIn_reverse_eq_nil {nodes : List Node} (h : callsIn nodes = []) :
    callsIn nodes.reverse = [] := by
  induction nodes with
  | nil => rfl
  | cons node nodes ih =>
    simp only [callsIn, List.append_eq_nil_iff] at h
    simp [callsIn, h.1, ih h.2]

theorem calls_of_literals? {node : Node} {items : List Datum} (h : literals? node = some items) :
    node.calls = [] := by
  unfold literals? at h
  split at h
  · next values noReturn =>
    rw [calls]
    induction values generalizing items with
    | nil => rfl
    | cons value values ih =>
      rw [List.mapM_cons] at h
      obtain ⟨first, hfirst, hmore⟩ := Option.bind_eq_some_iff.mp h
      obtain ⟨rest, hrest, -⟩ := Option.bind_eq_some_iff.mp hmore
      cases value with
      | literal value => simpa [callsIn, calls] using ih hrest
      | _ => cases hfirst
  · cases h

end Machine

namespace Effect

variable (m : Machine)

theorem written_of_silent {e : Effect} (h : (e.apply m).statements = m.statements) :
    e.written m = [] := by
  simp [written, h]

theorem written_of_emit {e : Effect} (node : Node)
    (h : (e.apply m).statements = m.statements ++ [node]) :
    e.written m =
      node.calls ++ if e.request?.isSome && node.isReturn then ["return"] else [] := by
  simp [written, h]

def Obeys (e : Effect) : Prop :=
  Balanced m.pending e.request?.toList (e.written m) (e.apply m).pending (callsIn (e.discards m))
    (e.KeepsOrder m)

variable {m}

theorem obeys_of_silent {e : Effect} (hstatements : (e.apply m).statements = m.statements)
    (hdiscards : e.discards m = [])
    (h : m.pending ++ e.request?.toList = (e.apply m).pending) : e.Obeys m := by
  rw [Obeys, written_of_silent m hstatements, hdiscards]
  exact .keep h

theorem obeys_of_emit {e : Effect} (node : Node)
    (hstatements : (e.apply m).statements = m.statements ++ [node]) (hdiscards : e.discards m = [])
    (h : m.pending ++ e.request?.toList = (e.apply m).pending ++
      (node.calls ++ if e.request?.isSome && node.isReturn then ["return"] else [])) :
    e.Obeys m := by
  rw [Obeys, written_of_emit m node hstatements, hdiscards]
  exact .write h

theorem obeys_of_lost {e : Effect} (hwritten : e.written m = []) (hrequest : e.request? = none)
    (hstack : (e.apply m).stack = []) (hdiscards : e.discards m = m.stack) : e.Obeys m := by
  rw [Obeys, hwritten, hrequest, hdiscards]
  refine .lose [] (List.nil_append _).symm (by rw [Machine.pending, hstack]; rfl) ?_ ?_
  · simp [Machine.pending, Machine.count_callsIn_reverse]
  · exact Machine.callsIn_reverse_eq_nil

variable (m)

theorem obeys_push (node : Node) {e : Effect} (h : e.apply m = m.push node)
    (hcalls : node.calls = []) (hdiscards : e.discards m = []) (hrequest : e.request? = none) :
    e.Obeys m := by
  apply obeys_of_silent (by rw [h]; rfl) hdiscards
  simp [h, hrequest, Machine.pending_push, hcalls]

theorem obeys_binary (op : Opcode) : (binary op).Obeys m := by
  apply obeys_of_silent rfl rfl
  simp [apply, Machine.binary, Machine.pending_push, request?, m.pending_eq_pop,
    m.pop.pending_eq_pop, calls]

theorem obeys_unary (op : Opcode) : (unary op).Obeys m := by
  apply obeys_of_silent rfl rfl
  simp [apply, Machine.unary, Machine.pending_push, request?, m.pending_eq_pop, calls]

theorem obeys_swap : swap.Obeys m := by
  obtain ⟨stack, statements, notes⟩ := m
  match stack with
  | [] | [_] => exact obeys_of_silent rfl rfl (List.append_nil _)
  | a :: b :: rest =>
    rw [Obeys, written_of_silent _ rfl]
    constructor
    · intro name
      simp [request?, apply, Machine.swap, Machine.pending, callsIn, discards]
      omega
    · intro _ horder _
      have horder : a.calls = [] ∨ b.calls = [] := horder
      rcases horder with h | h
      · simp [request?, apply, Machine.swap, Machine.pending, callsIn, h]
      · simp [request?, apply, Machine.swap, Machine.pending, callsIn, h]

theorem obeys_drop (count : Nat) : (drop count).Obeys m := by
  rw [Obeys, written_of_silent m rfl]
  refine .lose [] (m.pending_eq_drop count) (List.append_nil _).symm ?_ ?_
  · simp [discards, Machine.count_callsIn_reverse]
  · exact Machine.callsIn_reverse_eq_nil

theorem obeys_args (count : Nat) (noReturn : Bool) : (args count noReturn).Obeys m := by
  apply obeys_of_silent (by simp [apply]) rfl
  rw [m.pending_eq_drop count]
  simp [apply, request?, Machine.pending, callsIn, calls]

theorem obeys_assign (name : String) : (assign name).Obeys m := by
  apply obeys_of_emit (.assign (.var name) m.top) rfl rfl
  rw [m.pending_eq_pop]
  simp [apply, request?, Machine.assign, Machine.pending, calls]

theorem obeys_list (i : Instruction) : (list i).Obeys m := by
  cases hitems : Machine.literals? m.top with
  | some items =>
    have happly : (list i).apply m = m.pop.push (.literal (.list items)) := by
      simp [apply, Machine.pushList, hitems]
    apply obeys_of_silent (by rw [happly]; rfl) (by simp [discards, hitems])
    simp [happly, m.pending_eq_pop, Machine.calls_of_literals? hitems, Machine.pending_push, calls,
      request?]
  | none =>
    have happly : (list i).apply m = m.pop.skipOver i := by simp [apply, Machine.pushList, hitems]
    apply obeys_of_lost
    · simp [written, happly, calls, request?]
    · rfl
    · rw [happly]
      rfl
    · simp [discards, hitems]

variable {m}

theorem obeys_call_return {values : List Node} (htop : m.top = .args values true) :
    (call "return").Obeys m := by
  have hpending : m.pending = m.pop.pending ++ callsIn values := by
    rw [m.pending_eq_pop, htop, calls]
  cases values with
  | nil =>
    have happly : (call "return").apply m = m.pop.emit .ret := by simp [apply, Machine.call, htop]
    have hafter : ((call "return").apply m).pending = m.pop.pending := by rw [happly]; rfl
    apply obeys_of_emit .ret (by rw [happly]; rfl) (by simp [discards, htop])
    rw [hafter, hpending]
    simp [request?, calls, callsIn, Node.isReturn]
  | cons value values =>
    have happly : (call "return").apply m = m.pop.emit (.retValue value) := by
      simp [apply, Machine.call, htop]
    have hafter : ((call "return").apply m).pending = m.pop.pending := by rw [happly]; rfl
    have hwritten : (call "return").written m = value.calls ++ ["return"] := by
      rw [written_of_emit m (.retValue value) (by rw [happly]; rfl)]
      simp [request?, calls, Node.isReturn]
    have hdiscards : (call "return").discards m = values := by simp [discards, htop]
    rw [Obeys, hwritten, hdiscards, hafter, hpending, request?, callsIn]
    constructor
    · intro name
      simp only [Option.toList_some, List.count_append]
      omega
    · intro hlost _ hnone
      have hnone : m.pop.pending = [] := hnone (by simp)
      simp [hlost, hnone]

theorem obeys_call_statement {name : String} {values : List Node}
    (htop : m.top = .args values true) (hname : name ≠ "return") : (call name).Obeys m := by
  have happly : (call name).apply m = m.pop.emit (.call name m.top true) := by
    simp [apply, Machine.call, htop, hname]
  apply obeys_of_emit _ (by rw [happly]; rfl) (by simp [discards, htop, hname])
  rw [happly, m.pending_eq_pop]
  simp [request?, calls, Node.isReturn, Machine.pending]

theorem obeys_call_value {name : String} (htop : ∀ values, m.top ≠ .args values true) :
    (call name).Obeys m := by
  have happly : (call name).apply m = m.pop.push (.call name m.top false) := by
    change m.call name = _
    unfold Machine.call
    split
    · next values hargs => exact absurd hargs (htop values)
    · rfl
  have hdiscards : (call name).discards m = [] := by
    unfold discards
    dsimp only
    split
    · next values hargs => exact absurd hargs (htop values)
    · rfl
  apply obeys_of_silent (by rw [happly]; rfl) hdiscards
  rw [happly, Machine.pending_push, m.pending_eq_pop]
  simp [request?, calls]

variable (m)

theorem obeys_call (name : String) : (call name).Obeys m := by
  by_cases hargs : ∃ values, m.top = .args values true
  · obtain ⟨values, htop⟩ := hargs
    by_cases hname : name = "return"
    · subst hname
      exact obeys_call_return htop
    · exact obeys_call_statement htop hname
  · exact obeys_call_value fun values htop => hargs ⟨values, htop⟩

def boundCalls (first last : Node) : List String :=
  if first.isInt 0 then [] else first.calls ++ last.calls

theorem calls_wrapChunk (unit : ChunkUnit) (first last string : Node) :
    (Machine.wrapChunk unit first last string).calls = boundCalls first last ++ string.calls := by
  unfold Machine.wrapChunk boundCalls
  split <;> simp [calls]

theorem count_bounds (first last : Node) (name : String) :
    (first.calls ++ last.calls).count name =
      (boundCalls first last ++ callsIn (spareBound first last)).count name := by
  unfold boundCalls spareBound
  split
  · next h => simp [calls_of_isInt h, callsIn]
  · simp [callsIn]

theorem boundCalls_eq {first last : Node} (h : callsIn (spareBound first last) = []) :
    boundCalls first last = first.calls ++ last.calls := by
  unfold boundCalls spareBound at *
  split at h
  · next hint => simpa [hint, calls_of_isInt hint, callsIn] using h.symm
  · next hint => simp [hint]

theorem obeys_chunk : chunk.Obeys m := by
  rw [Obeys, written_of_silent m rfl]
  let bound (n : Nat) : Node := m.stack.getD n (.literal .void)
  have hbefore : m.pending = callsIn (m.stack.drop 9).reverse ++
      ((bound 8).calls ++ (bound 7).calls ++ ((bound 6).calls ++ (bound 5).calls) ++
        ((bound 4).calls ++ (bound 3).calls) ++ ((bound 2).calls ++ (bound 1).calls) ++
        (bound 0).calls) := by
    have h := Machine.callsIn_drop m.stack
    rw [Machine.pending, ← List.drop_zero (l := m.stack), h 0, h 1, h 2, h 3, h 4, h 5, h 6, h 7,
      h 8]
    simp [bound]
  have hafter : (chunk.apply m).pending = callsIn (m.stack.drop 9).reverse ++
      (boundCalls (bound 8) (bound 7) ++ boundCalls (bound 6) (bound 5) ++
        boundCalls (bound 4) (bound 3) ++ boundCalls (bound 2) (bound 1) ++ (bound 0).calls) := by
    simp only [apply, Machine.chunk, Machine.pending, Machine.stack_push, List.reverse_cons,
      callsIn_append, callsIn, calls_wrapChunk, Machine.top_eq_getD, List.append_nil,
      List.append_assoc, bound]
  have hdiscards : callsIn (chunk.discards m) = callsIn (spareBound (bound 8) (bound 7)) ++
      callsIn (spareBound (bound 6) (bound 5)) ++ callsIn (spareBound (bound 4) (bound 3)) ++
      callsIn (spareBound (bound 2) (bound 1)) := by
    simp only [discards, callsIn_append, bound]
  rw [hdiscards]
  refine .lose _ hbefore hafter ?_ ?_
  · intro name
    have h8 := count_bounds (bound 8) (bound 7) name
    have h6 := count_bounds (bound 6) (bound 5) name
    have h4 := count_bounds (bound 4) (bound 3) name
    have h2 := count_bounds (bound 2) (bound 1) name
    simp only [List.count_append] at h8 h6 h4 h2 ⊢
    omega
  · intro hlost
    simp only [List.append_eq_nil_iff] at hlost
    rw [boundCalls_eq hlost.1.1.1, boundCalls_eq hlost.1.1.2, boundCalls_eq hlost.1.2,
      boundCalls_eq hlost.2]

theorem obeys (e : Effect) : e.Obeys m := by
  cases e with
  | nothing => exact obeys_of_silent rfl rfl (List.append_nil _)
  | close =>
    apply obeys_of_emit .ret rfl rfl
    simp [apply, request?, calls, Machine.pending]
  | push value => exact obeys_push m (.literal value) rfl rfl rfl rfl
  | constant pool index =>
    apply obeys_of_silent (by simp [apply]) rfl
    simp [apply, request?, Machine.pending, callsIn, calls]
  | load name => exact obeys_push m (.var name) rfl rfl rfl rfl
  | binary op => exact obeys_binary m op
  | unary op => exact obeys_unary m op
  | swap => exact obeys_swap m
  | drop count => exact obeys_drop m count
  | args count noReturn => exact obeys_args m count noReturn
  | chunk => exact obeys_chunk m
  | list i => exact obeys_list m i
  | assign name => exact obeys_assign m name
  | call name => exact obeys_call m name
  | giveUp i => exact obeys_of_lost (by simp [written, apply, calls, request?]) rfl rfl rfl

end Effect

namespace Machine

variable (f : Frame)

theorem callsOf_adds (isLast : Bool) (i : Instruction) (m : Machine) :
    (adds f isLast i m).flatMap (fun node => f.callsOf (i, node)) =
      (i.effect f isLast).written m := by
  simp only [adds, Frame.callsOf, Effect.written, run_eq_apply, f.callName?_eq isLast]

theorem statements_run (isLast : Bool) (i : Instruction) (m : Machine) :
    (run f isLast i m).statements = m.statements ++ adds f isLast i m := by
  have hstart : Continues m.statements { stack := m.stack } m := ⟨rfl, (List.append_nil _).symm⟩
  have h := (hstart.apply (i.effect f isLast)).statements_eq
  rw [adds, run_eq_apply, h, List.drop_left]

theorem statements_runAll (code : List Instruction) (m : Machine) :
    (runAll f code m).statements = m.statements ++ (origins f code m).map (·.2) := by
  induction code generalizing m with
  | nil => simp [runAll, origins]
  | cons i rest ih => simp [runAll, origins, ih, statements_run, Function.comp_def]

theorem callNames_cons (i : Instruction) (rest : List Instruction) :
    (i :: rest).filterMap f.callName? =
      (f.callName? i).toList ++ rest.filterMap f.callName? := by
  cases h : f.callName? i <;> simp [h]

theorem count_origins (code : List Instruction) (m : Machine) (name : String) :
    (m.pending ++ code.filterMap f.callName?).count name =
      ((origins f code m).flatMap f.callsOf ++ callsIn (discarded f code m)).count name := by
  induction code generalizing m with
  | nil => simp [origins, discarded, pending, count_callsIn_reverse]
  | cons i rest ih =>
    have hstep := (Effect.obeys m (i.effect f rest.isEmpty)).count name
    have hrest := ih (run f rest.isEmpty i m)
    rw [← callsOf_adds, ← f.callName?_eq, ← run_eq_apply] at hstep
    simp only [callNames_cons, origins, discarded, List.flatMap_append, List.flatMap_map,
      callsIn_append, List.count_append] at hstep hrest ⊢
    omega

theorem callsOf_origins {code : List Instruction} {m : Machine}
    (hlost : callsIn (discarded f code m) = []) (horder : Orderly f code m) :
    m.pending ++ code.filterMap f.callName? = (origins f code m).flatMap f.callsOf := by
  induction code generalizing m with
  | nil =>
    rw [discarded] at hlost
    simpa [origins, pending] using callsIn_reverse_eq_nil hlost
  | cons i rest ih =>
    simp only [discarded, callsIn_append, List.append_eq_nil_iff] at hlost
    obtain ⟨hafter, hkeeps, horder⟩ := horder
    have hstep := (Effect.obeys m (i.effect f rest.isEmpty)).order hlost.1 hkeeps
    rw [← callsOf_adds, ← f.callName?_eq, ← run_eq_apply] at hstep
    rw [callNames_cons, ← List.append_assoc, hstep hafter, List.append_assoc, ih hlost.2 horder,
      origins, List.flatMap_append, List.flatMap_map]

end Machine

/-- The calls of the code are those in the statements and those in discarded expressions, so none is
missing exactly when no discarded expression has a call. They then stand in the order of the code,
if the code is orderly. -/
theorem Frame.calls_accounted (f : Frame) (code : List Instruction) :
    let requested := code.filterMap f.callName?
    let written := (Machine.origins f code {}).flatMap f.callsOf
    let lost := callsIn (Machine.discarded f code {})
    (Machine.origins f code {}).map (·.2) = f.statements code ∧
      (written ++ lost).Perm requested ∧
      (written.length = requested.length ↔ lost = []) ∧
      (lost = [] → Machine.Orderly f code {} → written = requested) := by
  intro requested written lost
  have hstatements := Machine.statements_runAll f code {}
  have hperm : (written ++ lost).Perm requested := by
    rw [List.perm_iff_count]
    intro name
    exact (Machine.count_origins f code {} name).symm
  have hlength := hperm.length_eq
  rw [List.length_append] at hlength
  refine ⟨?_, hperm, ?_, ?_⟩
  · rw [f.statements_eq, hstatements]
    rfl
  · rw [← List.length_eq_zero_iff]
    omega
  · intro hlost horder
    exact (Machine.callsOf_origins f hlost horder).symm

def twoHandlers : Frame :=
  let second : Handler := { nameId := 1, arguments := [], locals := [], globals := [], code := [] }
  { handler := { second with nameId := 0 }
    script := { handlers := [{ second with nameId := 0 }, second] }
    scope := { names := ["first", "second", "y", "put", "return"] }, step := 8 }

theorem calls_accounted_twoHandlers :
    let code : List Instruction :=
      [.ofByte 0x41 4 0, .ofByte 0x43 1 2, .ofByte 0x56 1 4, .ofByte 0x42 1 6,
        .ofByte 0x57 3 8, .ofByte 0x49 2 10, .ofByte 0x42 1 12, .ofByte 0x57 4 14,
        .ofByte 0x01 0 16]
    callsIn (Machine.discarded twoHandlers code {}) = [] ∧
      Machine.Orderly twoHandlers code {} ∧
      (Machine.origins twoHandlers code {}).flatMap twoHandlers.callsOf =
        ["second", "put", "return"] := by
  intro code
  have hlost : callsIn (Machine.discarded twoHandlers code {}) = [] := rfl
  have horder : Machine.Orderly twoHandlers code {} := by decide
  exact ⟨hlost, horder, (twoHandlers.calls_accounted code).2.2.2 hlost horder⟩

def namesOnly : Frame :=
  { handler := { nameId := 0, arguments := [], locals := [], globals := [], code := [] }
    script := {}, scope := { names := ["go", "f", "g", "x"] }, step := 8 }

/-- A value that is left on the stack takes the call of `f` with it; and a call that gives a value
is written behind a later one that gives none. -/
theorem statements_callLost :
    let left : List Instruction := [.ofByte 0x43 0 0, .ofByte 0x57 1 2, .ofByte 0x01 0 4]
    let late : List Instruction :=
      [.ofByte 0x43 0 0, .ofByte 0x57 1 2, .ofByte 0x42 0 4, .ofByte 0x57 2 6,
        .ofByte 0x4F 3 8, .ofByte 0x01 0 10]
    left.filterMap namesOnly.callName? = ["f"] ∧ namesOnly.statements left = [] ∧
      late.filterMap namesOnly.callName? = ["f", "g"] ∧
      callsIn (namesOnly.statements late) = ["g", "f"] :=
  ⟨rfl, rfl, rfl, rfl⟩

end Shockwave
