import Shockwave.Proofs.Effects

/-!
An instruction without a counterpart in the source parts a handler in two: what stands before it is
written as if nothing followed, and what stands after it as if nothing had come before.
-/
namespace Shockwave

/-- Whether some statement or expression of the source stands for the operation. -/
def Opcode.hasCounterpart : Opcode → Bool
  | .hiliteChunk | .ontoSpr | .intoSpr | .getField | .startTell | .endTell | .pushPropList
  | .callJavaScript | .jmp | .endRepeat | .jmpIfZ | .objCallV4 | .put | .putChunk | .deleteChunk
  | .get | .set | .getObjProp | .setObjProp | .peek | .theBuiltin | .objCall | .pushChunkVarRef
  | .getChainedProp | .newObj => false
  | _ => true

namespace Instruction

def hasCounterpart (i : Instruction) : Bool := i.opcode?.elim false Opcode.hasCounterpart

def isReturn (i : Instruction) : Bool :=
  i.opcode? == some .ret || i.opcode? == some .retFactory

theorem effect_of_noCounterpart {i : Instruction} (h : i.hasCounterpart = false) (f : Frame)
    (isLast : Bool) : i.effect f isLast = .giveUp i := by
  unfold hasCounterpart at h
  unfold effect
  cases hop : i.opcode? with
  | none => rfl
  | some op =>
    rw [hop] at h
    cases op <;> cases h <;> rfl

theorem effect_of_not_isReturn {i : Instruction} (h : i.isReturn = false) (f : Frame)
    (isLast isLast' : Bool) : i.effect f isLast = i.effect f isLast' := by
  unfold isReturn at h
  unfold effect
  cases hop : i.opcode? with
  | none => rfl
  | some op =>
    rw [hop] at h
    cases op <;> cases h <;> rfl

theorem effect_of_isReturn {i : Instruction} (h : i.isReturn = true) (f : Frame) (isLast : Bool) :
    i.effect f isLast = if isLast then .nothing else .close := by
  simp only [isReturn, Bool.or_eq_true, beq_iff_eq] at h
  unfold effect
  rcases h with h | h <;> rw [h] <;> rfl

end Instruction

/-- What the last instruction writes as soon as others follow it: a return is no longer silent. -/
def closing (code : List Instruction) : List Node :=
  if code.getLast?.any Instruction.isReturn then [.ret] else []

namespace Machine

def runBefore (f : Frame) (code : List Instruction) (m : Machine) : Machine :=
  code.foldl (fun m i => run f false i m) m

theorem runAll_append (f : Frame) (code : List Instruction) (i : Instruction)
    (rest : List Instruction) (m : Machine) :
    runAll f (code ++ i :: rest) m = runAll f (i :: rest) (runBefore f code m) := by
  induction code generalizing m with
  | nil => rfl
  | cons j code ih =>
    have hlast : (code ++ i :: rest).isEmpty = false := by cases code <;> rfl
    rw [List.cons_append, runAll, hlast, ih]
    rfl

theorem statements_runBefore (f : Frame) (code : List Instruction) (m : Machine) :
    (runBefore f code m).statements = (runAll f code m).statements ++ closing code := by
  rcases List.eq_nil_or_concat code with rfl | ⟨before, i, rfl⟩
  · simp [runBefore, runAll, closing]
  · have hclosing : closing (before ++ [i]) = if i.isReturn then [.ret] else [] := by
      simp [closing]
    rw [List.concat_eq_append, runAll_append, hclosing, runBefore, List.foldl_append]
    change (run f false i (runBefore f before m)).statements = (run f true i _).statements ++ _
    rw [run_eq_apply, run_eq_apply]
    cases hreturn : i.isReturn with
    | true => simp [Instruction.effect_of_isReturn hreturn, Effect.apply]
    | false => simp [Instruction.effect_of_not_isReturn hreturn f false true]

end Machine

namespace Frame

/-- The statements on both sides of an instruction without a counterpart are those of the two pieces
of code taken alone, but for a return that is no longer the last instruction of its piece. -/
theorem statements_barrier (f : Frame) (a b : List Instruction) {u : Instruction}
    (hu : u.hasCounterpart = false) :
    f.statements (a ++ [u] ++ b) = f.statements (a ++ [u]) ++ f.statements b ∧
      (f.statements (a ++ [u])).getLast? = some (.unknown u.op u.operand) ∧
      f.statements (a ++ [u]) = f.statements a ++ closing a ++ [.unknown u.op u.operand] := by
  have hrun (isLast : Bool) (m : Machine) : Machine.run f isLast u m = m.skipOver u := by
    rw [Machine.run_eq_apply, Instruction.effect_of_noCounterpart hu]
    rfl
  have hfirst : f.statements (a ++ [u]) =
      f.statements a ++ closing a ++ [.unknown u.op u.operand] := by
    rw [statements_eq, Machine.runAll_append, Machine.runAll, hrun, Machine.runAll,
      Machine.statements_skipOver, Machine.statements_runBefore, ← statements_eq]
  have hsecond : Machine.Continues (f.statements (a ++ [u])) (Machine.runAll f b {})
      (Machine.runAll f b ((Machine.runBefore f a {}).skipOver u)) := by
    apply Machine.Continues.runAll
    refine ⟨rfl, ?_⟩
    rw [Machine.statements_skipOver, Machine.statements_runBefore, ← statements_eq, hfirst,
      List.append_nil]
  refine ⟨?_, by rw [hfirst, List.getLast?_concat], hfirst⟩
  rw [statements_eq, List.append_assoc, List.singleton_append, Machine.runAll_append,
    Machine.runAll, hrun, hsecond.statements_eq, ← statements_eq f b]

end Frame

def jumpFrame : Frame :=
  { handler := { nameId := 0, arguments := [], locals := [], globals := [], code := [] }
    script := {}, scope := { names := ["go", "x"] }, step := 8 }

theorem statements_barrier_jump :
    let a : List Instruction :=
      [.ofByte 0x41 1 0, .ofByte 0x4F 1 2, .ofByte 0x41 7 4, .ofByte 0x01 0 6]
    let u : Instruction := .ofByte 0x53 4 7
    let b : List Instruction := [.ofByte 0x05 0 9, .ofByte 0x4F 1 10, .ofByte 0x01 0 12]
    u.hasCounterpart = false ∧
      jumpFrame.statements (a ++ [u] ++ b) =
        jumpFrame.statements (a ++ [u]) ++ jumpFrame.statements b ∧
      (jumpFrame.statements (a ++ [u])).getLast? = some (.unknown 0x53 4) ∧
      jumpFrame.statements (a ++ [u]) =
        jumpFrame.statements a ++ closing a ++ [.unknown 0x53 4] := by
  intro a u b
  have hu : u.hasCounterpart = false := by decide
  exact ⟨hu, jumpFrame.statements_barrier a b hu⟩

end Shockwave
