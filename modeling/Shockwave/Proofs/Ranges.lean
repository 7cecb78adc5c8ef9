import Shockwave.Proofs.Stream

/-!
Operations that have a result only in a range: a difference, an index, a slice. A checked step breaks
off where one of them has none, and otherwise goes as the step that it mirrors.
-/
namespace Shockwave

inductive Fault (ε : Type) where
  | failed (cause : ε)
  | outOfRange
  deriving DecidableEq, Repr

namespace Checked

section

variable {α : Type}

def minus? (a b : Nat) : Option Nat := if b ≤ a then some (a - b) else none

def quotient? (a b : Nat) : Option Nat := if b = 0 then none else some (a / b)

def leading? (n : Nat) (xs : List α) : Option (List α) := (List.range n).mapM (xs[·]?)

def slice? (start stop : Nat) (xs : List α) : Option (List α) :=
  if start ≤ stop ∧ stop ≤ xs.length then some ((xs.take stop).drop start) else none

/-- Items for a place that has room for `n` of them, no more and no fewer. -/
def filling? (n : Nat) (xs : List α) : Option (List α) := if xs.length = n then some xs else none

def splitOff? (xs : List α) (i : Nat) : Option (List α × List α) :=
  if i ≤ xs.length then some (xs.take i, xs.drop i) else none

def exchange? (xs : List α) (i j : Nat) : Option (List α) := do
  let x ← xs[i]?
  let y ← xs[j]?
  return (xs.set i y).set j x

theorem minus?_eq {a b : Nat} (h : b ≤ a) : minus? a b = some (a - b) := if_pos h

theorem quotient?_eq {a b : Nat} (h : b ≠ 0) : quotient? a b = some (a / b) := if_neg h

theorem leading?_eq_take {n : Nat} {xs : List α} (h : n ≤ xs.length) :
    leading? n xs = some (xs.take n) := by
  induction n with
  | zero => rfl
  | succ n ih =>
    have hfirst : (List.range n).mapM (xs[·]?) = some (xs.take n) := ih (by omega)
    have hlast : xs[n]? = some xs[n] := List.getElem?_eq_getElem h
    unfold leading?
    rw [List.range_succ, List.mapM_append, hfirst, List.take_add_one, hlast]
    simp [hlast]

theorem leading?_eq {n : Nat} {xs : List α} (h : xs.length = n) : leading? n xs = some xs := by
  rw [leading?_eq_take (Nat.le_of_eq h.symm), List.take_of_length_le (Nat.le_of_eq h)]

theorem filling?_eq {n : Nat} {xs : List α} (h : xs.length = n) : filling? n xs = some xs :=
  if_pos h

end

section

variable {ε σ α β : Type}

def lift (step : EStateM ε σ α) : EStateM (Fault ε) σ α := step.adaptExcept .failed

/-- The result of an operation. The step breaks off if it has none. -/
def inRange (result : Option α) : EStateM (Fault ε) σ α :=
  result.elim (throw .outOfRange) pure

@[simp] theorem inRange_some (a : α) : (inRange (some a) : EStateM (Fault ε) σ α) = pure a := rfl

@[simp] theorem lift_pure (a : α) : lift (pure a : EStateM ε σ α) = pure a := rfl

theorem lift_ok {step : EStateM ε σ α} {s t : σ} {a : α} (h : step s = .ok a t) :
    lift step s = .ok a t := by
  simp only [lift, EStateM.adaptExcept, h]

theorem lift_error {step : EStateM ε σ α} {s t : σ} {e : ε} (h : step s = .error e t) :
    lift step s = .error (.failed e) t := by
  simp only [lift, EStateM.adaptExcept, h]

section

variable {checked : EStateM (Fault ε) σ α} {step : EStateM ε σ α}
  {checkedRest : α → EStateM (Fault ε) σ β} {rest : α → EStateM ε σ β} {s : σ}

/-- It is enough to compare the rests where the first step gets to. -/
theorem bind_eq_lift (hstep : checked s = lift step s)
    (hrest : ∀ a t, step s = .ok a t → checkedRest a t = lift (rest a) t) :
    (checked >>= checkedRest) s = lift (step >>= rest) s := by
  cases hs : step s with
  | ok a t =>
    rw [bind_ok (hstep.trans (lift_ok hs)), hrest a t hs]
    unfold lift EStateM.adaptExcept
    rw [bind_ok hs]
  | error e t => rw [bind_error (hstep.trans (lift_error hs)), lift_error (bind_error hs)]

theorem lift_bind_of (h : ∀ a t, step s = .ok a t → checkedRest a t = lift (rest a) t) :
    (lift step >>= checkedRest) s = lift (step >>= rest) s :=
  bind_eq_lift rfl h

@[simp] theorem lift_bind (step : EStateM ε σ α) (rest : α → EStateM ε σ β) :
    lift (step >>= rest) = lift step >>= fun a => lift (rest a) :=
  funext fun _ => (lift_bind_of fun _ _ _ => rfl).symm

end

theorem lift_mapM {checked : α → EStateM (Fault ε) σ β} {step : α → EStateM ε σ β}
    (h : ∀ a, checked a = lift (step a)) (items : List α) :
    items.mapM checked = lift (items.mapM step) := by
  induction items with
  | nil => rfl
  | cons a rest ih => simp only [List.mapM_cons, lift_bind, lift_pure, h, ih]

/-- From the states before, the checked step goes as the plain one, and a result leaves a state of
those after. -/
def Mirrors (before : σ → Prop) (after : α → σ → Prop) (checked : EStateM (Fault ε) σ α)
    (step : EStateM ε σ α) : Prop :=
  ∀ s, before s → checked s = lift step s ∧ ∀ a t, step s = .ok a t → after a t

variable {before : σ → Prop} {between : α → σ → Prop} {after : β → σ → Prop}

theorem mirrors_pure {a : α} (h : ∀ s, before s → between a s) :
    Mirrors before between (pure a : EStateM (Fault ε) σ α) (pure a) := by
  intro s hs
  refine ⟨rfl, fun b t ht => ?_⟩
  cases ht
  exact h s hs

theorem mirrors_lift {step : EStateM ε σ α}
    (h : ∀ s a t, before s → step s = .ok a t → between a t) :
    Mirrors before between (lift step) step :=
  fun s hs => ⟨rfl, fun a t => h s a t hs⟩

theorem mirrors_bind {checked : EStateM (Fault ε) σ α} {step : EStateM ε σ α}
    {checkedRest : α → EStateM (Fault ε) σ β} {rest : α → EStateM ε σ β}
    (hstep : Mirrors before between checked step)
    (hrest : ∀ a, Mirrors (between a) after (checkedRest a) (rest a)) :
    Mirrors before after (checked >>= checkedRest) (step >>= rest) := by
  intro s hs
  obtain ⟨hchecked, hbetween⟩ := hstep s hs
  refine ⟨bind_eq_lift hchecked fun a t ht => (hrest a t (hbetween a t ht)).1, fun b u hu => ?_⟩
  obtain ⟨a, t, ht, hb⟩ := exists_of_bind_ok hu
  exact (hrest a t (hbetween a t ht)).2 b u hb

theorem mirrors_ite {condition : Prop} [Decidable condition] {checkedYes checkedNo} {yes no}
    (hyes : Mirrors before between (checkedYes : EStateM (Fault ε) σ α) yes)
    (hno : Mirrors before between checkedNo no) :
    Mirrors before between (if condition then checkedYes else checkedNo)
      (if condition then yes else no) := by
  split
  · exact hyes
  · exact hno

end

end Checked
end Shockwave
