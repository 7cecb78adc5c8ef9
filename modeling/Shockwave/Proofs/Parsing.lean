import Shockwave.Proofs.Grammar

/-!
A parser for the grammar of expressions. It finds every reading, and it is a function, so that a
text has at most one.
-/
namespace Shockwave.Grammar

mutual

/-- Each parser gives the node of a phrase at the front of the tokens, and the tokens after it. -/
def tight? : Nat → List Token → Option (Node × List Token)
  | _ + 1, .number value :: ts =>
    if value < 0x80000000 then some (.literal (.int (Int32.ofNat value)), ts) else none
  | _ + 1, .symbol name :: ts => some (.literal (.symbol name), ts)
  | fuel + 1, .lparen :: ts =>
    match expr? fuel ts with
    | some (node, .rparen :: ts) => some (node, ts)
    | _ => none
  | fuel + 1, .name name :: .lparen :: ts =>
    (args? fuel ts).map fun (values, ts) => (.call name (.args values false) false, ts)
  | _ + 1, .name name :: ts => some (.var name, ts)
  | _, _ => none

def args? : Nat → List Token → Option (List Node × List Token)
  | 0, _ => none
  | _ + 1, .rparen :: ts => some ([], ts)
  | fuel + 1, ts => values? fuel ts

def values? : Nat → List Token → Option (List Node × List Token)
  | 0, _ => none
  | fuel + 1, ts =>
    match expr? fuel ts with
    | some (node, .comma :: ts) => (values? fuel ts).map fun (nodes, ts) => (node :: nodes, ts)
    | some (node, .rparen :: ts) => some ([node], ts)
    | _ => none

def operand? : Nat → List Token → Option (Node × List Token)
  | 0, _ => none
  | fuel + 1, .sign .sub :: ts => (operand? fuel ts).map fun (node, ts) => (.unary .inv node, ts)
  | fuel + 1, .kwNot :: ts => (operand? fuel ts).map fun (node, ts) => (.unary .not node, ts)
  | fuel + 1, .unit unit :: ts => chunk? unit fuel ts
  | fuel + 1, ts => tight? fuel ts

def chunk? (unit : ChunkUnit) : Nat → List Token → Option (Node × List Token)
  | 0, _ => none
  | fuel + 1, ts =>
    match tight? fuel ts with
    | some (first, .kwTo :: ts) =>
      match tight? fuel ts with
      | some (last, .kwOf :: ts) =>
        (string? unit fuel ts).map fun (string, ts) => (.chunk unit first last string, ts)
      | _ => none
    | some (first, .kwOf :: ts) =>
      (string? unit fuel ts).map fun (string, ts) =>
        (.chunk unit first (.literal (.int 0)) string, ts)
    | _ => none

def string? (unit : ChunkUnit) : Nat → List Token → Option (Node × List Token)
  | 0, _ => none
  | fuel + 1, .unit coarser :: ts =>
    if unit.rank < coarser.rank then chunk? coarser fuel ts else none
  | fuel + 1, ts => tight? fuel ts

def climb? (limit : Nat) : Nat → Node → List Token → Option (Node × List Token)
  | 0, _, _ => none
  | fuel + 1, left, .sign op :: ts =>
    match op.level? with
    | some level =>
      if level ≤ limit then
        (operand? fuel ts).bind fun (node, ts) =>
          (climb? (level - 1) fuel node ts).bind fun (right, ts) =>
            climb? limit fuel (.binary op left right) ts
      else some (left, .sign op :: ts)
    | none => some (left, .sign op :: ts)
  | _ + 1, left, ts => some (left, ts)

def expr? : Nat → List Token → Option (Node × List Token)
  | 0, _ => none
  | fuel + 1, ts =>
    match operand? fuel ts with
    | some (left, .sign op :: ts) =>
      if op.level? = none then
        (operand? fuel ts).map fun (right, ts) => (.binary op left right, ts)
      else climb? 5 fuel left (.sign op :: ts)
    | result => result

end

def parse? (text : String) : Option Node :=
  (tokens? text).bind fun ts =>
    match expr? (5 * ts.length + 2) ts with
    | some (node, []) => some node
    | _ => none

def NotCall (rest : List Token) : Prop := ∀ us, rest ≠ .lparen :: us

/-- What comes next does not take a phrase of a level as its left operand's tail. -/
def Follows (level : Nat) (rest : List Token) : Prop :=
  NotCall rest ∧ ∀ op us inner, rest = .sign op :: us → op.level? = some inner → level ≤ inner

def Closed (rest : List Token) : Prop := NotCall rest ∧ ∀ op us, rest ≠ .sign op :: us

theorem Closed.follows {rest : List Token} (h : Closed rest) (level : Nat) : Follows level rest :=
  ⟨h.1, fun op us _ hrest => absurd hrest (h.2 op us)⟩

theorem Follows.tighter {level : Nat} {rest : List Token} (h : Follows (level + 1) rest) :
    Follows level rest := by
  refine ⟨h.1, ?_⟩
  intro op us inner hrest hlevel
  have := h.2 op us inner hrest hlevel
  omega

theorem climb?_stops {limit fuel : Nat} {rest : List Token} (h : Follows (limit + 1) rest)
    (left : Node) : climb? limit (fuel + 1) left rest = some (left, rest) := by
  by_cases hsign : ∃ op us, rest = .sign op :: us
  · obtain ⟨op, us, rfl⟩ := hsign
    rw [climb?]
    cases hlevel : op.level? with
    | none => rfl
    | some inner =>
      have hinner := h.2 op us inner rfl hlevel
      dsimp only
      rw [if_neg (by omega)]
  · rw [climb?]
    intro op us hrest
    exact hsign ⟨op, us, hrest⟩

theorem Reads.starts {p : Phrase} {ts : List Token} {n : Node} (h : Reads p ts n) (hp : p ≠ .args) :
    ∃ t us, ts = t :: us ∧ t ≠ .rparen := by
  induction h with
  | noArgs => exact absurd rfl hp
  | someArgs h ih => exact absurd rfl hp
  | var | int | symbol | parens | call | inv | not | chunk | within => simp
  | lastValue h ih | plain h ih | whole h ih | base h ih | looser h ih | chain h ih =>
    exact ih (by simp)
  | nextValue h hrest ih | range hfirst hlast hstring ih | single hfirst hstring ih
  | leveled hlevel hleft hright ih | levelless hlevel hleft hright ih =>
    obtain ⟨t, us, rfl, ht⟩ := ih (by simp)
    simpa using ht

def Token.opensTight : Token → Bool
  | .name _ | .number _ | .symbol _ | .lparen => true
  | _ => false

theorem Reads.starts_tight {ts : List Token} {n : Node} (h : Reads .tight ts n) :
    ∃ t us, ts = t :: us ∧ t.opensTight = true := by
  cases h <;> exact ⟨_, _, rfl, rfl⟩

/-- Climbing from the first operand of a phrase of some level comes to the whole phrase, after so
many steps, at a cost that the length of the phrase covers. -/
def Climbs (level : Nat) (ts : List Token) (n : Node) : Prop :=
  ∃ steps ≤ ts.length, ∀ limit rest, level ≤ limit → Follows level rest →
    ∃ first us,
      (∀ fuel, 5 * ts.length + 1 ≤ fuel → operand? fuel (ts ++ rest) = some (first, us)) ∧
      (∀ op vs, us = .sign op :: vs → op.level? = none → us = rest) ∧
      ∀ fuel, 5 * ts.length + 1 ≤ fuel →
        climb? limit fuel first us = climb? limit (fuel - steps) n rest

def Finds : Phrase → List Token → Node → Prop
  | .tight, ts, n => ∀ fuel rest, 5 * ts.length ≤ fuel → NotCall rest →
    tight? fuel (ts ++ rest) = some (n, rest)
  | .values, ts, n => ∃ nodes, n = .args nodes false ∧ ∀ fuel rest, 5 * ts.length + 3 ≤ fuel →
    values? fuel (ts ++ .rparen :: rest) = some (nodes, rest)
  | .args, ts, n => ∃ nodes, n = .args nodes false ∧ ∀ fuel rest, 5 * ts.length + 4 ≤ fuel →
    args? fuel (ts ++ .rparen :: rest) = some (nodes, rest)
  | .operand, ts, n => ∀ fuel rest, 5 * ts.length + 1 ≤ fuel → NotCall rest →
    operand? fuel (ts ++ rest) = some (n, rest)
  | .chunk unit, ts, n => ∀ fuel rest, 5 * ts.length + 1 ≤ fuel → NotCall rest →
    chunk? unit fuel (ts ++ rest) = some (n, rest)
  | .string unit, ts, n => ∀ fuel rest, 5 * ts.length + 1 ≤ fuel → NotCall rest →
    string? unit fuel (ts ++ rest) = some (n, rest)
  | .level level, ts, n => Climbs level ts n
  | .expr, ts, n => ∀ fuel rest, 5 * ts.length + 2 ≤ fuel → Closed rest →
    expr? fuel (ts ++ rest) = some (n, rest)

section

variable {ts us vs : List Token} {n : Node}

theorem finds_parens (h : Finds .expr ts n) : Finds .tight (.lparen :: ts ++ [.rparen]) n := by
  intro fuel rest hfuel hrest
  simp only [List.cons_append, List.append_assoc, List.nil_append, List.length_cons,
    List.length_append, List.length_nil] at hfuel ⊢
  obtain ⟨fuel, rfl⟩ := Nat.exists_eq_add_of_le' (show 1 ≤ fuel by omega)
  have hclosed : Closed (.rparen :: rest) := by simp [Closed, NotCall]
  rw [tight?, h fuel _ (by omega) hclosed]

theorem finds_call (name : String) (h : Finds .args ts n) :
    Finds .tight (.name name :: .lparen :: ts ++ [.rparen]) (.call name n false) := by
  obtain ⟨nodes, rfl, hargs⟩ := h
  intro fuel rest hfuel hrest
  simp only [List.cons_append, List.append_assoc, List.nil_append, List.length_cons,
    List.length_append, List.length_nil] at hfuel ⊢
  obtain ⟨fuel, rfl⟩ := Nat.exists_eq_add_of_le' (show 1 ≤ fuel by omega)
  rw [tight?, hargs fuel rest (by omega)]
  rfl

theorem finds_someArgs (h : Finds .values ts n) (hstart : ∃ t us, ts = t :: us ∧ t ≠ .rparen) :
    Finds .args ts n := by
  obtain ⟨nodes, rfl, hvalues⟩ := h
  obtain ⟨t, us, rfl, ht⟩ := hstart
  refine ⟨nodes, rfl, ?_⟩
  intro fuel rest hfuel
  obtain ⟨fuel, rfl⟩ := Nat.exists_eq_add_of_le' (show 1 ≤ fuel by omega)
  have hfound := hvalues fuel rest (by omega)
  rw [List.cons_append] at hfound ⊢
  rw [args?, hfound]
  intro vs heq
  exact ht (List.cons.inj heq).1

theorem finds_lastValue (h : Finds .expr ts n) : Finds .values ts (.args [n] false) := by
  refine ⟨[n], rfl, ?_⟩
  intro fuel rest hfuel
  obtain ⟨fuel, rfl⟩ := Nat.exists_eq_add_of_le' (show 1 ≤ fuel by omega)
  have hclosed : Closed (.rparen :: rest) := by simp [Closed, NotCall]
  rw [values?, h fuel _ (by omega) hclosed]

theorem finds_nextValue {nodes : List Node} (h : Finds .expr ts n)
    (hrest : Finds .values us (.args nodes false)) :
    Finds .values (ts ++ .comma :: us) (.args (n :: nodes) false) := by
  obtain ⟨nodes', heq, hvalues⟩ := hrest
  cases heq
  refine ⟨n :: nodes, rfl, ?_⟩
  intro fuel rest hfuel
  simp only [List.length_append, List.length_cons] at hfuel
  obtain ⟨fuel, rfl⟩ := Nat.exists_eq_add_of_le' (show 1 ≤ fuel by omega)
  have hclosed : Closed (.comma :: (us ++ .rparen :: rest)) := by simp [Closed, NotCall]
  rw [List.append_assoc, List.cons_append, values?, h fuel _ (by omega) hclosed]
  dsimp only
  rw [hvalues fuel rest (by omega)]
  rfl

theorem finds_plain (h : Finds .tight ts n) (hstart : ∃ t us, ts = t :: us ∧ t.opensTight = true) :
    Finds .operand ts n := by
  obtain ⟨t, us, rfl, ht⟩ := hstart
  intro fuel rest hfuel hrest
  obtain ⟨fuel, rfl⟩ := Nat.exists_eq_add_of_le' (show 1 ≤ fuel by omega)
  have hfound := h fuel rest (by omega) hrest
  rw [List.cons_append] at hfound ⊢
  cases t with
  | name | number | symbol | lparen => simpa [operand?] using hfound
  | unit | sign | kwNot | kwTo | kwOf | rparen | comma => cases ht

theorem finds_whole {unit : ChunkUnit} (h : Finds .tight ts n)
    (hstart : ∃ t us, ts = t :: us ∧ t.opensTight = true) : Finds (.string unit) ts n := by
  obtain ⟨t, us, rfl, ht⟩ := hstart
  intro fuel rest hfuel hrest
  obtain ⟨fuel, rfl⟩ := Nat.exists_eq_add_of_le' (show 1 ≤ fuel by omega)
  have hfound := h fuel rest (by omega) hrest
  rw [List.cons_append] at hfound ⊢
  cases t with
  | name | number | symbol | lparen => simpa [string?] using hfound
  | unit | sign | kwNot | kwTo | kwOf | rparen | comma => cases ht

theorem finds_inv (h : Finds .operand ts n) :
    Finds .operand (.sign .sub :: ts) (.unary .inv n) := by
  intro fuel rest hfuel hrest
  rw [List.length_cons] at hfuel
  obtain ⟨fuel, rfl⟩ := Nat.exists_eq_add_of_le' (show 1 ≤ fuel by omega)
  rw [List.cons_append, operand?, h fuel rest (by omega) hrest]
  rfl

theorem finds_not (h : Finds .operand ts n) : Finds .operand (.kwNot :: ts) (.unary .not n) := by
  intro fuel rest hfuel hrest
  rw [List.length_cons] at hfuel
  obtain ⟨fuel, rfl⟩ := Nat.exists_eq_add_of_le' (show 1 ≤ fuel by omega)
  rw [List.cons_append, operand?, h fuel rest (by omega) hrest]
  rfl

theorem finds_chunk {unit : ChunkUnit} (h : Finds (.chunk unit) ts n) :
    Finds .operand (.unit unit :: ts) n := by
  intro fuel rest hfuel hrest
  rw [List.length_cons] at hfuel
  obtain ⟨fuel, rfl⟩ := Nat.exists_eq_add_of_le' (show 1 ≤ fuel by omega)
  rw [List.cons_append, operand?, h fuel rest (by omega) hrest]

theorem finds_within {unit coarser : ChunkUnit} (hcoarser : unit.rank < coarser.rank)
    (h : Finds (.chunk coarser) ts n) : Finds (.string unit) (.unit coarser :: ts) n := by
  intro fuel rest hfuel hrest
  rw [List.length_cons] at hfuel
  obtain ⟨fuel, rfl⟩ := Nat.exists_eq_add_of_le' (show 1 ≤ fuel by omega)
  rw [List.cons_append, string?, if_pos hcoarser, h fuel rest (by omega) hrest]

theorem finds_range {unit : ChunkUnit} {first last string : Node} (hfirst : Finds .tight ts first)
    (hlast : Finds .tight us last) (hstring : Finds (.string unit) vs string) :
    Finds (.chunk unit) (ts ++ .kwTo :: us ++ .kwOf :: vs) (.chunk unit first last string) := by
  intro fuel rest hfuel hrest
  simp only [List.length_append, List.length_cons] at hfuel
  obtain ⟨fuel, rfl⟩ := Nat.exists_eq_add_of_le' (show 1 ≤ fuel by omega)
  have hto : NotCall (.kwTo :: (us ++ .kwOf :: (vs ++ rest))) := by simp [NotCall]
  have hof : NotCall (.kwOf :: (vs ++ rest)) := by simp [NotCall]
  simp only [List.append_assoc, List.cons_append]
  rw [chunk?, hfirst fuel _ (by omega) hto]
  dsimp only
  rw [hlast fuel _ (by omega) hof]
  dsimp only
  rw [hstring fuel rest (by omega) hrest]
  rfl

theorem finds_single {unit : ChunkUnit} {first string : Node} (hfirst : Finds .tight ts first)
    (hstring : Finds (.string unit) vs string) :
    Finds (.chunk unit) (ts ++ .kwOf :: vs) (.chunk unit first (.literal (.int 0)) string) := by
  intro fuel rest hfuel hrest
  simp only [List.length_append, List.length_cons] at hfuel
  obtain ⟨fuel, rfl⟩ := Nat.exists_eq_add_of_le' (show 1 ≤ fuel by omega)
  have hof : NotCall (.kwOf :: (vs ++ rest)) := by simp [NotCall]
  simp only [List.append_assoc, List.cons_append]
  rw [chunk?, hfirst fuel _ (by omega) hof]
  dsimp only
  rw [hstring fuel rest (by omega) hrest]
  rfl

theorem climbs_base (h : Finds .operand ts n) : Climbs 0 ts n := by
  refine ⟨0, Nat.zero_le _, ?_⟩
  intro limit rest hlimit hrest
  refine ⟨n, rest, ?_, ?_, ?_⟩
  · intro fuel hfuel
    exact h fuel rest hfuel hrest.1
  · intro op vs hsign hlevel
    rfl
  · intro fuel hfuel
    rfl

theorem climbs_looser {level : Nat} (h : Climbs level ts n) : Climbs (level + 1) ts n := by
  obtain ⟨steps, hsteps, hclimb⟩ := h
  refine ⟨steps, hsteps, ?_⟩
  intro limit rest hlimit hrest
  exact hclimb limit rest (by omega) hrest.tighter

/-- A phrase that goes on past a sign: the left side is climbed to, the right side is found below
the sign's level, and then the climb goes on behind it. -/
theorem climbs_leveled {op : Opcode} {level : Nat} {left right : Node}
    (hlevel : op.level? = some (level + 1)) (hleft : Climbs (level + 1) ts left)
    (hright : Climbs level us right) :
    Climbs (level + 1) (ts ++ .sign op :: us) (.binary op left right) := by
  obtain ⟨steps, hsteps, hclimb⟩ := hleft
  obtain ⟨steps', hsteps', hclimb'⟩ := hright
  refine ⟨steps + 1, by rw [List.length_append, List.length_cons]; omega, ?_⟩
  intro limit rest hlimit hrest
  have hfollows : Follows (level + 1) (.sign op :: (us ++ rest)) := by
    refine ⟨by simp [NotCall], ?_⟩
    intro op' vs inner heq hinner
    cases heq
    rw [hlevel, Option.some.injEq] at hinner
    omega
  obtain ⟨first, vs, hfirst, hloose, hsame⟩ := hclimb limit _ hlimit hfollows
  obtain ⟨first', vs', hfirst', -, hsame'⟩ := hclimb' level rest (Nat.le_refl _) hrest.tighter
  refine ⟨first, vs, ?_, ?_, ?_⟩
  · intro fuel hfuel
    rw [List.length_append, List.length_cons] at hfuel
    rw [List.append_assoc, List.cons_append]
    exact hfirst fuel (by omega)
  · intro op' us' hsign hnone
    have hvs := hloose op' us' hsign hnone
    rw [hsign] at hvs
    cases hvs
    rw [hlevel] at hnone
    cases hnone
  · intro fuel hfuel
    rw [List.length_append, List.length_cons] at hfuel
    obtain ⟨rest_fuel, hrest_fuel⟩ := Nat.exists_eq_add_of_le' (show 1 ≤ fuel - steps by omega)
    have hbelow : climb? level rest_fuel first' vs' = some (right, rest) := by
      rw [hsame' rest_fuel (by omega)]
      obtain ⟨last, hlast⟩ := Nat.exists_eq_add_of_le' (show 1 ≤ rest_fuel - steps' by omega)
      rw [hlast, climb?_stops hrest]
    rw [hsame fuel (by omega), hrest_fuel, climb?, hlevel]
    dsimp only
    rw [if_pos hlimit, hfirst' rest_fuel (by omega)]
    simp only [Option.bind_some, Nat.add_sub_cancel]
    rw [hbelow, Option.bind_some]
    congr 1
    omega

theorem finds_chain (h : Climbs 5 ts n) : Finds .expr ts n := by
  obtain ⟨steps, hsteps, hclimb⟩ := h
  intro fuel rest hfuel hrest
  obtain ⟨first, us, hfirst, hloose, hsame⟩ := hclimb 5 rest (Nat.le_refl _) (hrest.follows 5)
  obtain ⟨fuel, rfl⟩ := Nat.exists_eq_add_of_le' (show 1 ≤ fuel by omega)
  have hwhole : climb? 5 fuel first us = some (n, rest) := by
    rw [hsame fuel (by omega)]
    obtain ⟨last, hlast⟩ := Nat.exists_eq_add_of_le' (show 1 ≤ fuel - steps by omega)
    rw [hlast, climb?_stops (hrest.follows 6)]
  rw [expr?, hfirst fuel (by omega)]
  by_cases hsign : ∃ op vs, us = .sign op :: vs
  · obtain ⟨op, vs, rfl⟩ := hsign
    have hleveled : ¬op.level? = none := by
      intro hnone
      exact hrest.2 op vs (hloose op vs rfl hnone).symm
    dsimp only
    rw [if_neg hleveled, hwhole]
  · have hstop : climb? 5 fuel first us = some (first, us) := by
      obtain ⟨last, rfl⟩ := Nat.exists_eq_add_of_le' (show 1 ≤ fuel by omega)
      rw [climb?]
      intro op vs heq
      exact hsign ⟨op, vs, heq⟩
    rw [hstop] at hwhole
    split
    · next left op vs heq =>
      cases heq
      exact absurd ⟨op, vs, rfl⟩ hsign
    · exact hwhole

theorem finds_levelless {op : Opcode} {left right : Node} (hlevel : op.level? = none)
    (hleft : Finds .operand ts left) (hright : Finds .operand us right) :
    Finds .expr (ts ++ .sign op :: us) (.binary op left right) := by
  intro fuel rest hfuel hrest
  simp only [List.length_append, List.length_cons] at hfuel
  obtain ⟨fuel, rfl⟩ := Nat.exists_eq_add_of_le' (show 1 ≤ fuel by omega)
  have hsign : NotCall (.sign op :: (us ++ rest)) := by simp [NotCall]
  rw [List.append_assoc, List.cons_append, expr?, hleft fuel _ (by omega) hsign]
  dsimp only
  rw [if_pos hlevel, hright fuel rest (by omega) hrest.1]
  rfl

end

theorem Reads.finds {p : Phrase} {ts : List Token} {n : Node} (h : Reads p ts n) :
    Finds p ts n := by
  induction h with
  | var name =>
    intro fuel rest hfuel hrest
    obtain ⟨fuel, rfl⟩ := Nat.exists_eq_add_of_le' (show 1 ≤ fuel by simp at hfuel; omega)
    rw [List.singleton_append, tight?]
    exact hrest
  | int hvalue =>
    intro fuel rest hfuel hrest
    obtain ⟨fuel, rfl⟩ := Nat.exists_eq_add_of_le' (show 1 ≤ fuel by simp at hfuel; omega)
    rw [List.singleton_append, tight?, if_pos hvalue]
  | symbol name =>
    intro fuel rest hfuel hrest
    obtain ⟨fuel, rfl⟩ := Nat.exists_eq_add_of_le' (show 1 ≤ fuel by simp at hfuel; omega)
    rw [List.singleton_append, tight?]
  | noArgs =>
    refine ⟨[], rfl, ?_⟩
    intro fuel rest hfuel
    obtain ⟨fuel, rfl⟩ := Nat.exists_eq_add_of_le' (show 1 ≤ fuel by simp at hfuel; omega)
    rw [List.nil_append, args?]
  | parens h ih => exact finds_parens ih
  | call name h ih => exact finds_call name ih
  | someArgs h ih => exact finds_someArgs ih (h.starts (by simp))
  | lastValue h ih => exact finds_lastValue ih
  | nextValue h hrest ih ihrest => exact finds_nextValue ih ihrest
  | plain h ih => exact finds_plain ih h.starts_tight
  | inv h ih => exact finds_inv ih
  | not h ih => exact finds_not ih
  | chunk h ih => exact finds_chunk ih
  | range hfirst hlast hstring ihfirst ihlast ihstring => exact finds_range ihfirst ihlast ihstring
  | single hfirst hstring ihfirst ihstring => exact finds_single ihfirst ihstring
  | whole h ih => exact finds_whole ih h.starts_tight
  | within hcoarser h ih => exact finds_within hcoarser ih
  | base h ih => exact climbs_base ih
  | looser h ih => exact climbs_looser ih
  | leveled hlevel hleft hright ihleft ihright => exact climbs_leveled hlevel ihleft ihright
  | chain h ih => exact finds_chain ih
  | levelless hlevel hleft hright ihleft ihright => exact finds_levelless hlevel ihleft ihright

theorem ReadsText.parse?_eq {text : String} {node : Node} (h : ReadsText text node) :
    parse? text = some node := by
  obtain ⟨ts, htokens, hreads⟩ := h
  have hclosed : Closed [] := by simp [Closed, NotCall]
  have hfound : expr? (5 * ts.length + 2) (ts ++ []) = some (node, []) :=
    hreads.finds _ [] (Nat.le_refl _) hclosed
  rw [List.append_nil] at hfound
  rw [parse?, htokens, Option.bind_some, hfound]

/-- A text has at most one reading. -/
theorem ReadsText.unique {text : String} {left right : Node} (hleft : ReadsText text left)
    (hright : ReadsText text right) : left = right := by
  have hsame := hleft.parse?_eq.symm.trans hright.parse?_eq
  exact Option.some.inj hsame

end Shockwave.Grammar
