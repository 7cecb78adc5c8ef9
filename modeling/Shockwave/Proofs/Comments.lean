import Shockwave.Proofs.Phrases
import Shockwave.Proofs.Printing

/-!
Where a comment starts in a line of source. No name or literal starts one, and the only operation
that does is a minus in front of a negative number, which stands there without parentheses.
-/
namespace Shockwave

/-- A comment starts in the text: two minuses stand side by side, outside of quoted strings. -/
def Commented (text : String) : Prop :=
  ∃ before after, text.toList = before ++ '-' :: '-' :: after ∧ Paired before

namespace Pending

variable {p : Pending} {c : Char}

theorem extend?_minus (hp : p.inQuotes = false) (hminus : p ≠ .mark '-') :
    p.extend? '-' = .none := by
  have hlong : ∀ cs ∈ longMarks, cs[1]? = some '-' → cs[0]? = some '-' := by decide
  cases p with
  | none => rfl
  | word w => rfl
  | mark d =>
    rw [extend?, if_neg]
    intro hmem
    exact hminus (congrArg Pending.mark (Option.some.inj (hlong _ hmem rfl)))
  | quoted => cases hp

theorem comment_mem_feed (p : Pending) (c : Char) :
    .mark ['-', '-'] ∈ (p.feed c).1 ↔ p = .mark '-' ∧ c = '-' := by
  cases hnext : p.extend? c with
  | none =>
    have hflush : .mark ['-', '-'] ∉ p.flush := by cases p <;> simp [flush]
    have hstart : .mark ['-', '-'] ∉ (start c).1 := by
      unfold start
      repeat' split
      all_goals simp
    rw [feed_of_extend? hnext, List.mem_append]
    refine iff_of_false (not_or.mpr ⟨hflush, hstart⟩) ?_
    rintro ⟨rfl, rfl⟩
    cases hnext
  | some next =>
    rw [feed, hnext, Option.getD_some]
    obtain ⟨w, rfl, -, rfl⟩ | ⟨d, rfl, -, rfl⟩ | ⟨rfl, -, rfl⟩ | ⟨rfl, -, rfl⟩ :=
      extend?_cases hnext
    · simp
    · simp [eq_comm]
    · simp
    · simp

theorem feed_eq_minus (p : Pending) (c : Char) :
    (p.feed c).2 = .mark '-' ↔ c = '-' ∧ p.inQuotes = false ∧ p ≠ .mark '-' := by
  cases hnext : p.extend? c with
  | none =>
    have hstart : (start c).2 = .mark '-' ↔ c = '-' := by
      constructor
      · unfold start
        repeat' split
        all_goals simp
      · rintro rfl
        rfl
    rw [feed_of_extend? hnext, hstart]
    refine ⟨?_, And.left⟩
    rintro rfl
    refine ⟨rfl, inQuotes_of_extend? hnext, ?_⟩
    rintro rfl
    cases hnext
  | some next =>
    have hother : ¬(c = '-' ∧ p.inQuotes = false ∧ p ≠ .mark '-') := by
      rintro ⟨rfl, hp, hminus⟩
      rw [extend?_minus hp hminus] at hnext
      cases hnext
    rw [feed, hnext, Option.getD_some, iff_false_right hother]
    obtain ⟨w, -, -, rfl⟩ | ⟨d, -, -, rfl⟩ | ⟨-, -, rfl⟩ | ⟨-, -, rfl⟩ := extend?_cases hnext
    all_goals simp

theorem comment_mem_read (p : Pending) (cs : List Char) :
    .mark ['-', '-'] ∈ p.read cs ↔ (p = .mark '-' ∧ cs.head? = some '-') ∨
      ∃ before after, cs = before ++ '-' :: '-' :: after ∧ p.Closes before := by
  induction cs generalizing p with
  | nil => cases p <;> simp [read, flush]
  | cons c cs ih =>
    have hfirst : (∃ before after, c :: cs = before ++ '-' :: '-' :: after ∧ p.Closes before) ↔
        (c = '-' ∧ cs.head? = some '-' ∧ p.inQuotes = false) ∨
          ∃ before after, cs = before ++ '-' :: '-' :: after ∧ (p.feed c).2.Closes before := by
      constructor
      · rintro ⟨before, after, hcs, hbefore⟩
        cases before with
        | nil =>
          cases hcs
          exact .inl ⟨rfl, rfl, closes_nil.mp hbefore⟩
        | cons d before =>
          cases hcs
          exact .inr ⟨before, after, rfl, closes_cons.mp hbefore⟩
      · rintro (⟨rfl, hhead, hp⟩ | ⟨before, after, rfl, hbefore⟩)
        · obtain ⟨after, rfl⟩ := List.head?_eq_some_iff.mp hhead
          exact ⟨[], after, rfl, closes_nil.mpr hp⟩
        · exact ⟨c :: before, after, rfl, closes_cons.mpr hbefore⟩
    rw [read, List.mem_append, comment_mem_feed, ih, feed_eq_minus, hfirst]
    simp only [List.head?_cons, Option.some.injEq]
    grind

end Pending

theorem commented_iff_mem_lumps (text : String) :
    Commented text ↔ .mark ['-', '-'] ∈ lumps text.toList := by
  rw [lumps, Pending.comment_mem_read]
  simp only [reduceCtorEq, false_and, false_or]
  rfl

namespace Node

mutual

/-- Whether a minus stands in front of a negative number somewhere in a node. -/
def doublesMinus : Node → Bool
  | .unary .inv operand => operand.isNegative || operand.doublesMinus
  | .unary _ operand => operand.doublesMinus
  | .binary _ left right => left.doublesMinus || right.doublesMinus
  | .assign target value => target.doublesMinus || value.doublesMinus
  | .args values _ => anyDoublesMinus values
  | .call _ given _ => given.doublesMinus
  | .retValue value => value.doublesMinus
  | .chunk _ first last string =>
    first.doublesMinus || last.doublesMinus || string.doublesMinus
  | .block statements => anyDoublesMinus statements
  | .literal _ | .var _ | .ret | .unknown .. => false

def anyDoublesMinus : List Node → Bool
  | [] => false
  | node :: nodes => node.doublesMinus || anyDoublesMinus nodes

end

theorem anyDoublesMinus_iff {nodes : List Node} :
    anyDoublesMinus nodes = true ↔ ∃ node ∈ nodes, node.doublesMinus = true := by
  induction nodes with
  | nil => simp [anyDoublesMinus]
  | cons node nodes ih => simp [anyDoublesMinus, ih]

end Node

theorem comment_mem_bracketed (wanted : Bool) (ls : List Lump) :
    .mark ['-', '-'] ∈ bracketed wanted ls ↔ .mark ['-', '-'] ∈ ls := by
  cases wanted <;> simp [bracketed]

theorem comment_mem_intercalate (lists : List (List Lump)) :
    .mark ['-', '-'] ∈ [Lump.mark [',']].intercalate lists ↔
      ∃ ls ∈ lists, .mark ['-', '-'] ∈ ls := by
  induction lists with
  | nil => simp
  | cons ls lists ih =>
    cases lists with
    | nil => simp
    | cons next rest =>
      rw [List.intercalate_cons_cons, List.mem_append, List.mem_append, ih]
      simp

theorem comment_not_mem_of_flat {ls : List Lump} (h : ∀ l ∈ ls, l.isFlat = true) :
    .mark ['-', '-'] ∉ ls :=
  fun hmem => Bool.false_ne_true (h _ hmem)

namespace Datum

mutual

theorem comment_not_mem : (value : Datum) →
    (∀ name ∈ value.names, IsSpelling name.toList) →
    .mark ['-', '-'] ∉ lumps value.text.toList
  | .list items, h => by
    have hitems := comment_not_mem_items items h
    rw [lumps_list h]
    simp only [List.mem_cons, List.mem_append, comment_mem_intercalate]
    simpa using hitems
  | .void, h | .symbol _, h | .varRef _, h | .string _, h | .int _, h | .float _, h =>
    comment_not_mem_of_flat (flat_lumps (by simp) h)

theorem comment_not_mem_items : (items : List Datum) →
    (∀ name ∈ namesIn items, IsSpelling name.toList) →
    ∀ item ∈ items, .mark ['-', '-'] ∉ lumps item.text.toList
  | [], _ => by simp
  | item :: items, h => by
    obtain ⟨hitem, hitems⟩ := List.forall_mem_append.mp h
    exact List.forall_mem_cons.mpr
      ⟨comment_not_mem item hitem, comment_not_mem_items items hitems⟩

end

end Datum

namespace Node

variable {words : Vocabulary} {node : Node}

theorem IsValue.comment_mem_iff (hwords : words.Spelled) (h : IsValue words node) :
    .mark ['-', '-'] ∈ lumps node.chars ↔ node.doublesMinus = true := by
  induction h with
  | literal h =>
    rw [chars_literal, doublesMinus]
    simpa using Datum.comment_not_mem _ fun _ => hwords.held h
  | var h =>
    rw [chars_var, doublesMinus]
    simpa using comment_not_mem_of_flat (hwords.flat h)
  | @binary op left right h hleft hright ihleft ihright =>
    obtain ⟨sign, hsign⟩ := Option.isSome_iff_exists.mp h
    have hother : .mark ['-', '-'] ≠ Lump.ofSign sign := by
      cases op <;> cases hsign <;> decide
    rw [lumps_binary hsign (hleft.paired hwords) (hright.paired hwords), doublesMinus,
      List.mem_append, List.mem_cons, comment_mem_bracketed, comment_mem_bracketed, ihleft, ihright]
    simp [hother]
  | @unary op operand h hoperand ih =>
    have hpaired := hoperand.paired hwords
    rcases op.unarySign?_cases h with rfl | rfl
    · rw [doublesMinus]
      cases hnegative : operand.isNegative with
      | true =>
        obtain ⟨cs, -, -, hlumps⟩ := hoperand.lumps_of_isNegative hnegative
        simp [hlumps]
      | false =>
        have hhead (hspaces : operand.hasSpaces = false) :=
          hoperand.head?_ne_minus hwords hspaces hnegative
        rw [lumps_inv hpaired hhead, List.mem_cons, comment_mem_bracketed, ih]
        simp
    · rw [lumps_not hpaired, doublesMinus, List.mem_cons, comment_mem_bracketed, ih]
      · simp
      · simp
  | @args values _ hvalues ih =>
    have hpaired (value : Node) (hvalue : value ∈ values) := (hvalues value hvalue).paired hwords
    rw [lumps_args hpaired, doublesMinus, anyDoublesMinus_iff, comment_mem_intercalate]
    constructor
    · rintro ⟨ls, hls, hmem⟩
      obtain ⟨value, hvalue, rfl⟩ := List.mem_map.mp hls
      exact ⟨value, hvalue, (ih value hvalue).mp hmem⟩
    · rintro ⟨value, hvalue, hdoubles⟩
      exact ⟨_, List.mem_map_of_mem hvalue, (ih value hvalue).mpr hdoubles⟩
  | @call name given h hgiven ih =>
    have hname := comment_not_mem_of_flat (hwords.flat h)
    rw [lumps_call (hwords.paired h) (hgiven.paired hwords), doublesMinus]
    simp [hname, ih]
  | @chunk first last string unit hfirst hlast hstring ihfirst ihlast ihstring =>
    rw [lumps_chunk unit (hfirst.paired hwords) (hlast.paired hwords)
      (hstring.paired hwords), doublesMinus]
    split
    next hzero =>
      have hnone : last.doublesMinus = false := by
        rw [Grammar.eq_of_isInt hzero, doublesMinus]
      simp [comment_mem_bracketed, ihfirst, ihstring, hnone]
    next => simp [comment_mem_bracketed, ihfirst, ihlast, ihstring, or_assoc]

theorem lumps_assign {name : String} (h : Paired name.toList) (value : Node) :
    lumps (assign (var name) value).chars =
      lumps name.toList ++ .mark ['='] :: lumps value.chars := by
  have hspace : lumps (name.toList ++ ' ' :: '=' :: ' ' :: value.chars) =
      lumps name.toList ++ .mark ['='] :: lumps value.chars :=
    lumps_space h _
  simpa [chars, pieces] using hspace

theorem lumps_callStatement {name : String} (h : Paired name.toList) (given : Node) :
    lumps (call name given true).chars =
      lumps name.toList ++ if given.isNoArgs then [] else lumps given.chars := by
  rw [chars, pieces]
  split
  · rw [spelled_text, spelled_nil, List.append_nil, List.append_nil]
  · exact lumps_space h given.chars

theorem lumps_ret : lumps ret.chars = [.word "return".toList] := by
  decide

theorem lumps_retValue (value : Node) :
    lumps (retValue value).chars = .word "return".toList :: lumps value.chars := by
  have hreturn : Paired "return".toList := by decide
  rw [chars, pieces]
  exact lumps_space hreturn value.chars

theorem lumps_unknown (op : UInt8) (operand : Int) :
    ∃ ls, lumps (unknown op operand).chars = .mark ['-', '-'] :: ls := by
  rw [chars, pieces, spelled_text, String.toList_append, List.append_assoc]
  exact ⟨_, rfl⟩

theorem IsStatement.comment_mem_iff (hwords : words.Spelled)
    (h : IsStatement words node) :
    .mark ['-', '-'] ∈ lumps node.chars ↔
      (∃ op operand, node = .unknown op operand) ∨ node.doublesMinus = true := by
  cases h with
  | @assign name value h hvalue =>
    have hname := comment_not_mem_of_flat (hwords.flat h)
    rw [lumps_assign (hwords.paired h), List.mem_append, List.mem_cons,
      hvalue.comment_mem_iff hwords]
    simp [hname, doublesMinus]
  | @call name values h hvalues =>
    have hname := comment_not_mem_of_flat (hwords.flat h)
    have hargs := (IsValue.args true hvalues).comment_mem_iff hwords
    rw [lumps_callStatement (hwords.paired h), List.mem_append]
    cases values with
    | nil => simp [hname, isNoArgs, doublesMinus, anyDoublesMinus]
    | cons value values => simp [hname, isNoArgs, hargs, doublesMinus]
  | ret => simp [doublesMinus, lumps_ret]
  | retValue hvalue =>
    rw [lumps_retValue, List.mem_cons, hvalue.comment_mem_iff hwords]
    simp [doublesMinus]
  | unknown op operand =>
    refine iff_of_true ?_ (.inl ⟨op, operand, rfl⟩)
    obtain ⟨ls, hls⟩ := lumps_unknown op operand
    rw [hls]
    exact List.mem_cons_self

end Node

namespace Frame

/-- A statement other than the comment for an instruction without counterpart starts a comment if
and only if a minus stands in it in front of a negative number. -/
theorem commented_text_iff (f : Frame)
    (h : ∀ name ∈ f.names, Grammar.isIdentifier name.toList = true) {statement : Node}
    (hmem : statement ∈ f.routine.statements) (ending : String) :
    Commented (statement.text ending) ↔
      (∃ op operand, statement = .unknown op operand) ∨ statement.doublesMinus = true := by
  have hwords := spelled_vocabulary h
  have hstatement := f.isStatement_of_mem hmem
  rw [commented_iff_mem_lumps, Node.toList_text hstatement.all_isText,
    hstatement.comment_mem_iff hwords]

def minusesApart : Frame :=
  ofCode [.string "--"]
    [.ofByte 0x44 0 0, .ofByte 0x41 5 2, .ofByte 0x41 (-5) 4, .ofByte 0x06 0 6, .ofByte 0x0A 0 7,
      .ofByte 0x4F 1 8]

theorem not_commented_minusesApart :
    (∀ name ∈ minusesApart.names, Grammar.isIdentifier name.toList = true) ∧
      minusesApart.routine.statements.map (·.text "\n") = ["x = \"--\" & (5 - -5)"] ∧
      ∀ statement ∈ minusesApart.routine.statements, ¬Commented (statement.text "\n") := by
  have hnames : ∀ name ∈ minusesApart.names, Grammar.isIdentifier name.toList = true := by decide
  have hstatements : minusesApart.routine.statements = [.assign (.var "x")
      (.binary .joinStr (.literal (.string "--"))
        (.binary .sub (.literal (.int 5)) (.literal (.int (-5)))))] := rfl
  refine ⟨hnames, by decide +kernel, fun statement hmem => ?_⟩
  rw [minusesApart.commented_text_iff hnames hmem]
  rw [hstatements, List.mem_singleton] at hmem
  subst hmem
  rintro (⟨op, operand, hunknown⟩ | hdoubles)
  · cases hunknown
  · cases hdoubles

/-- The negative of a negative number: what is assigned is all in the comment. -/
theorem commented_negated :
    let f := ofCode [] [.ofByte 0x41 (-5) 0, .ofByte 0x09 0 2, .ofByte 0x4F 1 3, .ofByte 0x01 0 5]
    (∀ name ∈ f.names, Grammar.isIdentifier name.toList = true) ∧
      f.routine.statements = [.assign (.var "x") (.unary .inv (.literal (.int (-5))))] ∧
      f.routine.statements.map (·.text "\n") = ["x = --5"] ∧ Commented "x = --5" := by
  intro f
  exact ⟨by decide, rfl, by decide +kernel, "x = ".toList, "5".toList, by decide, by decide⟩

end Frame
end Shockwave
