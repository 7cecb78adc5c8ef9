import Shockwave.Proofs.Lumps

/-!
The lumps of expressions, put together from those of their parts. The parts of an operation keep
apart, except that a minus runs into the one of a negative number.
-/
namespace Shockwave

def bracketed (wanted : Bool) (ls : List Lump) : List Lump :=
  if wanted then .opening :: (ls ++ [.closing]) else ls

theorem lumps_enclosed (wanted : Bool) {cs : List Char} (h : Paired cs) :
    lumps (enclosed wanted cs) = bracketed wanted (lumps cs) := by
  cases wanted with
  | false => rfl
  | true => exact lumps_parens h []

def Lump.ofSign (sign : String) : Lump :=
  if sign.toList.all isWordChar then .word sign.toList else .mark sign.toList

namespace Opcode

variable {op : Opcode} {sign : String}

theorem paired_binarySign (h : op.binarySign? = some sign) : Paired sign.toList := by
  cases op <;> cases h <;> decide

theorem lumps_binarySign (h : op.binarySign? = some sign) :
    lumps sign.toList = [Lump.ofSign sign] := by
  cases op <;> cases h <;> decide

theorem unarySign?_cases (h : op.unarySign?.isSome = true) : op = .inv ∨ op = .not := by
  cases op with
  | inv => exact .inl rfl
  | not => exact .inr rfl
  | _ => cases h

end Opcode

theorem ChunkUnit.lumps_name (unit : ChunkUnit) :
    lumps unit.name.toList = [.word unit.name.toList] := by
  cases unit <;> decide

theorem IsSpelling.head?_ne_minus {cs : List Char}
    (h : IsSpelling cs) : cs.head? ≠ some '-' := by
  cases h with
  | word h => exact h.head?_ne (by decide)
  | @negative stem digits hstem _ =>
    have hhead := hstem.head?_ne (c := '-') (by decide)
    rw [List.head?_append]
    cases hcs : stem.head? with
    | none => exact absurd (List.head?_eq_none_iff.mp hcs) hstem.ne_nil
    | some c => rwa [hcs] at hhead

namespace Vocabulary.Spelled

variable {words : Vocabulary}
  (hwords : words.Spelled) {name : String}

include hwords

theorem paired (h : words.named name) : Paired name.toList := by
  have hthe : Paired "the ".toList := by decide
  obtain ⟨cs, hcs, hname | hname⟩ := hwords.named h
  · exact hname ▸ hcs.paired
  · exact hname ▸ paired_append hthe (hcs.paired)

theorem flat (h : words.named name) : ∀ l ∈ lumps name.toList, l.isFlat = true := by
  obtain ⟨cs, hcs, hname | hname⟩ := hwords.named h
  · exact hname ▸ hcs.flat
  · have hthe : Paired "the".toList := by decide
    rw [hname]
    exact lumps_space hthe cs ▸ List.forall_mem_append.mpr ⟨by decide, hcs.flat⟩

theorem head?_ne_minus (h : words.named name) : name.toList.head? ≠ some '-' := by
  obtain ⟨cs, hcs, hname | hname⟩ := hwords.named h
  · exact hname ▸ hcs.head?_ne_minus
  · rw [hname]
    simp

end Vocabulary.Spelled

namespace Node

section

variable {words : Vocabulary} {node : Node}
  (hwords : words.Spelled)

include hwords

theorem IsValue.paired (h : IsValue words node) : Paired node.chars := by
  have hspace : ' ' ≠ '"' := by decide
  have hnil : Paired [] := rfl
  induction h with
  | literal h =>
    rw [chars_literal]
    exact Datum.paired_text _ fun _ => hwords.held h
  | var h =>
    rw [chars_var]
    exact hwords.paired h
  | @binary op left right h _ _ ihleft ihright =>
    obtain ⟨sign, hsign⟩ := Option.isSome_iff_exists.mp h
    rw [chars_binary hsign]
    refine paired_divided hspace (paired_enclosed _ ihleft) ?_
    exact paired_divided hspace (op.paired_binarySign hsign) (paired_enclosed _ ihright)
  | @unary op operand h _ ih =>
    have hinner := paired_enclosed operand.hasSpaces ih
    rcases op.unarySign?_cases h with rfl | rfl
    · rw [chars_unary rfl]
      exact paired_append (by decide) hinner
    · rw [chars_unary rfl]
      exact paired_append (by decide) hinner
  | args _ _ ih =>
    rw [chars_args]
    exact paired_intercalate (by decide) (List.forall_mem_map.mpr ih)
  | call h _ ih =>
    rw [chars_call]
    refine paired_divided (by decide) (hwords.paired h) ?_
    exact paired_divided (by decide) ih hnil
  | @chunk first last string unit _ _ _ ihfirst ihlast ihstring =>
    have hunit : Paired unit.name.toList := by cases unit <;> decide
    have hto : Paired " to ".toList := by decide
    have hof : Paired " of ".toList := by decide
    rw [chars_chunk]
    refine paired_divided hspace hunit (paired_append (paired_enclosed _ ihfirst) ?_)
    refine paired_append ?_ (paired_append hof (paired_enclosed _ ihstring))
    split
    · exact hnil
    · exact paired_append hto (paired_enclosed _ ihlast)

end

theorem lumps_binary {op : Opcode} {sign : String} (h : op.binarySign? = some sign)
    {left right : Node} (hleft : Paired left.chars) (hright : Paired right.chars) :
    lumps (binary op left right).chars =
      bracketed (left.needsParens op.level? false) (lumps left.chars) ++ Lump.ofSign sign ::
        bracketed (right.needsParens op.level? true) (lumps right.chars) := by
  rw [chars_binary h, lumps_space (paired_enclosed _ hleft),
    lumps_space (op.paired_binarySign h), lumps_enclosed _ hleft, lumps_enclosed _ hright,
    op.lumps_binarySign h]
  rfl

theorem lumps_not {operand : Node} (h : Paired operand.chars) :
    lumps (unary .not operand).chars =
      .word "not".toList :: bracketed operand.hasSpaces (lumps operand.chars) := by
  have hnot : Paired "not".toList := by decide
  have hlumps := lumps_space hnot (enclosed operand.hasSpaces operand.chars)
  rw [lumps_enclosed _ h] at hlumps
  rw [chars_unary rfl]
  exact hlumps

theorem lumps_inv {operand : Node} (h : Paired operand.chars)
    (hminus : operand.hasSpaces = false → operand.chars.head? ≠ some '-') :
    lumps (unary .inv operand).chars =
      .mark ['-'] :: bracketed operand.hasSpaces (lumps operand.chars) := by
  have hhead : (enclosed operand.hasSpaces operand.chars).head? ≠ some '-' := by
    cases hspaces : operand.hasSpaces with
    | false => exact hminus hspaces
    | true => simp [enclosed]
  rw [chars_unary rfl, ← lumps_enclosed _ h]
  exact lumps_minus hhead

theorem lumps_args {values : List Node} (h : ∀ value ∈ values, Paired value.chars)
    (noReturn : Bool) :
    lumps (args values noReturn).chars =
      [Lump.mark [',']].intercalate (values.map (lumps ·.chars)) := by
  rw [chars_args, lumps_intercalate (List.forall_mem_map.mpr h), List.map_map]
  rfl

theorem lumps_call {name : String} (hname : Paired name.toList) {given : Node}
    (hgiven : Paired given.chars) :
    lumps (call name given false).chars =
      lumps name.toList ++ .opening :: (lumps given.chars ++ [.closing]) := by
  rw [chars_call, lumps_divided (by decide) hname]
  exact congrArg (lumps name.toList ++ ·) (lumps_parens hgiven [])

theorem lumps_chunk (unit : ChunkUnit) {first last string : Node} (hfirst : Paired first.chars)
    (hlast : Paired last.chars) (hstring : Paired string.chars) :
    lumps (chunk unit first last string).chars =
      .word unit.name.toList :: (bracketed first.hasSpaces (lumps first.chars) ++
        ((if last.isInt 0 then []
          else .word "to".toList :: bracketed last.hasSpaces (lumps last.chars)) ++
          .word "of".toList ::
            bracketed (string.stringNeedsParens unit) (lumps string.chars))) := by
  have hunit : Paired unit.name.toList := by cases unit <;> decide
  have hto : Paired "to".toList := by decide
  have hof : Paired "of".toList := by decide
  -- From the last space on, and behind the first bound.
  have hend := lumps_space hof (enclosed (string.stringNeedsParens unit) string.chars)
  have hbound := lumps_space (paired_enclosed first.hasSpaces hfirst)
  rw [lumps_enclosed _ hstring] at hend
  rw [lumps_enclosed _ hfirst] at hbound
  rw [chars_chunk, lumps_space hunit, unit.lumps_name, List.singleton_append]
  congr 1
  split
  · exact (hbound _).trans (congrArg (_ ++ ·) hend)
  · have hrange := lumps_space hto (enclosed last.hasSpaces last.chars ++
      ' ' :: ("of".toList ++ ' ' :: enclosed (string.stringNeedsParens unit) string.chars))
    rw [lumps_space (paired_enclosed _ hlast), lumps_enclosed _ hlast, hend] at hrange
    rw [List.append_assoc]
    exact (hbound _).trans (congrArg (_ ++ ·) hrange)

/-! ### Negative numbers -/

/-- Whether a node is written as a negative number, as arguments with nothing else in them are. -/
def isNegative : Node → Bool
  | .literal value => value.isNegative
  | .args [value] _ => value.isNegative
  | _ => false

theorem args_cases {values : List Node} {noReturn : Bool}
    (h : (args values noReturn).hasSpaces = false) :
    values = [] ∨ ∃ value, values = [value] ∧ value.hasSpaces = false := by
  rw [hasSpaces, Bool.or_eq_false_iff, decide_eq_false_iff_not] at h
  cases values with
  | nil => exact .inl rfl
  | cons value values =>
    cases values with
    | nil =>
      rw [anyHasSpaces, Bool.or_eq_false_iff] at h
      exact .inr ⟨value, rfl, h.2.1⟩
    | cons next rest => simp at h

theorem chars_args_singleton (value : Node) (noReturn : Bool) :
    (args [value] noReturn).chars = value.chars := by
  rw [chars_args]
  simp

end Node

theorem Datum.toList_text_of_isNegative {value : Datum} (h : value.isNegative = true) :
    ∃ cs, IsWord cs ∧ value.text.toList = '-' :: cs := by
  cases value with
  | int n =>
    obtain ⟨cs, hcs, htext⟩ := toList_text_int n
    exact ⟨cs, hcs, by rw [htext, h, signed, if_pos rfl]⟩
  | float x =>
    obtain ⟨cs, hcs, htext⟩ := toList_text_float x
    exact ⟨cs, hcs, by rw [htext, h, signed, if_pos rfl]⟩
  | _ => cases h

theorem Quoted.head?_literal (s : String) : (literal s).toList.head? ≠ some '-' := by
  by_cases h : s = ""
  · subst h
    decide
  · rw [literal_eq_joined h]
    cases pieces s.toList with
    | nil => decide
    | cons p ps =>
      rw [toList_joined_cons]
      cases p with
      | quote => simp [Piece.text]
      | run chars => simp [toList_text_run]

theorem Datum.head?_ne_minus {value : Datum}
    (hnames : ∀ name ∈ value.names, IsSpelling name.toList) (h : value.isNegative = false) :
    value.text.toList.head? ≠ some '-' := by
  cases value with
  | void => decide
  | symbol name => simp [toList_text_symbol]
  | varRef name => exact (hnames name List.mem_cons_self).head?_ne_minus
  | string s => exact Quoted.head?_literal s
  | int n =>
    obtain ⟨cs, hcs, htext⟩ := toList_text_int n
    rw [htext, h]
    exact hcs.head?_ne (by decide)
  | float x =>
    obtain ⟨cs, hcs, htext⟩ := toList_text_float x
    rw [htext, h]
    exact hcs.head?_ne (by decide)
  | list items => simp [toList_text_list]

namespace Node

variable {words : Vocabulary} {node : Node}

theorem IsValue.chars_of_isNegative (h : IsValue words node) (hnegative : node.isNegative = true) :
    ∃ cs, IsWord cs ∧ node.chars = '-' :: cs := by
  induction h with
  | literal =>
    rw [chars_literal]
    exact Datum.toList_text_of_isNegative hnegative
  | @args values _ _ ih =>
    cases values with
    | nil => cases hnegative
    | cons value rest =>
      cases rest with
      | nil =>
        rw [chars_args_singleton]
        exact ih value List.mem_cons_self hnegative
      | cons next rest => cases hnegative
  | _ => cases hnegative

theorem IsValue.hasSpaces_of_isNegative (h : IsValue words node)
    (hnegative : node.isNegative = true) : node.hasSpaces = false := by
  induction h with
  | literal => rfl
  | @args values _ _ ih =>
    cases values with
    | nil => cases hnegative
    | cons value rest =>
      cases rest with
      | nil => simp [hasSpaces, anyHasSpaces, ih value List.mem_cons_self hnegative]
      | cons next rest => cases hnegative
  | _ => cases hnegative

/-- A minus in front of a negative number makes the mark of a comment with that of the number. -/
theorem IsValue.lumps_of_isNegative (h : IsValue words node) (hnegative : node.isNegative = true) :
    ∃ cs, IsWord cs ∧ lumps node.chars = [.mark ['-'], .word cs] ∧
      lumps (Node.unary .inv node).chars = [.mark ['-', '-'], .word cs] := by
  obtain ⟨cs, hcs, hchars⟩ := h.chars_of_isNegative hnegative
  refine ⟨cs, hcs, ?_, ?_⟩
  · rw [hchars]
    exact lumps_signed hcs true
  · rw [chars_unary rfl, h.hasSpaces_of_isNegative hnegative, hchars]
    exact congrArg (Lump.mark ['-', '-'] :: ·) (lumps_run hcs.toIsRun)

theorem IsValue.head?_ne_minus (hwords : words.Spelled)
    (h : IsValue words node) (hspaces : node.hasSpaces = false)
    (hnegative : node.isNegative = false) : node.chars.head? ≠ some '-' := by
  induction h with
  | literal h =>
    rw [chars_literal]
    exact Datum.head?_ne_minus (fun _ => hwords.held h) hnegative
  | var h =>
    rw [chars_var]
    exact hwords.head?_ne_minus h
  | args _ _ ih =>
    obtain rfl | ⟨value, rfl, hvalue⟩ := args_cases hspaces
    · simp [chars_args]
    · rw [chars_args_singleton]
      exact ih value List.mem_cons_self hvalue hnegative
  | @call name _ h _ _ =>
    have hname := hwords.head?_ne_minus h
    rw [chars_call, List.head?_append]
    cases hhead : name.toList.head? with
    | none => simp
    | some c => rwa [hhead] at hname
  | binary | unary | chunk => cases hspaces

end Node
end Shockwave
