import Shockwave.Proofs.Lines
import Shockwave.Proofs.Scanning

/-!
Words of the source text: names and numbers. A negative number has a minus in front, which shows
even in a name that is made up for a missing one.
-/
namespace Shockwave

def isWordChar (c : Char) : Bool := Grammar.isInner c || c == '.' || c == '#'

structure IsRun (cs : List Char) : Prop where
  ne_nil : cs ≠ []
  all : ∀ c ∈ cs, isWordChar c = true

/-- Characters that are read as one word, and not as a reserved one. -/
structure IsWord (cs : List Char) : Prop extends IsRun cs where
  free : Grammar.reserved.lookup (String.ofList cs) = none

def isFree (cs : List Char) : Bool :=
  !cs.isEmpty && cs.all isWordChar && (Grammar.reserved.lookup (String.ofList cs)).isNone

theorem IsWord.of_isFree {cs : List Char} (h : isFree cs = true) : IsWord cs := by
  simp only [isFree, Bool.and_eq_true, Bool.not_eq_true', List.isEmpty_eq_false_iff,
    List.all_eq_true, Option.isNone_iff_eq_none] at h
  exact ⟨⟨h.1.1, h.1.2⟩, h.2⟩

theorem isWordChar_of_isInner {c : Char} (h : Grammar.isInner c = true) : isWordChar c = true := by
  rw [isWordChar, h]
  rfl

theorem isWordChar_of_isDigit {c : Char} (h : c.isDigit = true) : isWordChar c = true :=
  isWordChar_of_isInner (by simp [Grammar.isInner, Char.isAlphanum, h])

theorem IsRun.of_isIdentifier {cs : List Char} (h : Grammar.isIdentifier cs = true) : IsRun cs := by
  cases cs with
  | nil => cases h
  | cons c cs =>
    rw [Grammar.isIdentifier, Bool.and_eq_true, List.all_eq_true] at h
    refine ⟨List.cons_ne_nil c cs, List.forall_mem_cons.mpr ⟨?_, fun d hd => ?_⟩⟩
    · exact isWordChar_of_isInner (Grammar.isInner_of_isFirst h.1)
    · exact isWordChar_of_isInner (h.2 d hd)

theorem IsRun.not_mem {cs : List Char} (h : IsRun cs) {c : Char} (hc : isWordChar c = false) :
    c ∉ cs := by
  intro hmem
  rw [h.all c hmem] at hc
  cases hc

theorem IsRun.head?_ne {cs : List Char} (h : IsRun cs) {c : Char} (hc : isWordChar c = false) :
    cs.head? ≠ some c :=
  fun hhead => h.not_mem hc (List.mem_of_head? hhead)

theorem lookup_reserved {cs : List Char} {c : Char} (hmem : c ∈ cs) (hc : c.isLower = false) :
    Grammar.reserved.lookup (String.ofList cs) = none := by
  have hlower : ∀ entry ∈ Grammar.reserved, entry.1.toList.all Char.isLower = true := by decide
  rw [List.lookup_eq_none_iff]
  intro entry hentry
  rw [bne_iff_ne]
  intro hword
  have hchars := List.all_eq_true.mp (hlower entry hentry) c
  rw [← hword, String.toList_ofList, hc] at hchars
  cases hchars hmem

theorem IsWord.of_mem {cs : List Char} (hall : ∀ c ∈ cs, isWordChar c = true) {c : Char}
    (hmem : c ∈ cs) (hc : c.isLower = false) : IsWord cs :=
  ⟨⟨List.ne_nil_of_mem hmem, hall⟩, lookup_reserved hmem hc⟩

/-! ### Numbers -/

theorem isLower_of_isDigit {c : Char} (h : c.isDigit = true) : c.isLower = false := by
  have hfirst : ((c.isUpper || c.isLower) || c == '_') = false := Grammar.isFirst_of_isDigit h
  rw [Bool.or_eq_false_iff, Bool.or_eq_false_iff] at hfirst
  exact hfirst.1.2

theorem isDigit_of_mem_repr {n : Nat} {c : Char} (h : c ∈ n.repr.toList) : c.isDigit = true := by
  rw [Nat.toList_repr] at h
  exact Nat.isDigit_of_mem_toDigits (by decide) (by decide) h

theorem exists_mem_repr (n : Nat) : ∃ c ∈ n.repr.toList, c.isLower = false := by
  have hne : n.repr.toList ≠ [] := by
    rw [Nat.toList_repr]
    exact Nat.toDigits_ne_nil
  obtain ⟨c, hc⟩ := List.exists_mem_of_ne_nil _ hne
  exact ⟨c, hc, isLower_of_isDigit (isDigit_of_mem_repr hc)⟩

theorem isWordChar_of_mem_repr {n : Nat} {c : Char} (h : c ∈ n.repr.toList) :
    isWordChar c = true :=
  isWordChar_of_isDigit (isDigit_of_mem_repr h)

theorem isWord_repr (n : Nat) : IsWord n.repr.toList := by
  obtain ⟨c, hmem, hc⟩ := exists_mem_repr n
  exact .of_mem (fun d => isWordChar_of_mem_repr) hmem hc

theorem isWord_append_repr {stem : List Char} (h : IsWord stem) (n : Nat) :
    IsWord (stem ++ n.repr.toList) := by
  obtain ⟨c, hmem, hc⟩ := exists_mem_repr n
  refine .of_mem ?_ (List.mem_append_right stem hmem) hc
  exact List.forall_mem_append.mpr ⟨h.all, fun d => isWordChar_of_mem_repr⟩

theorem isWord_repr_append (n : Nat) {rest : List Char} (h : ∀ c ∈ rest, isWordChar c = true) :
    IsWord (n.repr.toList ++ rest) := by
  obtain ⟨c, hmem, hc⟩ := exists_mem_repr n
  refine .of_mem ?_ (List.mem_append_left rest hmem) hc
  exact List.forall_mem_append.mpr ⟨fun d => isWordChar_of_mem_repr, h⟩

theorem isWord_positional (digits : Nat) (power : Int) :
    IsWord (positional digits power).toList := by
  unfold positional
  split
  · exact isWord_repr _
  · dsimp only
    split
    · exact isWord_repr _
    · -- What is left of the digits behind the point is a part of them.
      simp only [String.toList_append, String.append_assoc]
      refine isWord_repr_append _ ?_
      intro c hc
      rcases List.mem_append.mp hc with hpoint | hkept
      · exact List.all_eq_true.mp (by decide : ".".toList.all isWordChar = true) c hpoint
      · change c ∈ (String.ofList _).toList at hkept
        rw [String.toList_ofList, List.mem_reverse] at hkept
        have hdigit := (List.dropWhile_sublist _).mem hkept
        rw [List.mem_reverse] at hdigit
        rcases List.mem_append.mp hdigit with hzero | hdigit
        · rw [String.toList_ofList] at hzero
          rw [List.eq_of_mem_replicate hzero]
          decide
        · exact isWordChar_of_mem_repr hdigit

def signed (negative : Bool) (cs : List Char) : List Char := if negative then '-' :: cs else cs

theorem toList_repr_int (n : Int) :
    n.repr.toList = signed (decide (n < 0)) n.natAbs.repr.toList := by
  rw [Int.repr_eq_if, signed]
  by_cases h : n < 0
  · have habs : (-n).toNat = n.natAbs := by omega
    rw [if_neg (by omega), decide_eq_true h, if_pos rfl, habs, String.toList_append]
    rfl
  · have habs : n.toNat = n.natAbs := by omega
    rw [if_pos (by omega), decide_eq_false h, if_neg (by decide), habs]

theorem Binary64.toList_text (x : Binary64) :
    ∃ cs, IsWord cs ∧ x.text.toList = signed (x.negative && !x.isNaN) cs := by
  have hsign (cs : List Char) :
      (if x.negative then "-" else "").toList ++ cs = signed (x.negative && !false) cs := by
    cases x.negative <;> rfl
  unfold text
  dsimp only
  cases hnan : x.isNaN with
  | true =>
    refine ⟨"NaN".toList, .of_isFree (by decide), ?_⟩
    rw [Bool.not_true, Bool.and_false]
    rfl
  | false =>
    rw [if_neg Bool.false_ne_true]
    split
    · refine ⟨"inf".toList, .of_isFree (by decide), ?_⟩
      rw [← hsign, String.toList_append]
      rfl
    split
    · have hzero : ".0".toList.all isWordChar = true := by decide
      refine ⟨_, isWord_repr_append x.wholePart (List.all_eq_true.mp hzero), ?_⟩
      rw [← hsign, String.toList_append, String.toList_append, List.append_assoc]
      rfl
    · have hpositional := isWord_positional (Interval.ofBinary64 x).shortest.1
        (Interval.ofBinary64 x).shortest.2
      refine ⟨_, hpositional, ?_⟩
      rw [← hsign, String.toList_append]
      rfl

/-! ### Names -/

/-- The text of a name: a word, which may be a reserved one, or one made up with a negative
number. -/
inductive IsSpelling : List Char → Prop where
  | word {cs : List Char} (h : IsRun cs) : IsSpelling cs
  | negative {stem digits : List Char} (hstem : IsWord stem) (hdigits : IsWord digits) :
      IsSpelling (stem ++ '-' :: digits)

theorem IsRun.symbol {cs : List Char} (h : IsRun cs) : IsWord ('#' :: cs) :=
  .of_mem (List.forall_mem_cons.mpr ⟨by decide, h.all⟩) List.mem_cons_self (by decide)

namespace IsSpelling

variable {cs : List Char}

theorem made {stem : List Char} (h : IsWord stem) (n : Int) :
    IsSpelling (stem ++ n.repr.toList) := by
  rw [toList_repr_int, signed]
  split
  · exact .negative h (isWord_repr _)
  · exact .word (isWord_append_repr h _).toIsRun

theorem symbol (h : IsSpelling cs) : IsSpelling ('#' :: cs) := by
  cases h with
  | word h => exact .word h.symbol.toIsRun
  | negative hstem hdigits => exact .negative hstem.symbol hdigits

theorem not_mem (h : IsSpelling cs) {c : Char} (hc : isWordChar c = false) (hminus : c ≠ '-') :
    c ∉ cs := by
  cases h with
  | word h => exact h.not_mem hc
  | negative hstem hdigits => simp [hstem.not_mem hc, hdigits.not_mem hc, hminus]

end IsSpelling

namespace Datum

mutual

def names : Datum → List String
  | .symbol name | .varRef name => [name]
  | .list items => namesIn items
  | .void | .string _ | .int _ | .float _ => []

def namesIn : List Datum → List String
  | [] => []
  | item :: items => item.names ++ namesIn items

end

theorem mem_namesIn {items : List Datum} {name : String} :
    name ∈ namesIn items ↔ ∃ item ∈ items, name ∈ item.names := by
  induction items with
  | nil => simp [namesIn]
  | cons first rest ih => simp [namesIn, ih]

end Datum

def Frame.names (f : Frame) : List String := f.scope.names ++ Datum.namesIn f.script.literals

/-- How the names of a vocabulary are written; those of properties have a word more in front. -/
structure Vocabulary.Spelled (words : Vocabulary) : Prop where
  named {name : String} (h : words.named name) :
    ∃ cs, IsSpelling cs ∧ (name.toList = cs ∨ name.toList = "the ".toList ++ cs)
  held {value : Datum} (h : words.held value) {name : String} (hname : name ∈ value.names) :
    IsSpelling name.toList

namespace Frame

variable {f : Frame}

/-- Whatever is not listed gets a name with its number. -/
theorem isSpelling_getD {name? : Option String}
    (h : ∀ name, name? = some name → IsRun name.toList) (stem : String)
    (hstem : stem ∈ ["UNKNOWN_", "local_", "arg_", "handler_"]) (n : Int) :
    IsSpelling (name?.getD (stem ++ n.repr)).toList := by
  have hall : ∀ stem ∈ ["UNKNOWN_", "local_", "arg_", "handler_"],
      isFree stem.toList = true := by decide
  cases name? with
  | some name => exact .word (h name rfl)
  | none =>
    rw [Option.getD_none, String.toList_append]
    exact .made (.of_isFree (hall stem hstem)) n

theorem isSpelling_name (h : ∀ id name, f.scope.name? id = some name → IsRun name.toList)
    (id : Int) : IsSpelling (f.name id).toList :=
  isSpelling_getD (h id) "UNKNOWN_" (by decide) id

theorem isSpelling_of_mem_names (h : ∀ id name, f.scope.name? id = some name → IsRun name.toList)
    (hstored : ∀ name ∈ Datum.namesIn f.script.literals, IsRun name.toList) {value : Datum}
    (hvalue : f.Supplies value) {name : String} (hname : name ∈ value.names) :
    IsSpelling name.toList := by
  induction hvalue with
  | stored hmem => exact .word (hstored name (Datum.mem_namesIn.mpr ⟨_, hmem, hname⟩))
  | void | int | float => cases hname
  | symbol id | varRef id =>
    rw [List.mem_singleton.mp hname]
    exact isSpelling_name h id
  | @list items _ ih =>
    obtain ⟨item, hitem, hname⟩ := Datum.mem_namesIn.mp hname
    exact ih item hitem hname

theorem spelled_vocabulary (h : ∀ name ∈ f.names, Grammar.isIdentifier name.toList = true) :
    f.vocabulary.Spelled := by
  have hrun (name : String) (hname : name ∈ f.names) := IsRun.of_isIdentifier (h name hname)
  obtain ⟨hnames, hstored⟩ := List.forall_mem_append.mp hrun
  have hscope (id : Int) (name : String) (hid : f.scope.name? id = some name) :
      IsRun name.toList := by
    unfold Scope.name? at hid
    split at hid
    · cases hid
    · exact hnames name (List.mem_of_getElem? hid)
  have hlisted (id? : Option UInt16) (name : String)
      (hid : (id?.bind fun id => f.scope.name? id.toNat) = some name) : IsRun name.toList := by
    obtain ⟨id, -, hid⟩ := Option.bind_eq_some_iff.mp hid
    exact hscope id.toNat name hid
  refine ⟨fun hgives => ?_, isSpelling_of_mem_names hscope hstored⟩
  cases hgives with
  | name id => exact ⟨_, isSpelling_name hscope id, .inl rfl⟩
  | property id => exact ⟨_, isSpelling_name hscope id, .inr String.toList_append⟩
  | localVar operand =>
    have hname := isSpelling_getD (hlisted f.handler.locals[f.slot operand]?) "local_"
      (by decide) (f.slot operand)
    exact ⟨_, hname, .inl rfl⟩
  | argument operand =>
    have hname := isSpelling_getD (hlisted f.handler.arguments[f.slot operand]?) "arg_"
      (by decide) (f.slot operand)
    exact ⟨_, hname, .inl rfl⟩
  | handler index =>
    refine ⟨_, isSpelling_getD (fun name hname => ?_) "handler_" (by decide) index, .inl rfl⟩
    obtain ⟨handler, -, hid⟩ := Option.bind_eq_some_iff.mp hname
    exact hscope _ name hid

end Frame

def Frame.ofCode (literals : List Datum) (code : List Instruction) : Frame :=
  { handler := { nameId := 0, arguments := [], locals := [], globals := [1], code }
    script := { literals }, scope := { names := ["go", "x"] }, step := 8 }

/-! ### The characters of expressions -/

def enclosed (wanted : Bool) (cs : List Char) : List Char :=
  if wanted then '(' :: cs ++ [')'] else cs

def spelled (pieces : List Piece) : List Char := pieces.flatMap (·.content.toList)

@[simp] theorem spelled_nil : spelled [] = [] := rfl

@[simp] theorem spelled_text (s : String) (pieces : List Piece) :
    spelled (.text s :: pieces) = s.toList ++ spelled pieces := rfl

@[simp] theorem spelled_append (left right : List Piece) :
    spelled (left ++ right) = spelled left ++ spelled right := by
  simp [spelled]

namespace Node

def chars (node : Node) : List Char := spelled node.pieces

@[simp] theorem spelled_inParens (wanted : Bool) (pieces : List Piece) :
    spelled (inParens wanted pieces) = enclosed wanted (spelled pieces) := by
  cases wanted <;> simp [inParens, enclosed]

theorem spelled_listPieces (values : List Node) :
    spelled (listPieces values) = [',', ' '].intercalate (values.map chars) := by
  induction values with
  | nil => rfl
  | cons value values ih =>
    cases values with
    | nil => simp [listPieces, chars]
    | cons next rest =>
      rw [listPieces, spelled_append, spelled_text, ih]
      · simp [chars]
      · simp

theorem chars_literal (value : Datum) : (literal value).chars = value.text.toList := by
  simp [chars, pieces]

theorem chars_var (name : String) : (var name).chars = name.toList := by
  simp [chars, pieces]

theorem chars_binary {op : Opcode} {sign : String} (h : op.binarySign? = some sign)
    (left right : Node) :
    (binary op left right).chars =
      enclosed (left.needsParens op.level? false) left.chars ++ ' ' :: (sign.toList ++
        ' ' :: enclosed (right.needsParens op.level? true) right.chars) := by
  simp [chars, pieces, h]

theorem chars_unary {op : Opcode} {sign : String} (h : op.unarySign? = some sign) (operand : Node) :
    (unary op operand).chars = sign.toList ++ enclosed operand.hasSpaces operand.chars := by
  simp [chars, pieces, h]

theorem chars_args (values : List Node) (noReturn : Bool) :
    (args values noReturn).chars = [',', ' '].intercalate (values.map chars) := by
  rw [chars, pieces, spelled_listPieces]

theorem chars_call (name : String) (given : Node) :
    (call name given false).chars = name.toList ++ '(' :: (given.chars ++ [')']) := by
  simp [chars, pieces]

theorem chars_chunk (unit : ChunkUnit) (first last string : Node) :
    (chunk unit first last string).chars =
      unit.name.toList ++ ' ' :: (enclosed first.hasSpaces first.chars ++
        ((if last.isInt 0 then [] else " to ".toList ++ enclosed last.hasSpaces last.chars) ++
          (" of ".toList ++ enclosed (string.stringNeedsParens unit) string.chars))) := by
  rw [chars, pieces]
  split <;> simp [chars]

theorem toList_text {node : Node} (h : node.pieces.all Piece.isText = true) (ending : String) :
    (node.text ending).toList = node.chars := by
  rw [text, render_of_texts h, String.toList_join, List.flatMap_map]
  rfl

end Node
end Shockwave
