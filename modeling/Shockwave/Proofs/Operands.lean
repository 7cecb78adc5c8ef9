import Shockwave.Proofs.Outlines

/-!
Expressions as operands. That an expression needs no parentheses is judged from its tree, which
takes every literal and every name for a single operand; where one is not, a part of it is taken
for the operand.
-/
namespace Shockwave

def shown (wanted : Bool) (ls : List Lump) : List Lump := if wanted then [.opening] else ls

theorem Matched.outer_bracketed {ls : List Lump} (h : Matched ls) (wanted : Bool) :
    outer 0 (Shockwave.bracketed wanted ls) = shown wanted (outer 0 ls) := by
  cases wanted with
  | false => rfl
  | true => exact h.outer_brackets []

theorem Opcode.isBracket_ofSign {op : Opcode} {sign : String} (h : op.binarySign? = some sign) :
    (Lump.ofSign sign).isBracket = false := by
  cases op <;> cases h <;> rfl

namespace Node

def joins : Node → Bool
  | .literal value => value.joins
  | .var name | .call name _ _ => nameJoins name
  | .args [value] _ => value.joins
  | _ => false

/-- Whether the text of a node that needs no parentheses is a single operand; that of no arguments
is blank. -/
def isSingle : Node → Bool
  | .literal value => value.isSingle
  | .var name | .call name _ _ => isPlainName name
  | .args [value] _ => value.isSingle
  | _ => false

variable {words : Vocabulary} {node : Node} (hwords : words.Spelled)

include hwords

theorem IsValue.matched (h : IsValue words node) : Matched (lumps node.chars) := by
  have hword (cs : List Char) {ls : List Lump} (hls : Matched ls) : Matched (.word cs :: ls) :=
    hls.cons rfl
  have hflat {ls : List Lump} (hls : ∀ l ∈ ls, l.isFlat = true) : Matched ls :=
    .of_forall fun l hl => Lump.isBracket_of_isFlat (hls l hl)
  induction h with
  | literal h =>
    rw [chars_literal]
    exact Datum.matched _ fun _ => hwords.held h
  | var h =>
    rw [chars_var]
    exact hflat (hwords.flat h)
  | @binary op left right h hleft hright ihleft ihright =>
    obtain ⟨sign, hsign⟩ := Option.isSome_iff_exists.mp h
    rw [lumps_binary hsign (hleft.paired hwords) (hright.paired hwords)]
    exact (ihleft.bracketed _).append ((ihright.bracketed _).cons (op.isBracket_ofSign hsign))
  | @unary op operand h hoperand ih =>
    have hpaired := hoperand.paired hwords
    rcases op.unarySign?_cases h with rfl | rfl
    · cases hnegative : operand.isNegative with
      | true =>
        obtain ⟨cs, -, -, hlumps⟩ := hoperand.lumps_of_isNegative hnegative
        rw [hlumps]
        exact .of_forall (by simp [Lump.isBracket])
      | false =>
        have hhead (hspaces : operand.hasSpaces = false) :=
          hoperand.head?_ne_minus hwords hspaces hnegative
        rw [lumps_inv hpaired hhead]
        exact (ih.bracketed _).cons rfl
    · rw [lumps_not hpaired]
      exact hword _ (ih.bracketed _)
  | @args values _ hvalues ih =>
    have hpaired (value : Node) (hvalue : value ∈ values) := (hvalues value hvalue).paired hwords
    have hcomma : Matched [.mark [',']] := .of_forall (by decide)
    rw [lumps_args hpaired]
    exact hcomma.intercalate (List.forall_mem_map.mpr ih)
  | @call name given h hgiven ih =>
    rw [lumps_call (hwords.paired h) (hgiven.paired hwords)]
    exact (hflat (hwords.flat h)).append ih.brackets
  | @chunk first last string unit hfirst hlast hstring ihfirst ihlast ihstring =>
    rw [lumps_chunk unit (hfirst.paired hwords) (hlast.paired hwords) (hstring.paired hwords)]
    refine hword _ ((ihfirst.bracketed _).append (.append ?_ (hword _ (ihstring.bracketed _))))
    split
    · exact .nil
    · exact hword _ (ihlast.bracketed _)

theorem IsValue.judged (h : IsValue words node) (hspaces : node.hasSpaces = false) :
    Judged (outline node.chars) node.joins node.isSingle := by
  have hflat {name : String} (hname : words.named name) :
      ∀ l ∈ lumps name.toList, l.isBracket = false :=
    fun l hl => Lump.isBracket_of_isFlat (hwords.flat hname l hl)
  induction h with
  | literal h =>
    rw [chars_literal]
    exact Datum.judged fun _ => hwords.held h
  | var h =>
    obtain ⟨cs, hcs, hname⟩ := hwords.named h
    have hjudged := judged_name hcs hname (.inl rfl)
    rw [List.append_nil] at hjudged
    rw [chars_var, outline, outer_of_forall (hflat h)]
    exact hjudged
  | args _ _ ih =>
    obtain rfl | ⟨value, rfl, hvalue⟩ := args_cases hspaces
    · exact .nil
    · rw [chars_args_singleton]
      exact ih value List.mem_cons_self hvalue
  | @call name given h hgiven _ =>
    obtain ⟨cs, hcs, hname⟩ := hwords.named h
    rw [outline, lumps_call (hwords.paired h) (hgiven.paired hwords),
      (Matched.of_forall (hflat h)).outside, outer_of_forall (hflat h),
      (hgiven.matched hwords).outer_brackets]
    exact judged_name hcs hname (.inr rfl)
  | binary | unary | chunk => cases hspaces

theorem outline_binary {op : Opcode} {sign : String} (h : op.binarySign? = some sign)
    {left right : Node} (hleft : IsValue words left) (hright : IsValue words right) :
    outline (binary op left right).chars =
      shown (left.needsParens op.level? false) (outline left.chars) ++ Lump.ofSign sign ::
        shown (right.needsParens op.level? true) (outline right.chars) := by
  rw [outline, lumps_binary h (hleft.paired hwords) (hright.paired hwords),
    ((hleft.matched hwords).bracketed _).outside, (outer_cons (op.isBracket_ofSign h) _).1,
    (hleft.matched hwords).outer_bracketed, (hright.matched hwords).outer_bracketed]
  rfl

theorem outline_not {operand : Node} (h : IsValue words operand) :
    outline (unary .not operand).chars =
      .word "not".toList :: shown operand.hasSpaces (outline operand.chars) := by
  rw [outline, lumps_not (h.paired hwords), (outer_cons rfl _).1,
    (h.matched hwords).outer_bracketed]
  rfl

theorem outline_inv {operand : Node} (h : IsValue words operand)
    (hnegative : operand.isNegative = false) :
    outline (unary .inv operand).chars =
      .mark ['-'] :: shown operand.hasSpaces (outline operand.chars) := by
  have hhead (hspaces : operand.hasSpaces = false) := h.head?_ne_minus hwords hspaces hnegative
  rw [outline, lumps_inv (h.paired hwords) hhead, (outer_cons rfl _).1,
    (h.matched hwords).outer_bracketed]
  rfl

theorem outline_chunk (unit : ChunkUnit) {first last string : Node} (hfirst : IsValue words first)
    (hlast : IsValue words last) (hstring : IsValue words string) :
    outline (chunk unit first last string).chars =
      .word unit.name.toList :: (shown first.hasSpaces (outline first.chars) ++
        ((if last.isInt 0 then []
          else .word "to".toList :: shown last.hasSpaces (outline last.chars)) ++
          .word "of".toList ::
            shown (string.stringNeedsParens unit) (outline string.chars))) := by
  rw [outline,
    lumps_chunk unit (hfirst.paired hwords) (hlast.paired hwords) (hstring.paired hwords),
    (outer_cons rfl _).1, ((hfirst.matched hwords).bracketed _).outside,
    (hfirst.matched hwords).outer_bracketed]
  have hend : outer 0 (.word "of".toList ::
      bracketed (string.stringNeedsParens unit) (lumps string.chars)) =
      .word "of".toList :: shown (string.stringNeedsParens unit) (outline string.chars) := by
    rw [(outer_cons rfl _).1, (hstring.matched hwords).outer_bracketed]
    rfl
  split
  · rw [List.nil_append, List.nil_append, hend]
    rfl
  · rw [List.cons_append, (outer_cons rfl _).1, ((hlast.matched hwords).bracketed _).outside,
      (hlast.matched hwords).outer_bracketed, hend]
    rfl

end Node

/-! ### Places for operands -/

namespace Node

def view (ending : String) (node : Node) : List Lump := outline (node.text ending).toList

theorem IsValue.view_eq {words : Vocabulary} {node : Node} (h : IsValue words node)
    (ending : String) : node.view ending = outline node.chars := by
  rw [view, toList_text h.all_isText]

theorem needsParens_of_hasSpaces {node : Node} (h : node.hasSpaces = false) (outer : Option Nat)
    (onRight : Bool) : node.needsParens outer onRight = false := by
  cases node with
  | binary | chunk => cases h
  | _ => rfl

theorem stringNeedsParens_of_hasSpaces {node : Node} (h : node.hasSpaces = false)
    (unit : ChunkUnit) : node.stringNeedsParens unit = false := by
  cases node with
  | chunk => cases h
  | _ => exact h

end Node

/-- A place for an operand in an operation or a chunk, with the other operands in theirs. -/
inductive Seat where
  | left (op : Opcode) (right : Node)
  | right (op : Opcode) (left : Node)
  | under (op : Opcode)
  | first (unit : ChunkUnit) (last string : Node)
  | last (unit : ChunkUnit) (first string : Node)
  | string (unit : ChunkUnit) (first last : Node)

namespace Seat

def fill : Seat → Node → Node
  | .left op other, node => .binary op node other
  | .right op other, node => .binary op other node
  | .under op, node => .unary op node
  | .first unit bound whole, node => .chunk unit node bound whole
  | .last unit bound whole, node => .chunk unit bound node whole
  | .string unit bound bound', node => .chunk unit bound bound' node

def Fits (words : Vocabulary) : Seat → Prop
  | .left op other | .right op other => op.isBinary = true ∧ other.IsValue words
  | .under op => op.unarySign?.isSome = true
  | .first _ other other' | .last _ other other' | .string _ other other' =>
    other.IsValue words ∧ other'.IsValue words

/-- A last bound is not written if it is zero. -/
def Shows : Seat → Node → Prop
  | .last .., node => node.isInt 0 = false
  | _, _ => True

section

variable (ending : String)

def upTo (bound : Node) : List Lump :=
  if bound.isInt 0 then []
  else .word "to".toList :: shown bound.hasSpaces (bound.view ending)

def before : Seat → List Lump
  | .left .. => []
  | .right op other =>
    shown (other.needsParens op.level? false) (other.view ending) ++
      [Lump.ofSign (op.binarySign?.getD "")]
  | .under op => if op = .inv then [.mark ['-']] else [.word "not".toList]
  | .first unit _ _ => [.word unit.name.toList]
  | .last unit bound _ =>
    .word unit.name.toList :: (shown bound.hasSpaces (bound.view ending) ++ [.word "to".toList])
  | .string unit bound bound' =>
    .word unit.name.toList :: (shown bound.hasSpaces (bound.view ending) ++
      (upTo ending bound' ++ [.word "of".toList]))

def behind : Seat → List Lump
  | .left op other =>
    Lump.ofSign (op.binarySign?.getD "") ::
      shown (other.needsParens op.level? true) (other.view ending)
  | .right .. | .under _ | .string .. => []
  | .first unit bound whole =>
    upTo ending bound ++
      .word "of".toList :: shown (whole.stringNeedsParens unit) (whole.view ending)
  | .last unit _ whole =>
    .word "of".toList :: shown (whole.stringNeedsParens unit) (whole.view ending)

end

/-- The whole node is the operand that the text has in a place: it shows as a single operand, and
next to it stand the signs and words of the operation. -/
def Keeps (ending : String) (seat : Seat) (node : Node) : Prop :=
  IsOperand (node.view ending) ∧
    (seat.fill node).view ending = seat.before ending ++ node.view ending ++ seat.behind ending

variable {words : Vocabulary} {seat : Seat} {node : Node}

theorem isValue_fill (hseat : seat.Fits words) (h : node.IsValue words) :
    (seat.fill node).IsValue words := by
  cases seat with
  | left => exact .binary hseat.1 h hseat.2
  | right => exact .binary hseat.1 hseat.2 h
  | under => exact .unary hseat h
  | first unit => exact .chunk unit h hseat.1 hseat.2
  | last unit => exact .chunk unit hseat.1 h hseat.2
  | string unit => exact .chunk unit hseat.1 hseat.2 h

theorem view_fill (hwords : words.Spelled) (hseat : seat.Fits words) (h : node.IsValue words)
    (hspaces : node.hasSpaces = false) (hshows : seat.Shows node)
    (hminus : ¬(seat = .under .inv ∧ node.isNegative = true)) (ending : String) :
    (seat.fill node).view ending =
      seat.before ending ++ node.view ending ++ seat.behind ending := by
  rw [(isValue_fill hseat h).view_eq, h.view_eq]
  cases seat with
  | left op other =>
    obtain ⟨sign, hsign⟩ := Option.isSome_iff_exists.mp hseat.1
    rw [fill, Node.outline_binary hwords hsign h hseat.2, Node.needsParens_of_hasSpaces hspaces,
      before, behind, hsign, hseat.2.view_eq]
    rfl
  | right op other =>
    obtain ⟨sign, hsign⟩ := Option.isSome_iff_exists.mp hseat.1
    rw [fill, Node.outline_binary hwords hsign hseat.2 h, Node.needsParens_of_hasSpaces hspaces,
      before, behind, hsign, hseat.2.view_eq]
    simp [shown]
  | under op =>
    rcases op.unarySign?_cases hseat with rfl | rfl
    · have hnegative : node.isNegative = false :=
        Bool.eq_false_iff.mpr fun htrue => hminus ⟨rfl, htrue⟩
      rw [fill, Node.outline_inv hwords h hnegative, hspaces]
      simp [shown, before, behind]
    · rw [fill, Node.outline_not hwords h, hspaces]
      simp [shown, before, behind]
  | first unit bound whole =>
    rw [fill, Node.outline_chunk hwords unit h hseat.1 hseat.2, hspaces, before, behind, upTo,
      hseat.1.view_eq, hseat.2.view_eq]
    rfl
  | last unit bound whole =>
    have hshows : node.isInt 0 = false := hshows
    rw [fill, Node.outline_chunk hwords unit hseat.1 h hseat.2, hspaces, before, behind,
      hseat.1.view_eq, hseat.2.view_eq, hshows]
    simp [shown]
  | string unit bound bound' =>
    rw [fill, Node.outline_chunk hwords unit hseat.1 hseat.2 h, before, behind, upTo,
      Node.stringNeedsParens_of_hasSpaces hspaces, hseat.1.view_eq, hseat.2.view_eq]
    simp [shown]

theorem keeps_iff (hwords : words.Spelled) (hseat : seat.Fits words) (h : node.IsValue words)
    (hspaces : node.hasSpaces = false) (hshows : seat.Shows node) (ending : String) :
    seat.Keeps ending node ↔
      node.isSingle = true ∧ ¬(seat = .under .inv ∧ node.isNegative = true) := by
  have hjudged := h.judged hwords hspaces
  rw [← h.view_eq ending] at hjudged
  rw [Keeps, hjudged.isOperand_iff]
  refine and_congr_right fun _ => ⟨?_, fun hminus =>
    view_fill hwords hseat h hspaces hshows hminus ending⟩
  rintro hview ⟨rfl, hnegative⟩
  -- The two minuses are read as one mark.
  obtain ⟨cs, -, hlumps, hdouble⟩ := h.lumps_of_isNegative hnegative
  rw [(isValue_fill hseat h).view_eq, h.view_eq, fill, outline, outline, hlumps, hdouble] at hview
  cases hview

end Seat

/-- An expression that the code leaves on the stack and that needs no parentheses shows a sign if
and only if it has a string with a quote in it, or a name that is a sign or has a negative number.
In any place for an operand, the whole of it is the operand if it has neither, its text is not
blank and it is not named by a reserved word, unless it is a negative number behind a minus. -/
theorem Frame.bare_operand_iff (f : Frame)
    (h : ∀ name ∈ f.names, Grammar.isIdentifier name.toList = true) (code : List Instruction)
    {node : Node} (hmem : node ∈ (Machine.runAll f code {}).stack)
    (hspaces : node.hasSpaces = false) (ending : String) :
    (HasInfix (node.view ending) ↔ node.joins = true) ∧
      ∀ seat : Seat, seat.Fits f.vocabulary → seat.Shows node →
        (seat.Keeps ending node ↔
          node.isSingle = true ∧ ¬(seat = .under .inv ∧ node.isNegative = true)) := by
  have hwords := spelled_vocabulary h
  have hnode := Machine.valued_runAll f code f.valued_start node hmem
  have hjudged := hnode.judged hwords hspaces
  rw [← hnode.view_eq ending] at hjudged
  exact ⟨hjudged.hasInfix_iff,
    fun seat hseat hshows => seat.keeps_iff hwords hseat hnode hspaces hshows ending⟩

def firstCharCode : List Instruction :=
  [.ofByte 0x41 1 0, .ofByte 0x03 0 2, .ofByte 0x03 0 3, .ofByte 0x03 0 4, .ofByte 0x03 0 5,
    .ofByte 0x03 0 6, .ofByte 0x03 0 7, .ofByte 0x03 0 8, .ofByte 0x44 0 9]

def Frame.firstChar (s : String) : Frame :=
  ofCode [.string s] (firstCharCode ++ [.ofByte 0x17 0 11, .ofByte 0x4F 1 12, .ofByte 0x01 0 14])

def Seat.firstChar : Seat := .string .char (.literal (.int 1)) (.literal (.int 0))

theorem Frame.bare_operand_inQuotes :
    (∀ name ∈ (firstChar "1 of a & b").names, Grammar.isIdentifier name.toList = true) ∧
      .literal (.string "1 of a & b") ∈
        (Machine.runAll (firstChar "1 of a & b") firstCharCode {}).stack ∧
      (Node.literal (.string "1 of a & b")).hasSpaces = false ∧
      (Seat.firstChar.fill (.literal (.string "1 of a & b"))).text "\n" =
        "char 1 of \"1 of a & b\"" ∧
      ¬HasInfix ((Node.literal (.string "1 of a & b")).view "\n") ∧
      Seat.firstChar.Keeps "\n" (.literal (.string "1 of a & b")) := by
  have hnames : ∀ name ∈ (firstChar "1 of a & b").names,
      Grammar.isIdentifier name.toList = true := by decide
  have hmem : .literal (.string "1 of a & b") ∈
      (Machine.runAll (firstChar "1 of a & b") firstCharCode {}).stack := List.mem_cons_self
  obtain ⟨hshown, hkeeps⟩ :=
    (firstChar "1 of a & b").bare_operand_iff hnames firstCharCode hmem rfl "\n"
  have hfits : Seat.firstChar.Fits (firstChar "1 of a & b").vocabulary :=
    ⟨.literal (.int 1), .literal (.int 0)⟩
  refine ⟨hnames, hmem, rfl, by decide +kernel, ?_, (hkeeps _ hfits trivial).mpr ⟨rfl, ?_⟩⟩
  · rw [hshown]
    decide
  · rintro ⟨hseat, -⟩
    cases hseat

/-- A string with a quote in it is joined from pieces, and the character is taken of the first. -/
theorem Frame.bare_operand_joined :
    (∀ name ∈ (firstChar "say \"hi\"").names, Grammar.isIdentifier name.toList = true) ∧
      .literal (.string "say \"hi\"") ∈
        (Machine.runAll (firstChar "say \"hi\"") firstCharCode {}).stack ∧
      (Node.literal (.string "say \"hi\"")).hasSpaces = false ∧
      (firstChar "say \"hi\"").routine.statements =
        [.assign (.var "x") (Seat.firstChar.fill (.literal (.string "say \"hi\"")))] ∧
      (firstChar "say \"hi\"").routine.statements.map (·.text "\n") =
        ["x = char 1 of \"say \" & QUOTE & \"hi\" & QUOTE"] ∧
      HasInfix ((Node.literal (.string "say \"hi\"")).view "\n") ∧
      ¬Seat.firstChar.Keeps "\n" (.literal (.string "say \"hi\"")) := by
  have hview : (Node.literal (.string "say \"hi\"")).view "\n" =
      [.quoted, .mark ['&'], .word "QUOTE".toList, .mark ['&'], .quoted, .mark ['&'],
        .word "QUOTE".toList] := by
    decide +kernel
  have hshown : HasInfix ((Node.literal (.string "say \"hi\"")).view "\n") :=
    ⟨[.quoted], .mark ['&'], _, hview, ⟨.joinStr, "&", rfl, rfl⟩, by simp⟩
  refine ⟨by decide, List.mem_cons_self, rfl, rfl, by decide +kernel, hshown, ?_⟩
  exact fun hkeeps => hkeeps.1.not_hasInfix hshown

end Shockwave
