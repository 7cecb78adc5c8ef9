import Shockwave.Movie.Read
import Shockwave.Proofs.Lines
import Shockwave.Proofs.Printing
import Shockwave.Proofs.StringLiterals
import Shockwave.Proofs.Words

/-!
Where a line of source can break. Signs, numbers and the names of a movie hold no line break, so
those in a statement are the ones in its literals: a string is written as it is, but for its quotes.
-/
namespace Shockwave

def isBreak (c : Char) : Bool := c == '\r' || c == '\n'

def breaksIn (s : String) : List Char := s.toList.filter isBreak

section

variable {s : String}

@[simp] theorem breaksIn_append (left right : String) :
    breaksIn (left ++ right) = breaksIn left ++ breaksIn right := by
  simp [breaksIn]

@[simp] theorem breaksIn_ofList (chars : List Char) :
    breaksIn (String.ofList chars) = chars.filter isBreak := by
  simp [breaksIn]

theorem breaksIn_join (texts : List String) :
    breaksIn (String.join texts) = texts.flatMap breaksIn := by
  simp [breaksIn, List.filter_flatMap]
  rfl

theorem breaksIn_eq_nil_iff : breaksIn s = [] ↔ ∀ c ∈ s.toList, isBreak c = false := by
  simp [breaksIn, List.filter_eq_nil_iff]

theorem breaksIn_intercalate (hs : breaksIn s = []) (texts : List String) :
    breaksIn (String.intercalate s texts) = texts.flatMap breaksIn := by
  induction texts with
  | nil => rfl
  | cons text texts ih =>
    cases texts with
    | nil => simp
    | cons next rest => simp [String.intercalate_cons_cons, hs, ih]

end

theorem filter_toDigits {base : Nat} (hbase : 1 < base) (hle : base ≤ 16) (n : Nat) :
    (Nat.toDigits base n).filter isBreak = [] := by
  have hdigit : ∀ n < 16, isBreak (Nat.digitChar n) = false := by decide
  induction n using Nat.strongRecOn with
  | ind n ih =>
    rw [Nat.toDigits_eq_if hbase]
    split
    next hlt => simp [hdigit n (by omega)]
    next hge =>
      have hrest := ih (n / base) (Nat.div_lt_self (by omega) hbase)
      have hmod := Nat.mod_lt n (show base > 0 by omega)
      simp [hrest, hdigit (n % base) (by omega)]

@[simp] theorem breaksIn_toString (s : String) : breaksIn (toString s) = breaksIn s := rfl

@[simp] theorem breaksIn_nat (n : Nat) : breaksIn n.repr = [] := by
  rw [breaksIn, Nat.toList_repr]
  exact filter_toDigits (by decide) (by decide) n

@[simp] theorem breaksIn_int (n : Int) : breaksIn n.repr = [] := by
  have hminus : breaksIn "-" = [] := rfl
  rw [Int.repr_eq_if]
  split <;> simp [hminus]

theorem Hex.breaksIn_byte (op : UInt8) : breaksIn (Hex.byte op) = [] := by
  have hdigits : breaksIn (Hex.digits op.toNat) = [] := by
    rw [Hex.digits, breaksIn_ofList, filter_toDigits (by decide) (by decide)]
  have hmark : breaksIn "0x" = [] := rfl
  have hzero : breaksIn "0x0" = [] := rfl
  unfold Hex.byte
  split <;> simp [Hex.number, hdigits, hmark, hzero]

theorem isBreak_of_isWordChar {c : Char} (h : isWordChar c = true) : isBreak c = false := by
  have hreturn : isWordChar '\r' = false := by decide
  have hfeed : isWordChar '\n' = false := by decide
  rw [isBreak, Bool.or_eq_false_iff, beq_eq_false_iff_ne, beq_eq_false_iff_ne]
  constructor
  · rintro rfl
    exact Bool.false_ne_true (hreturn.symm.trans h)
  · rintro rfl
    exact Bool.false_ne_true (hfeed.symm.trans h)

theorem Binary64.breaksIn_text (x : Binary64) : breaksIn x.text = [] := by
  obtain ⟨cs, hcs, htext⟩ := x.toList_text
  have hfree (c : Char) (hc : c ∈ cs) : isBreak c = false := isBreak_of_isWordChar (hcs.all c hc)
  rw [breaksIn_eq_nil_iff, htext, signed]
  split
  · exact List.forall_mem_cons.mpr ⟨rfl, hfree⟩
  · exact hfree

namespace Quoted

theorem breaksIn_pieces (chars : List Char) :
    ((pieces chars).map Piece.text).flatMap breaksIn = chars.filter isBreak := by
  have hquote : breaksIn "\"" = [] := rfl
  have hrun (run : List Char) : breaksIn (Piece.run run).text = run.filter isBreak := by
    simp [Piece.text, hquote]
  fun_induction pieces chars with
  | case1 => rfl
  | case2 text ih =>
    have hword : breaksIn (Piece.quote).text = [] := rfl
    rw [List.map_cons, List.flatMap_cons, hword, ih]
    rfl
  | case3 c text hc run rest hpieces ih =>
    rw [hpieces] at ih
    simp only [List.map_cons, List.flatMap_cons, hrun, List.filter_cons] at ih ⊢
    rw [← ih]
    split <;> simp
  | case4 c text hc hother ih =>
    simp only [List.map_cons, List.flatMap_cons, hrun, List.filter_cons, ih]
    split <;> simp

theorem breaksIn_literal (s : String) : breaksIn (literal s) = breaksIn s := by
  unfold literal
  split
  next hempty =>
    rw [String.isEmpty_iff.mp hempty]
    rfl
  next =>
    rw [breaksIn_intercalate rfl, breaksIn_pieces]
    rfl

end Quoted

namespace Datum

mutual

def breaks : Datum → List Char
  | .symbol text | .varRef text | .string text => breaksIn text
  | .list items => breaksOf items
  | .void | .int _ | .float _ => []

def breaksOf : List Datum → List Char
  | [] => []
  | item :: items => item.breaks ++ breaksOf items

end

mutual

theorem breaksIn_text : (value : Datum) → breaksIn value.text = value.breaks
  | .void => rfl
  | .symbol name => by
    have hmark : breaksIn "#" = [] := rfl
    rw [text, breaksIn_append, hmark, List.nil_append, breaks]
  | .varRef name => by rw [text, breaks]
  | .string value => by rw [text, Quoted.breaksIn_literal, breaks]
  | .int value => by
    rw [text, breaks]
    exact breaksIn_int value.toInt
  | .float value => by rw [text, breaks, Binary64.breaksIn_text]
  | .list items => by
    have hopen : breaksIn "[" = [] := rfl
    have hclose : breaksIn "]" = [] := rfl
    rw [text, breaksIn_append, breaksIn_append, hopen, hclose, breaksIn_intercalate rfl,
      breaksIn_texts items, List.nil_append, List.append_nil, breaks]

theorem breaksIn_texts : (items : List Datum) → (texts items).flatMap breaksIn = breaksOf items
  | [] => rfl
  | item :: items => by
    rw [texts, List.flatMap_cons, breaksIn_text item, breaksIn_texts items, breaksOf]

end

theorem breaksOf_eq_nil {items : List Datum} (h : ∀ item ∈ items, item.breaks = []) :
    breaksOf items = [] := by
  induction items with
  | nil => rfl
  | cons item items ih =>
    obtain ⟨hitem, hrest⟩ := List.forall_mem_cons.mp h
    rw [breaksOf, hitem, ih hrest, List.nil_append]

end Datum

namespace Node

mutual

def literals : Node → List Datum
  | .literal value => [value]
  | .block statements => literalsIn statements
  | .binary _ left right => left.literals ++ right.literals
  | .unary _ operand => operand.literals
  | .assign target value => target.literals ++ value.literals
  | .args values _ => literalsIn values
  | .call _ given _ => given.literals
  | .retValue value => value.literals
  | .chunk _ first last string => first.literals ++ last.literals ++ string.literals
  | .var _ | .ret | .unknown .. => []

def literalsIn : List Node → List Datum
  | [] => []
  | node :: nodes => node.literals ++ literalsIn nodes

end

def pieceBreaks (pieces : List Piece) : List Char :=
  pieces.flatMap fun piece => breaksIn piece.content

@[simp] theorem pieceBreaks_nil : pieceBreaks [] = [] := rfl

@[simp] theorem pieceBreaks_text (s : String) (pieces : List Piece) :
    pieceBreaks (.text s :: pieces) = breaksIn s ++ pieceBreaks pieces := rfl

@[simp] theorem pieceBreaks_append (left right : List Piece) :
    pieceBreaks (left ++ right) = pieceBreaks left ++ pieceBreaks right := by
  simp [pieceBreaks]

@[simp] theorem pieceBreaks_inParens (wanted : Bool) (pieces : List Piece) :
    pieceBreaks (inParens wanted pieces) = pieceBreaks pieces := by
  have hopen : breaksIn "(" = [] := rfl
  have hclose : breaksIn ")" = [] := rfl
  cases wanted <;> simp [inParens, hopen, hclose]

variable {words : Vocabulary} {node : Node}

theorem pieceBreaks_listPieces {nodes : List Node}
    (h : ∀ node ∈ nodes, pieceBreaks node.pieces = node.literals.flatMap Datum.breaks) :
    pieceBreaks (listPieces nodes) = (literalsIn nodes).flatMap Datum.breaks := by
  have hcomma : breaksIn ", " = [] := rfl
  induction nodes with
  | nil => rfl
  | cons node nodes ih =>
    obtain ⟨hnode, hrest⟩ := List.forall_mem_cons.mp h
    have hrest := ih hrest
    cases nodes with
    | nil =>
      rw [listPieces, hnode, literalsIn, literalsIn, List.append_nil]
    | cons next rest =>
      rw [listPieces, literalsIn]
      · simp [hnode, hrest, hcomma]
      · simp

theorem breaks_of_isInt {value : Int32} (h : node.isInt value = true) :
    node.literals.flatMap Datum.breaks = [] := by
  rw [Grammar.eq_of_isInt h]
  rfl

theorem IsValue.pieceBreaks_eq (h : IsValue words node)
    (hnamed : ∀ name, words.named name → breaksIn name = []) :
    pieceBreaks node.pieces = node.literals.flatMap Datum.breaks := by
  have hspace : breaksIn " " = [] := rfl
  induction h with
  | literal => simp [pieces, literals, Datum.breaksIn_text]
  | var h => simp [pieces, literals, hnamed _ h]
  | @binary op _ _ _ _ _ ihleft ihright =>
    have hsign : breaksIn (op.binarySign?.getD "?") = [] := by cases op <;> rfl
    simp [pieces, literals, hspace, hsign, ihleft, ihright]
  | @unary op _ _ _ ih =>
    have hsign : breaksIn (op.unarySign?.getD "?") = [] := by cases op <;> rfl
    simp [pieces, literals, hsign, ih]
  | args _ _ ih =>
    rw [pieces, literals]
    exact pieceBreaks_listPieces ih
  | call h _ ih =>
    have hopen : breaksIn "(" = [] := rfl
    have hclose : breaksIn ")" = [] := rfl
    simp [pieces, literals, hopen, hclose, hnamed _ h, ih]
  | @chunk first last string unit _ _ _ ihfirst ihlast ihstring =>
    have hunit : breaksIn unit.name = [] := by cases unit <;> rfl
    have hto : breaksIn " to " = [] := rfl
    have hof : breaksIn " of " = [] := rfl
    rw [pieces, literals]
    split
    next hzero =>
      simp [hunit, hspace, hof, ihfirst, ihstring, breaks_of_isInt hzero]
    next => simp [hunit, hspace, hto, hof, ihfirst, ihlast, ihstring]

theorem IsStatement.breaksIn_text (h : IsStatement words node)
    (hnamed : ∀ name, words.named name → breaksIn name = []) (ending : String) :
    breaksIn (node.text ending) = node.literals.flatMap Datum.breaks := by
  have hpieces : breaksIn (node.text ending) = pieceBreaks node.pieces := by
    rw [h.text_eq, breaksIn_join, List.flatMap_map, pieceBreaks]
  rw [hpieces]
  cases h with
  | assign hname hvalue =>
    have hequals : breaksIn " = " = [] := rfl
    simp [pieces, literals, hequals, hnamed _ hname, hvalue.pieceBreaks_eq hnamed]
  | @call name values hname hvalues =>
    have hargs := (IsValue.args true hvalues).pieceBreaks_eq hnamed
    have hspace : breaksIn " " = [] := rfl
    rw [pieces, literals]
    cases values with
    | nil => simp [isNoArgs, literals, literalsIn, hnamed _ hname]
    | cons value values => simp [isNoArgs, hnamed _ hname, hspace, hargs]
  | ret => rfl
  | retValue hvalue =>
    have hreturn : breaksIn "return " = [] := rfl
    simp [pieces, literals, hreturn, hvalue.pieceBreaks_eq hnamed]
  | unknown op operand =>
    have hunknown : breaksIn "-- unknown opcode " = [] := rfl
    have hspace : breaksIn " " = [] := rfl
    rw [pieces]
    split <;> simp [literals, hunknown, hspace, Hex.breaksIn_byte]

theorem IsValue.held_of_mem (h : IsValue words node) :
    ∀ value ∈ node.literals, words.held value := by
  induction h with
  | literal h => simpa [literals] using h
  | var => simp [literals]
  | binary _ _ _ ihleft ihright =>
    rw [literals]
    exact List.forall_mem_append.mpr ⟨ihleft, ihright⟩
  | unary _ _ ih => rwa [literals]
  | @args values _ hvalues ih =>
    rw [literals]
    induction values with
    | nil => simp [literalsIn]
    | cons first rest ihrest =>
      obtain ⟨hfirst, hothers⟩ := List.forall_mem_cons.mp ih
      have hrest := ihrest (List.forall_mem_cons.mp hvalues).2 hothers
      rw [literalsIn]
      exact List.forall_mem_append.mpr ⟨hfirst, hrest⟩
  | call _ _ ih => rwa [literals]
  | chunk _ _ _ _ ihfirst ihlast ihstring =>
    rw [literals]
    exact List.forall_mem_append.mpr ⟨List.forall_mem_append.mpr ⟨ihfirst, ihlast⟩, ihstring⟩

theorem IsStatement.held_of_mem (h : IsStatement words node) :
    ∀ value ∈ node.literals, words.held value := by
  cases h with
  | assign _ hvalue =>
    rw [literals, literals, List.nil_append]
    exact hvalue.held_of_mem
  | call _ hvalues =>
    rw [literals]
    exact (IsValue.args true hvalues).held_of_mem
  | retValue hvalue =>
    rw [literals]
    exact hvalue.held_of_mem
  | ret | unknown => simp [literals]

end Node

/-- The lines that a reader sees: each ends with a carriage return, a line feed, or one behind the
other, or with the text. -/
def physical : List Char → List (List Char)
  | [] => []
  | '\r' :: '\n' :: rest => [] :: physical rest
  | c :: rest =>
    if isBreak c then [] :: physical rest
    else match physical rest with
      | [] => [[c]]
      | line :: lines => (c :: line) :: lines

def physicalLines (text : String) : List String := (physical text.toList).map String.ofList

/-- A line feed behind a line that ends with a carriage return would belong to its ending. -/
theorem physical_line (ending : LineEnding) {line rest : List Char}
    (hline : ∀ c ∈ line, isBreak c = false) (hrest : ending = .cr → rest.head? ≠ some '\n') :
    physical (line ++ (ending.text.toList ++ rest)) = line :: physical rest := by
  induction line with
  | nil =>
    cases ending with
    | lf => rfl
    | crlf => rfl
    | cr =>
      have hstart := hrest rfl
      change physical ('\r' :: rest) = _
      rw [physical]
      · rfl
      · rintro others - rfl
        exact hstart rfl
  | cons c line ih =>
    obtain ⟨hc, hothers⟩ := List.forall_mem_cons.mp hline
    rw [List.cons_append, physical]
    · rw [hc, ih hothers]
      rfl
    · rintro others rfl
      cases hc

theorem toList_closed (ending : String) (lines : List String) :
    (closed ending lines).toList =
      lines.flatMap fun line => line.toList ++ ending.toList := by
  simp [closed, List.flatMap_map]

theorem physicalLines_closed (ending : LineEnding) {lines : List String}
    (h : ∀ line ∈ lines, breaksIn line = []) :
    physicalLines (closed ending.text lines) = lines := by
  unfold physicalLines
  rw [toList_closed]
  induction lines with
  | nil => rfl
  | cons line lines ih =>
    obtain ⟨hline, hlines⟩ := List.forall_mem_cons.mp h
    rw [List.flatMap_cons, List.append_assoc,
      physical_line ending (breaksIn_eq_nil_iff.mp hline) ?_, List.map_cons, ih hlines,
      String.ofList_toList]
    -- What follows starts with a character of the next line, or with its carriage return.
    rintro rfl
    cases lines with
    | nil => simp
    | cons next rest =>
      have hnext := breaksIn_eq_nil_iff.mp (List.forall_mem_cons.mp hlines).1
      rw [List.flatMap_cons]
      cases hchars : next.toList with
      | nil => simp [LineEnding.text]
      | cons c chars =>
        rw [hchars] at hnext
        have hc := hnext c List.mem_cons_self
        simp only [List.cons_append, List.head?_cons, ne_eq, Option.some.injEq]
        rintro rfl
        cases hc

theorem breaksIn_getD {name? : Option String} {other : String}
    (h : ∀ name, name? = some name → breaksIn name = []) (hother : breaksIn other = []) :
    breaksIn (name?.getD other) = [] := by
  cases name? with
  | none => exact hother
  | some name => exact h name rfl

theorem Scope.breaksIn_of_name? {scope : Scope} (h : ∀ name ∈ scope.names, breaksIn name = [])
    {id : Int} (name : String) (hid : scope.name? id = some name) : breaksIn name = [] := by
  unfold Scope.name? at hid
  split at hid
  · cases hid
  · exact h name (List.mem_of_getElem? hid)

section

variable {f : Frame}

theorem Frame.breaksIn_of_gives (h : ∀ name ∈ f.scope.names, breaksIn name = []) {name : String}
    (hname : f.Gives name) : breaksIn name = [] := by
  have hlisted (id? : Option UInt16) (name : String)
      (hid : (id?.bind fun id => f.scope.name? id.toNat) = some name) : breaksIn name = [] := by
    obtain ⟨id, -, hid⟩ := Option.bind_eq_some_iff.mp hid
    exact Scope.breaksIn_of_name? h name hid
  have hnamed (id : Int) : breaksIn (f.name id) = [] := by
    have hunknown : breaksIn "UNKNOWN_" = [] := rfl
    exact breaksIn_getD (Scope.breaksIn_of_name? h) (by simp [hunknown])
  cases hname with
  | name id => exact hnamed id
  | localVar operand =>
    have hlocal : breaksIn "local_" = [] := rfl
    exact breaksIn_getD (hlisted _) (by simp [hlocal])
  | argument operand =>
    have harg : breaksIn "arg_" = [] := rfl
    exact breaksIn_getD (hlisted _) (by simp [harg])
  | handler index =>
    have hhandler : breaksIn "handler_" = [] := rfl
    refine breaksIn_getD (fun name hname => ?_) (by simp [hhandler])
    obtain ⟨handler, -, hid⟩ := Option.bind_eq_some_iff.mp hname
    exact Scope.breaksIn_of_name? h name hid
  | property id =>
    have hthe : breaksIn "the " = [] := rfl
    rw [breaksIn_append, hthe, hnamed, List.nil_append]

theorem Frame.breaks_of_supplies (h : ∀ name ∈ f.scope.names, breaksIn name = [])
    (hliterals : ∀ value ∈ f.script.literals, value.breaks = []) {value : Datum}
    (hvalue : f.Supplies value) : value.breaks = [] := by
  induction hvalue with
  | stored h => exact hliterals _ h
  | void | int | float => rfl
  | symbol id => exact f.breaksIn_of_gives h (.name id)
  | varRef id => exact f.breaksIn_of_gives h (.name id)
  | list _ ih => exact Datum.breaksOf_eq_nil ih

end

namespace Routine

/-- Each statement of a handler stands on one line of its own between the others, whatever the lines
end with. -/
structure OneLineEach (r : Routine) : Prop where
  unbroken : ∀ statement ∈ r.statements, ∀ ending, breaksIn (statement.text ending) = []
  lines_eq : ∀ ending : LineEnding, physicalLines (render ending.text r.pieces) = r.lines
  count_eq : ∀ ending : LineEnding, (physicalLines (render ending.text r.pieces)).length =
    r.statements.length + r.globalLines.length + 2

theorem length_lines (r : Routine) :
    r.lines.length = r.statements.length + r.globalLines.length + 2 := by
  simp only [lines, List.length_append, List.length_cons, List.length_map, List.length_nil]
  omega

theorem breaksIn_indented (depth : Nat) {line : String} (h : breaksIn line = []) :
    breaksIn (indented depth line) = [] := by
  have hmargin : breaksIn "  " = [] := rfl
  unfold indented
  split
  · rfl
  · simp [breaksIn_join, h, hmargin]

theorem breaksIn_names {before : String} (hbefore : breaksIn before = []) {names : List String}
    (h : ∀ name ∈ names, breaksIn name = []) :
    breaksIn (before ++ String.intercalate ", " names) = [] := by
  rw [breaksIn_append, hbefore, breaksIn_intercalate rfl, List.nil_append,
    List.flatMap_eq_nil_iff]
  exact h

theorem breaksIn_lines {r : Routine} (hname : breaksIn r.name = [])
    (harguments : ∀ name ∈ r.arguments, breaksIn name = [])
    (hglobals : ∀ name ∈ r.globals, breaksIn name = [])
    (hstatements : ∀ statement ∈ r.statements, breaksIn (statement.text "") = []) :
    ∀ line ∈ r.lines, breaksIn line = [] := by
  have hheading : breaksIn r.heading = [] := by
    have hon : breaksIn "on " = [] := rfl
    unfold heading
    rw [breaksIn_append, breaksIn_append, hon, hname]
    split
    · rfl
    · exact breaksIn_names rfl harguments
  have hglobal : ∀ line ∈ r.globalLines, breaksIn line = [] := by
    unfold globalLines
    split
    · simp
    · simpa using breaksIn_names rfl hglobals
  unfold lines
  intro line hline
  rcases List.mem_append.mp hline with hfront | hend
  · rcases List.mem_cons.mp hfront with rfl | hbody
    · exact hheading
    · obtain ⟨inner, hinner, rfl⟩ := List.mem_map.mp hbody
      apply breaksIn_indented
      rcases List.mem_append.mp hinner with hmem | hmem
      · exact hglobal inner hmem
      · obtain ⟨statement, hstatement, rfl⟩ := List.mem_map.mp hmem
        exact hstatements statement hstatement
  · rw [List.mem_singleton.mp hend]
    rfl

end Routine

namespace Frame

theorem breaksIn_routine_lines {f : Frame} (h : ∀ name ∈ f.scope.names, breaksIn name = [])
    (hstatements : ∀ statement ∈ f.routine.statements, breaksIn (statement.text "") = []) :
    ∀ line ∈ f.routine.lines, breaksIn line = [] := by
  refine Routine.breaksIn_lines ?_ ?_ ?_ hstatements
  · have hhandler : breaksIn "handler_" = [] := rfl
    exact breaksIn_getD (Scope.breaksIn_of_name? h) (by simp [hhandler])
  · intro name hname
    obtain ⟨⟨id, i⟩, -, rfl⟩ := List.mem_map.mp hname
    have harg : breaksIn "arg_" = [] := rfl
    exact breaksIn_getD (Scope.breaksIn_of_name? h) (by simp [harg])
  · intro name hname
    obtain ⟨id, -, hid⟩ := List.mem_filterMap.mp hname
    exact Scope.breaksIn_of_name? h name hid

/-- Where no name of the movie holds a line break, the statements of a handler stand on one line
each exactly when no literal in them holds one, as when none of the script's literals does. -/
theorem oneLineEach_iff (f : Frame) (h : ∀ name ∈ f.scope.names, breaksIn name = []) :
    (f.routine.OneLineEach ↔ ∀ statement ∈ f.routine.statements,
      ∀ value ∈ statement.literals, value.breaks = []) ∧
      ((∀ value ∈ f.script.literals, value.breaks = []) → f.routine.OneLineEach) := by
  have hshape : ∀ statement ∈ f.routine.statements, statement.IsStatement f.vocabulary :=
    fun statement hstatement => f.isStatement_of_mem hstatement
  have hbreaks : ∀ statement ∈ f.routine.statements, ∀ ending,
      breaksIn (statement.text ending) = statement.literals.flatMap Datum.breaks :=
    fun statement hstatement =>
      (hshape statement hstatement).breaksIn_text fun name => f.breaksIn_of_gives h
  have hiff : f.routine.OneLineEach ↔ ∀ statement ∈ f.routine.statements,
      ∀ value ∈ statement.literals, value.breaks = [] := by
    constructor
    · intro hlines statement hstatement
      have hnone := hlines.unbroken statement hstatement ""
      rw [hbreaks statement hstatement] at hnone
      exact List.flatMap_eq_nil_iff.mp hnone
    · intro hliterals
      have hunbroken : ∀ statement ∈ f.routine.statements, ∀ ending,
          breaksIn (statement.text ending) = [] := by
        intro statement hstatement ending
        rw [hbreaks statement hstatement]
        exact List.flatMap_eq_nil_iff.mpr (hliterals statement hstatement)
      have hlines (ending : LineEnding) :
          physicalLines (render ending.text f.routine.pieces) = f.routine.lines := by
        rw [(Routine.sets_pieces hshape).render_eq]
        exact physicalLines_closed ending
          (breaksIn_routine_lines h fun statement hstatement => hunbroken statement hstatement "")
      exact ⟨hunbroken, hlines, fun ending => by rw [hlines, Routine.length_lines]⟩
  refine ⟨hiff, fun hpool => hiff.mpr fun statement hstatement value hvalue => ?_⟩
  exact f.breaks_of_supplies h hpool ((hshape statement hstatement).held_of_mem value hvalue)

end Frame

def literalFrame (value : Datum) : Frame :=
  { handler := { nameId := 0, arguments := [], locals := [], globals := [1]
                 code := [.ofByte 0x44 0 0, .ofByte 0x4F 1 2, .ofByte 0x01 0 4] }
    script := { literals := [value] }, scope := { names := ["go", "x"] }, step := 8 }

theorem oneLineEach_quoted :
    (∀ name ∈ (literalFrame (.string "a\"\tb")).scope.names, breaksIn name = []) ∧
      (literalFrame (.string "a\"\tb")).routine.OneLineEach := by
  have h : ∀ name ∈ (literalFrame (.string "a\"\tb")).scope.names, breaksIn name = [] := by
    decide
  refine ⟨h, ((literalFrame (.string "a\"\tb")).oneLineEach_iff h).2 ?_⟩
  intro value hvalue
  rw [List.mem_singleton.mp hvalue]
  rfl

/-- A carriage return in a string is written as it is, so that one statement takes two lines. -/
theorem not_oneLineEach_return :
    (∀ name ∈ (literalFrame (.string "a\rb")).scope.names, breaksIn name = []) ∧
      (literalFrame (.string "a\rb")).routine.statements.map (·.text "\n") = ["x = \"a\rb\""] ∧
      physicalLines (render "\n" (literalFrame (.string "a\rb")).routine.pieces) =
        ["on go", "  global x", "  x = \"a", "b\"", "end"] ∧
      ¬(literalFrame (.string "a\rb")).routine.OneLineEach := by
  have hlines : physicalLines (render "\n" (literalFrame (.string "a\rb")).routine.pieces) =
      ["on go", "  global x", "  x = \"a", "b\"", "end"] := by
    decide +kernel
  refine ⟨by decide, by decide +kernel, hlines, fun h => ?_⟩
  have hcount := h.count_eq .lf
  change (physicalLines (render "\n" _)).length = _ at hcount
  rw [hlines] at hcount
  exact absurd hcount (by decide)

end Shockwave
