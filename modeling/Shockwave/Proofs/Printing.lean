import Shockwave.Proofs.Parsing
import Shockwave.Proofs.Scanning

/-!
The source text of an expression has one reading, the expression itself.
-/
namespace Shockwave

theorem toList_render (ending : String) (texts : List String) :
    (render ending (texts.map .text)).toList = texts.flatMap String.toList := by
  have hput (texts : List String) (page : Page) (hdepth : page.depth = 0) :
      ((texts.map Piece.text).foldl (Page.put ending) page).text.toList =
        page.text.toList ++ texts.flatMap String.toList := by
    induction texts generalizing page with
    | nil => simp
    | cons text texts ih =>
      have hmargin : page.margin = "" := by simp [Page.margin, hdepth]
      rw [List.map_cons, List.foldl_cons, List.flatMap_cons, Page.put]
      split
      · next hempty =>
        rw [ih page hdepth, String.isEmpty_iff.mp hempty]
        rfl
      · have hrest :=
          ih { page with text := page.text ++ page.margin ++ text, atLineStart := false } hdepth
        rw [hrest]
        simp [hmargin]
  exact hput texts {} rfl

namespace Grammar

/-- The expressions that the grammar has: names, whole numbers, symbols, operations, calls and
chunks. -/
inductive IsExpr : Node → Prop where
  | var {name : String} (h : isName name = true) : IsExpr (.var name)
  | int {value : Int32} (h : 0 ≤ value) : IsExpr (.literal (.int value))
  | symbol {name : String} (h : isIdentifier name.toList = true) : IsExpr (.literal (.symbol name))
  | binary {op left right} (h : op.isBinary = true) (hleft : IsExpr left) (hright : IsExpr right) :
      IsExpr (.binary op left right)
  | unary {op operand} (h : op = .inv ∨ op = .not) (hoperand : IsExpr operand) :
      IsExpr (.unary op operand)
  | call {name values} (h : isName name = true) (hvalues : ∀ value ∈ values, IsExpr value) :
      IsExpr (.call name (.args values false) false)
  | chunk {unit first last string} (hfirst : IsExpr first) (hlast : IsExpr last)
      (hstring : IsExpr string) : IsExpr (.chunk unit first last string)

def Spells (pieces : List Piece) (ts : List Token) : Prop :=
  ∃ texts : List String, pieces = texts.map .text ∧ Lexes (texts.flatMap String.toList) ts

namespace Spells

variable {left right : List Piece} {ts us : List Token}

theorem of_text {text : String} (h : Lexes text.toList ts) : Spells [.text text] ts :=
  ⟨[text], rfl, by simpa using h⟩

theorem parens (h : Spells left ts) :
    Spells (.text "(" :: left ++ [.text ")"]) (.lparen :: ts ++ [.rparen]) := by
  obtain ⟨texts, rfl, hlexes⟩ := h
  refine ⟨"(" :: texts ++ [")"], by simp, ?_⟩
  simpa using lexes_parens hlexes

theorem spaced (hleft : Spells left ts) (hright : Spells right us) :
    Spells (left ++ .text " " :: right) (ts ++ us) := by
  obtain ⟨texts, rfl, hlexes⟩ := hleft
  obtain ⟨texts', rfl, hlexes'⟩ := hright
  refine ⟨texts ++ " " :: texts', by simp, ?_⟩
  simpa using lexes_space hlexes hlexes'

theorem comma (hleft : Spells left ts) (hright : Spells right us) :
    Spells (left ++ .text ", " :: right) (ts ++ .comma :: us) := by
  obtain ⟨texts, rfl, hlexes⟩ := hleft
  obtain ⟨texts', rfl, hlexes'⟩ := hright
  refine ⟨texts ++ ", " :: texts', by simp, ?_⟩
  have hright : Lexes (' ' :: texts'.flatMap String.toList) us := lexes_space lexes_nil hlexes'
  simpa using lexes_break (c := ',') (t := .comma) (by decide) hlexes hright

theorem keyword {text word : String} {t : Token} (htext : text.toList = ' ' :: word.toList ++ [' '])
    (hword : Lexes word.toList [t]) (hleft : Spells left ts) (hright : Spells right us) :
    Spells (left ++ .text text :: right) (ts ++ t :: us) := by
  obtain ⟨texts, rfl, hlexes⟩ := hleft
  obtain ⟨texts', rfl, hlexes'⟩ := hright
  refine ⟨texts ++ text :: texts', by simp, ?_⟩
  simpa [htext] using lexes_space hlexes (lexes_space hword hlexes')

theorem called {name : String} {t : Token} (hname : Lexes name.toList [t]) (h : Spells left ts) :
    Spells (.text name :: .text "(" :: left ++ [.text ")"]) (t :: .lparen :: ts ++ [.rparen]) := by
  obtain ⟨texts, rfl, hlexes⟩ := h
  refine ⟨name :: "(" :: texts ++ [")"], by simp, ?_⟩
  have hclose := lexes_break (c := ')') (t := .rparen) (by decide) hlexes lexes_nil
  simpa using lexes_break (c := '(') (t := .lparen) (by decide) hname hclose

theorem minus (h : Spells left ts) : Spells (.text "-" :: left) (.sign .sub :: ts) := by
  obtain ⟨texts, rfl, hlexes⟩ := h
  refine ⟨"-" :: texts, by simp, ?_⟩
  simpa using lexes_break (c := '-') (t := .sign .sub) (by decide) lexes_nil hlexes

end Spells

namespace Reads

variable {ts us : List Token} {n : Node}

theorem looser_le {level limit : Nat} (h : Reads (.level level) ts n) (hle : level ≤ limit) :
    Reads (.level limit) ts n := by
  induction hle with
  | refl => exact h
  | step hle ih => exact .looser ih

theorem level_of_operand (h : Reads .operand ts n) (limit : Nat) : Reads (.level limit) ts n :=
  looser_le (.base h) (Nat.zero_le limit)

theorem expr_of_operand (h : Reads .operand ts n) : Reads .expr ts n :=
  .chain (h.level_of_operand 5)

end Reads

theorem level?_bounds {op : Opcode} {level : Nat} (h : op.level? = some level) :
    1 ≤ level ∧ level ≤ 5 := by
  cases op <;> cases h <;> decide

theorem eq_of_isInt {node : Node} {value : Int32} (h : node.isInt value = true) :
    node = .literal (.int value) := by
  cases node with
  | literal datum =>
    cases datum with
    | int v =>
      have hvalue : v = value := by simpa [Node.isInt, Datum.isInt] using h
      rw [hvalue]
    | _ => cases h
  | _ => cases h

/-- The text of a node falls into the tokens, and these can be read as the node in every place in
which it is put without parentheses. -/
structure Printed (node : Node) (ts : List Token) : Prop where
  spells : Spells node.pieces ts
  expr : Reads .expr ts node
  tight : node.hasSpaces = false → Reads .tight ts node
  operand : (∀ op left right, node ≠ .binary op left right) → Reads .operand ts node
  level : ∀ op left right level, node = .binary op left right → op.level? = some level →
    Reads (.level level) ts node
  chunk : ∀ unit first last string, node = .chunk unit first last string →
    ∃ us, ts = .unit unit :: us ∧ Reads (.chunk unit) us node

namespace Printed

variable {node : Node} {ts : List Token}

theorem of_tight (hspells : Spells node.pieces ts) (htight : Reads .tight ts node)
    (hbinary : ∀ op left right, node ≠ .binary op left right)
    (hchunk : ∀ unit first last string, node ≠ .chunk unit first last string) :
    Printed node ts where
  spells := hspells
  expr := htight.plain.expr_of_operand
  tight _ := htight
  operand _ := htight.plain
  level op left right _ heq _ := absurd heq (hbinary op left right)
  chunk unit first last string heq := absurd heq (hchunk unit first last string)

/-- Put in parentheses where that is wanted, a node can be read as whatever it has to be. -/
theorem enclosed (h : Printed node ts) {p : Phrase} {wanted : Bool}
    (htight : ∀ us, Reads .tight us node → Reads p us node)
    (hbare : wanted = false → Reads p ts node) :
    ∃ us, Spells (Node.inParens wanted node.pieces) us ∧ Reads p us node := by
  cases wanted with
  | true => exact ⟨_, h.spells.parens, htight _ (.parens h.expr)⟩
  | false => exact ⟨ts, h.spells, hbare rfl⟩

theorem enclosed_tight (h : Printed node ts) :
    ∃ us, Spells (Node.inParens node.hasSpaces node.pieces) us ∧ Reads .tight us node :=
  h.enclosed (fun _ htight => htight) h.tight

theorem enclosed_string (h : Printed node ts) (unit : ChunkUnit) :
    ∃ us, Spells (Node.inParens (node.stringNeedsParens unit) node.pieces) us ∧
      Reads (.string unit) us node := by
  refine h.enclosed (fun _ htight => .whole htight) ?_
  intro hbare
  by_cases hchunk : ∃ coarser first last string, node = .chunk coarser first last string
  · obtain ⟨coarser, first, last, string, rfl⟩ := hchunk
    obtain ⟨us, rfl, hreads⟩ := h.chunk _ _ _ _ rfl
    have hrank : unit.rank < coarser.rank := by
      simpa [Node.stringNeedsParens] using hbare
    exact .within hrank hreads
  · have hspaces : node.stringNeedsParens unit = node.hasSpaces := by
      cases node with
      | chunk coarser first last string => exact absurd ⟨_, _, _, _, rfl⟩ hchunk
      | _ => rfl
    rw [hspaces] at hbare
    exact .whole (h.tight hbare)

theorem enclosed_level (h : Printed node ts) {outer : Nat} (onRight : Bool) (limit : Nat)
    (hlimit : outer = if onRight then limit + 1 else limit) :
    ∃ us, Spells (Node.inParens (node.needsParens (some outer) onRight) node.pieces) us ∧
      Reads (.level limit) us node := by
  refine h.enclosed (fun _ htight => htight.plain.level_of_operand limit) ?_
  intro hbare
  by_cases hbinary : ∃ op left right, node = .binary op left right
  · obtain ⟨op, left, right, rfl⟩ := hbinary
    cases hlevel : op.level? with
    | none => simp [Node.needsParens, hlevel] at hbare
    | some inner =>
      refine (h.level op left right inner rfl hlevel).looser_le ?_
      cases onRight <;> simp [Node.needsParens, hlevel] at hbare hlimit <;> omega
  · have hother : ∀ op left right, node ≠ .binary op left right := by
      intro op left right heq
      exact hbinary ⟨op, left, right, heq⟩
    exact (h.operand hother).level_of_operand limit

theorem enclosed_operand (h : Printed node ts) (onRight : Bool) :
    ∃ us, Spells (Node.inParens (node.needsParens none onRight) node.pieces) us ∧
      Reads .operand us node := by
  refine h.enclosed (fun _ htight => htight.plain) ?_
  intro hbare
  apply h.operand
  rintro op left right rfl
  simp [Node.needsParens] at hbare

theorem of_var {name : String} (h : isName name = true) : Printed (.var name) [.name name] := by
  refine of_tight ?_ (.var name) (by simp) (by simp)
  rw [Node.pieces]
  exact .of_text (lexes_name h)

theorem of_symbol {name : String} (h : isIdentifier name.toList = true) :
    Printed (.literal (.symbol name)) [.symbol name] := by
  refine of_tight ?_ (.symbol name) (by simp) (by simp)
  rw [Node.pieces, Datum.text]
  apply Spells.of_text
  simpa using lexes_symbol h

theorem of_int {value : Int32} (h : 0 ≤ value) :
    Printed (.literal (.int value)) [.number value.toNatClampNeg] := by
  have hvalue : 0 ≤ value.toInt := Int32.le_iff_toInt_le.mp h
  have htext : toString value.toInt = toString value.toNatClampNeg := by
    rw [Int.toString_eq_repr, Int.repr_eq_if, if_pos hvalue, Nat.toString_eq_repr]
    rfl
  have hreads := Reads.int value.toNatClampNeg_lt
  rw [Int32.ofNat_toNatClampNeg value h] at hreads
  refine of_tight ?_ hreads (by simp) (by simp)
  rw [Node.pieces, Datum.text, htext]
  exact .of_text (lexes_number _)

theorem of_binary {op : Opcode} {left right : Node} {us : List Token} (h : op.isBinary = true)
    (hleft : Printed left ts) (hright : Printed right us) :
    ∃ vs, Printed (.binary op left right) vs := by
  obtain ⟨sign, hsign⟩ := Option.isSome_iff_exists.mp h
  have hspells {leftParens rightParens : List Piece} {vs ws : List Token}
      (hvs : Spells leftParens vs) (hws : Spells rightParens ws) :
      Spells (leftParens ++ [.text " ", .text (op.binarySign?.getD "?"), .text " "] ++ rightParens)
        (vs ++ .sign op :: ws) := by
    have hmiddle := (Spells.of_text (lexes_sign hsign)).spaced hws
    rw [hsign]
    simpa using hvs.spaced hmiddle
  cases hlevel : op.level? with
  | none =>
    obtain ⟨vs, hvs, hreads⟩ := hleft.enclosed_operand false
    obtain ⟨ws, hws, hreads'⟩ := hright.enclosed_operand true
    refine ⟨vs ++ .sign op :: ws, ?_, .levelless hlevel hreads hreads', by simp [Node.hasSpaces],
      by simp, ?_, by simp⟩
    · rw [Node.pieces, hlevel]
      exact hspells hvs hws
    · rintro op' left' right' level heq hsome
      cases heq
      rw [hlevel] at hsome
      cases hsome
  | some level =>
    obtain ⟨hpositive, hbound⟩ := level?_bounds hlevel
    obtain ⟨limit, rfl⟩ := Nat.exists_eq_add_of_le' hpositive
    obtain ⟨vs, hvs, hreads⟩ := hleft.enclosed_level false (limit + 1) rfl
    obtain ⟨ws, hws, hreads'⟩ := hright.enclosed_level true limit rfl
    have hwhole := Reads.leveled hlevel hreads hreads'
    refine ⟨vs ++ .sign op :: ws, ?_, .chain (hwhole.looser_le hbound), by simp [Node.hasSpaces],
      by simp, ?_, by simp⟩
    · rw [Node.pieces, hlevel]
      exact hspells hvs hws
    · rintro op' left' right' level heq hsome
      cases heq
      rw [hlevel, Option.some.injEq] at hsome
      rw [← hsome]
      exact hwhole

theorem of_unary {op : Opcode} {operand : Node} (h : op = .inv ∨ op = .not)
    (hoperand : Printed operand ts) : ∃ vs, Printed (.unary op operand) vs := by
  obtain ⟨us, hspells, htight⟩ := hoperand.enclosed_tight
  have hother {vs : List Token} (hvs : Spells (Node.unary op operand).pieces vs)
      (hreads : Reads .operand vs (.unary op operand)) : Printed (.unary op operand) vs :=
    ⟨hvs, hreads.expr_of_operand, by simp [Node.hasSpaces], fun _ => hreads, by simp, by simp⟩
  rcases h with rfl | rfl
  · refine ⟨.sign .sub :: us, hother ?_ (.inv htight.plain)⟩
    rw [Node.pieces]
    exact hspells.minus
  · refine ⟨.kwNot :: us, hother ?_ (.not htight.plain)⟩
    obtain ⟨texts, hpieces, hlexes⟩ := hspells
    rw [Node.pieces, hpieces]
    refine ⟨"not " :: texts, rfl, ?_⟩
    have hword : Lexes "not".toList [.kwNot] := lexes_word (by decide)
    simpa using lexes_space hword hlexes

theorem of_chunk {unit : ChunkUnit} {first last string : Node} {us vs : List Token}
    (hfirst : Printed first ts) (hlast : Printed last us) (hstring : Printed string vs) :
    ∃ ws, Printed (.chunk unit first last string) ws := by
  obtain ⟨as, hspellsFirst, hreadsFirst⟩ := hfirst.enclosed_tight
  obtain ⟨bs, hspellsLast, hreadsLast⟩ := hlast.enclosed_tight
  obtain ⟨cs, hspellsString, hreadsString⟩ := hstring.enclosed_string unit
  have hunit : Lexes unit.name.toList [.unit unit] := by
    cases unit <;> exact lexes_word (by decide)
  have hstart : Spells (.text unit.name :: .text " " :: Node.inParens first.hasSpaces first.pieces)
      (.unit unit :: as) := (Spells.of_text hunit).spaced hspellsFirst
  have hto : Lexes "to".toList [.kwTo] := lexes_word (by decide)
  have hof : Lexes "of".toList [.kwOf] := lexes_word (by decide)
  have hother {ds : List Token}
      (hspells : Spells (Node.chunk unit first last string).pieces (.unit unit :: ds))
      (hreads : Reads (.chunk unit) ds (.chunk unit first last string)) :
      Printed (.chunk unit first last string) (.unit unit :: ds) := by
    refine ⟨hspells, hreads.chunk.expr_of_operand, by simp [Node.hasSpaces], fun _ => hreads.chunk,
      by simp, ?_⟩
    rintro unit' first' last' string' heq
    cases heq
    exact ⟨ds, rfl, hreads⟩
  cases hzero : last.isInt 0 with
  | true =>
    have hlast := eq_of_isInt hzero
    subst hlast
    refine ⟨_, hother ?_ (.single hreadsFirst hreadsString)⟩
    rw [Node.pieces, if_pos hzero, List.append_nil]
    exact Spells.keyword rfl hof hstart hspellsString
  | false =>
    have hrange : Spells (_ ++ .text " to " :: _) _ := Spells.keyword rfl hto hstart hspellsLast
    refine ⟨_, hother ?_ (.range hreadsFirst hreadsLast hreadsString)⟩
    rw [Node.pieces, if_neg (by simp [hzero])]
    exact Spells.keyword rfl hof hrange hspellsString

theorem of_values {values : List Node} (h : ∀ value ∈ values, ∃ ts, Printed value ts)
    (hne : values ≠ []) :
    ∃ us, Spells (Node.listPieces values) us ∧ Reads .values us (.args values false) := by
  induction values with
  | nil => exact absurd rfl hne
  | cons value values ih =>
    obtain ⟨ts, hvalue⟩ := h value (by simp)
    cases values with
    | nil =>
      refine ⟨ts, ?_, .lastValue hvalue.expr⟩
      rw [Node.listPieces]
      exact hvalue.spells
    | cons next rest =>
      obtain ⟨us, hspells, hreads⟩ := ih (fun other hother => h other (by simp [hother])) (by simp)
      refine ⟨ts ++ .comma :: us, ?_, .nextValue hvalue.expr hreads⟩
      rw [Node.listPieces]
      · exact hvalue.spells.comma hspells
      · simp

theorem of_call {name : String} {values : List Node} (hname : isName name = true)
    (h : ∀ value ∈ values, ∃ ts, Printed value ts) :
    ∃ us, Printed (.call name (.args values false) false) us := by
  have hargs : ∃ us, Spells (Node.listPieces values) us ∧ Reads .args us (.args values false) := by
    by_cases hempty : values = []
    · subst hempty
      exact ⟨[], ⟨[], by simp [Node.listPieces], lexes_nil⟩, .noArgs⟩
    · obtain ⟨us, hspells, hreads⟩ := of_values h hempty
      exact ⟨us, hspells, .someArgs hreads⟩
  obtain ⟨us, hspells, hreads⟩ := hargs
  refine ⟨_, of_tight ?_ (.call name hreads) (by simp) (by simp)⟩
  rw [Node.pieces, Node.pieces]
  exact hspells.called (lexes_name hname)

end Printed

theorem IsExpr.printed {node : Node} (h : IsExpr node) : ∃ ts, Printed node ts := by
  induction h with
  | var h => exact ⟨_, .of_var h⟩
  | int h => exact ⟨_, .of_int h⟩
  | symbol h => exact ⟨_, .of_symbol h⟩
  | binary h hleft hright ihleft ihright =>
    obtain ⟨ts, hts⟩ := ihleft
    obtain ⟨us, hus⟩ := ihright
    exact Printed.of_binary h hts hus
  | unary h hoperand ih =>
    obtain ⟨ts, hts⟩ := ih
    exact Printed.of_unary h hts
  | call h hvalues ih => exact Printed.of_call h ih
  | chunk hfirst hlast hstring ihfirst ihlast ihstring =>
    obtain ⟨ts, hts⟩ := ihfirst
    obtain ⟨us, hus⟩ := ihlast
    obtain ⟨vs, hvs⟩ := ihstring
    exact Printed.of_chunk hts hus hvs

theorem IsExpr.readsText {node : Node} (h : IsExpr node) (ending : String) :
    ReadsText (node.text ending) node := by
  obtain ⟨ts, hprinted⟩ := h.printed
  obtain ⟨texts, hpieces, hlexes⟩ := hprinted.spells
  obtain ⟨s, hfeed, hdone⟩ := hlexes {} [] Scan.fresh_nil rfl
  refine ⟨ts, ?_, hprinted.expr⟩
  rw [tokens?, Node.text, hpieces, toList_render, hfeed]
  exact hdone

/-- The text of an expression is read as the expression, and as nothing else. -/
theorem readsText_iff {node : Node} (h : IsExpr node) (ending : String) :
    parse? (node.text ending) = some node ∧
      ∀ other, ReadsText (node.text ending) other ↔ other = node := by
  have hreads := h.readsText ending
  refine ⟨hreads.parse?_eq, ?_⟩
  intro other
  constructor
  · intro hother
    exact hother.unique hreads
  · rintro rfl
    exact hreads

def nestedExpr : Node :=
  .binary .sub (.var "a") (.binary .sub (.unary .inv (.var "b"))
    (.chunk .char (.literal (.int 1)) (.literal (.int 0))
      (.chunk .line (.call "f" (.args [.var "x", .literal (.symbol "mod")] false) false)
        (.literal (.int 3)) (.binary .joinStr (.var "s") (.var "t")))))

example : nestedExpr.text "\n" =
    "a - (-b - (char 1 of line (f(x, #mod)) to 3 of (s & t)))" := by
  rfl

theorem readsText_nestedExpr :
    IsExpr nestedExpr ∧ parse? (nestedExpr.text "\n") = some nestedExpr ∧
      ∀ other, ReadsText (nestedExpr.text "\n") other ↔ other = nestedExpr := by
  have hcall : IsExpr (.call "f" (.args [.var "x", .literal (.symbol "mod")] false) false) := by
    refine .call (by decide) ?_
    intro value hvalue
    simp only [List.mem_cons, List.not_mem_nil, or_false] at hvalue
    rcases hvalue with rfl | rfl
    · exact .var (by decide)
    · exact .symbol (by decide)
  have hjoin : IsExpr (.binary .joinStr (.var "s") (.var "t")) :=
    .binary rfl (.var (by decide)) (.var (by decide))
  have hchunk : IsExpr (.chunk .char (.literal (.int 1)) (.literal (.int 0))
      (.chunk .line (.call "f" (.args [.var "x", .literal (.symbol "mod")] false) false)
        (.literal (.int 3)) (.binary .joinStr (.var "s") (.var "t")))) :=
    .chunk (.int (by decide)) (.int (by decide)) (.chunk hcall (.int (by decide)) hjoin)
  have h : IsExpr nestedExpr :=
    .binary rfl (.var (by decide)) (.binary rfl (.unary (.inl rfl) (.var (by decide))) hchunk)
  exact ⟨h, readsText_iff h "\n"⟩

end Grammar
end Shockwave
