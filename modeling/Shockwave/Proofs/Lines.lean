import Shockwave.Proofs.Shapes

/-!
The source of a script as a list of lines. A statement is written in many pieces, some of them
empty, yet it fills one line; the ending of the lines shows nowhere else.
-/
namespace Shockwave

def closed (ending : String) (lines : List String) : String :=
  String.join (lines.map (· ++ ending))

/-- A line that starts two spaces in for each level, unless there is nothing on it. -/
def indented (depth : Nat) (line : String) : String :=
  if line.isEmpty then "" else String.join (List.replicate depth "  ") ++ line

namespace Routine

def heading (r : Routine) : String :=
  "on " ++ r.name ++
    if r.arguments.isEmpty then "" else " " ++ String.intercalate ", " r.arguments

def globalLines (r : Routine) : List String :=
  if r.globals.isEmpty then [] else ["global " ++ String.intercalate ", " r.globals]

def lines (r : Routine) : List String :=
  r.heading ::
    (r.globalLines ++ r.statements.map (·.text "")).map (indented 1) ++ ["end"]

end Routine

namespace Script

def sections (script : Script) (scope : Scope) (version : Nat) : List (List String) :=
  (if (script.propertyNames scope).isEmpty then []
   else [["property " ++ String.intercalate ", " (script.propertyNames scope)]]) ++
    (script.routines scope version).map Routine.lines

def lines (script : Script) (scope : Scope) (version : Nat) : List String :=
  List.intercalate [""] (script.sections scope version)

end Script

namespace Piece

def isText : Piece → Bool
  | .text _ => true
  | _ => false

def content : Piece → String
  | .text s => s
  | _ => ""

end Piece

section

variable {pieces : List Piece} {ending : String}

theorem map_content (h : pieces.all Piece.isText = true) :
    (pieces.map Piece.content).map Piece.text = pieces := by
  induction pieces with
  | nil => rfl
  | cons piece pieces ih =>
    rw [List.all_cons, Bool.and_eq_true] at h
    cases piece with
    | text s => rw [List.map_cons, List.map_cons, ih h.2, Piece.content]
    | _ => cases h.1

/-- Texts on one line come after its margin, which is written with the first that is not empty. -/
theorem foldl_put_texts (ending : String) (texts : List String) (page : Page) :
    (texts.map Piece.text).foldl (Page.put ending) page =
      { page with
        text := page.text ++ (if (String.join texts).isEmpty then "" else page.margin) ++
          String.join texts
        atLineStart := page.atLineStart && (String.join texts).isEmpty } := by
  induction texts generalizing page with
  | nil =>
    have hempty : "".isEmpty = true := rfl
    simp [hempty]
  | cons text texts ih =>
    rw [List.map_cons, List.foldl_cons, Page.put, String.join_cons]
    split
    next hempty =>
      rw [ih, String.isEmpty_iff.mp hempty, String.empty_append]
    next hne =>
      have hwhole : (text ++ String.join texts).isEmpty = false := by
        rw [String.isEmpty_iff] at hne
        rw [Bool.eq_false_iff, ne_eq, String.isEmpty_iff, String.append_eq_empty_iff]
        exact fun hboth => hne hboth.1
      rw [ih, hwhole]
      simp [Page.margin, String.append_assoc]

theorem render_of_texts (h : pieces.all Piece.isText = true) :
    render ending pieces = String.join (pieces.map Piece.content) := by
  have hput := foldl_put_texts ending (pieces.map Piece.content) {}
  rw [map_content h] at hput
  rw [render, hput]
  simp [Page.margin]

end

/-- From the start of a line on, the pieces give whole lines, and leave the depth changed. -/
def Sets (pieces : List Piece) (depth : Nat) (lines : List String) (depth' : Nat) : Prop :=
  ∀ ending text, pieces.foldl (Page.put ending) ⟨text, depth, true⟩ =
    ⟨text ++ closed ending lines, depth', true⟩

namespace Sets

variable {pieces pieces' : List Piece} {lines lines' : List String} {depth depth' depth'' : Nat}

theorem nil : Sets [] depth [] depth := by
  intro ending text
  simp [closed]

theorem append (h : Sets pieces depth lines depth') (h' : Sets pieces' depth' lines' depth'') :
    Sets (pieces ++ pieces') depth (lines ++ lines') depth'' := by
  intro ending text
  rw [List.foldl_append, h, h']
  simp [closed, String.append_assoc]

theorem indent : Sets [.indent] depth [] (depth + 1) := by
  intro ending text
  simp [closed, Page.put]

theorem outdent : Sets [.outdent] (depth + 1) [] depth := by
  intro ending text
  simp [closed, Page.put]

theorem line (h : pieces.all Piece.isText = true) (depth : Nat) :
    Sets (pieces ++ [Piece.lineEnd]) depth
      [indented depth (String.join (pieces.map Piece.content))] depth := by
  intro ending text
  rw [List.foldl_append, ← map_content h, foldl_put_texts, map_content h]
  simp only [List.foldl_cons, List.foldl_nil, Page.put, Page.margin, if_true, closed, indented,
    List.map_cons, List.map_nil, String.join_cons, String.join_nil, String.append_empty]
  split
  next hempty => simp [String.isEmpty_iff.mp hempty]
  next => simp [String.append_assoc]

theorem text (s : String) (depth : Nat) :
    Sets [.text s, .lineEnd] depth [indented depth s] depth := by
  have hline : Sets ([Piece.text s] ++ [Piece.lineEnd]) depth _ depth := line rfl depth
  simpa [Piece.content] using hline

theorem blank : Sets [.lineEnd] depth [""] depth := by
  have hline : Sets ([] ++ [Piece.lineEnd]) depth _ depth := line rfl depth
  simpa [indented] using hline

theorem render_eq (h : Sets pieces 0 lines depth') (ending : String) :
    render ending pieces = closed ending lines := by
  have hput := h ending ""
  rw [render, hput, String.empty_append]

end Sets

theorem indented_zero (line : String) : indented 0 line = line := by
  unfold indented
  split
  next hempty => exact (String.isEmpty_iff.mp hempty).symm
  next => simp

namespace Node

variable {words : Vocabulary} {node : Node}

theorem all_inParens (wanted : Bool) (pieces : List Piece) :
    (inParens wanted pieces).all Piece.isText = pieces.all Piece.isText := by
  cases wanted <;> simp [inParens, Piece.isText]

theorem all_listPieces {nodes : List Node} (h : ∀ node ∈ nodes, node.pieces.all Piece.isText) :
    (listPieces nodes).all Piece.isText = true := by
  induction nodes with
  | nil => rw [listPieces, List.all_nil]
  | cons node nodes ih =>
    have hnode := h node List.mem_cons_self
    cases nodes with
    | nil => rwa [listPieces]
    | cons next rest =>
      have hrest := ih fun other hother => h other (List.mem_cons_of_mem _ hother)
      rw [listPieces, List.all_append, List.all_cons, hnode, hrest]
      · rfl
      · simp

theorem IsValue.all_isText (h : IsValue words node) : node.pieces.all Piece.isText = true := by
  induction h with
  | literal | var => simp [pieces, Piece.isText]
  | binary _ _ _ ihleft ihright =>
    simp [pieces, all_inParens, ihleft, ihright, Piece.isText]
  | unary _ _ ih => simp [pieces, all_inParens, ih, Piece.isText]
  | args _ _ ih =>
    rw [pieces]
    exact all_listPieces ih
  | call _ _ ih => simp [pieces, ih, Piece.isText]
  | chunk _ _ _ _ ihfirst ihlast ihstring =>
    rw [pieces]
    split <;> simp [all_inParens, ihfirst, ihlast, ihstring, Piece.isText]

theorem IsStatement.all_isText (h : IsStatement words node) :
    node.pieces.all Piece.isText = true := by
  cases h with
  | assign _ hvalue => simp [pieces, hvalue.all_isText, Piece.isText]
  | call _ hvalues =>
    have hargs := (IsValue.args true hvalues).all_isText
    rw [pieces]
    split <;> simp [hargs, Piece.isText]
  | ret => simp [pieces, Piece.isText]
  | retValue hvalue => simp [pieces, hvalue.all_isText, Piece.isText]
  | unknown op operand =>
    rw [pieces]
    split <;> simp [Piece.isText]

theorem IsStatement.text_eq (h : IsStatement words node) (ending : String) :
    node.text ending = String.join (node.pieces.map Piece.content) :=
  render_of_texts h.all_isText

theorem sets_blockPieces {nodes : List Node} (h : ∀ node ∈ nodes, node.IsStatement words)
    (depth : Nat) :
    Sets (blockPieces nodes) depth (nodes.map fun node => indented depth (node.text "")) depth := by
  induction nodes with
  | nil =>
    rw [blockPieces]
    exact .nil
  | cons node nodes ih =>
    have hnode := h node List.mem_cons_self
    have hline := Sets.line hnode.all_isText depth
    rw [← hnode.text_eq ""] at hline
    have hrest := ih fun other hother => h other (List.mem_cons_of_mem _ hother)
    rw [blockPieces, ← List.singleton_append, ← List.append_assoc]
    exact hline.append hrest

end Node

namespace Routine

def opening (r : Routine) : List Piece :=
  [Piece.text "on ", Piece.text r.name] ++
    if r.arguments.isEmpty then [] else [.text " ", .text (String.intercalate ", " r.arguments)]

theorem sets_opening (r : Routine) : Sets (r.opening ++ [Piece.lineEnd]) 0 [r.heading] 0 := by
  have htexts : r.opening.all Piece.isText = true := by
    unfold opening
    split <;> rfl
  have hjoin : String.join (r.opening.map Piece.content) = r.heading := by
    unfold opening heading
    split <;> simp [Piece.content, String.append_assoc]
  have hline := Sets.line htexts 0
  rwa [hjoin, indented_zero] at hline

theorem sets_globals (r : Routine) :
    Sets (if r.globals.isEmpty then []
      else [.text ("global " ++ String.intercalate ", " r.globals), .lineEnd]) 1
      (r.globalLines.map (indented 1)) 1 := by
  unfold globalLines
  split
  · exact .nil
  · exact .text _ 1

theorem sets_pieces {words : Vocabulary} {r : Routine}
    (h : ∀ statement ∈ r.statements, statement.IsStatement words) :
    Sets r.pieces 0 r.lines 0 := by
  have hbody := r.sets_globals.append (Node.sets_blockPieces h 1)
  have hend := Sets.text "end" 0
  rw [indented_zero] at hend
  have hwhole := ((r.sets_opening.append .indent).append hbody).append (Sets.outdent.append hend)
  simpa [pieces, opening, lines, Node.pieces, Function.comp_def] using hwhole

end Routine

namespace Script

theorem sets_flatMap {routines : List Routine} (h : ∀ r ∈ routines, Sets r.pieces 0 r.lines 0) :
    Sets (routines.flatMap fun r => Piece.lineEnd :: r.pieces) 0
      (routines.flatMap fun r => "" :: r.lines) 0 := by
  induction routines with
  | nil => exact .nil
  | cons r rest ih =>
    have hfirst := Sets.blank.append (h r List.mem_cons_self)
    exact hfirst.append (ih fun other hother => h other (List.mem_cons_of_mem _ hother))

theorem flatMap_zipIdx (bare : Prop) [Decidable bare] {n : Nat} (hn : ¬(n = 0 ∧ bare))
    (routines : List Routine) :
    ((routines.zipIdx n).flatMap fun placed =>
      (if placed.2 = 0 ∧ bare then [] else [Piece.lineEnd]) ++ placed.1.pieces) =
      routines.flatMap fun r => Piece.lineEnd :: r.pieces := by
  induction routines generalizing n with
  | nil => rfl
  | cons r rest ih =>
    rw [List.zipIdx_cons, List.flatMap_cons, List.flatMap_cons, ih (by omega)]
    dsimp only
    rw [if_neg hn, List.singleton_append]

theorem intercalate_blank (first : List String) (rest : List (List String)) :
    List.intercalate [""] (first :: rest) = first ++ rest.flatMap ("" :: ·) := by
  induction rest generalizing first with
  | nil => simp
  | cons next rest ih => rw [List.intercalate_cons_cons, ih]; simp

theorem sets_pieces {script : Script} {scope : Scope} {version : Nat}
    (h : ∀ r ∈ script.routines scope version, Sets r.pieces 0 r.lines 0) :
    Sets (script.pieces scope version) 0 (script.lines scope version) 0 := by
  unfold pieces layOut lines sections
  generalize script.routines scope version = routines at h
  by_cases hbare : (script.propertyNames scope).isEmpty = true
  · -- Nothing comes before the first handler.
    simp only [hbare, if_true, List.nil_append]
    cases routines with
    | nil => exact .nil
    | cons r rest =>
      have hfirst := h r List.mem_cons_self
      have hrest := sets_flatMap fun other hother => h other (List.mem_cons_of_mem _ hother)
      rw [← flatMap_zipIdx True (n := 1) (by simp)] at hrest
      rw [List.map_cons, intercalate_blank, List.flatMap_map, List.zipIdx_cons, List.flatMap_cons]
      exact hfirst.append hrest
  · have hhead := Sets.text ("property " ++ String.intercalate ", " (script.propertyNames scope)) 0
    have hrest := sets_flatMap h
    rw [← flatMap_zipIdx _ (n := 0) (fun hboth => hbare hboth.2)] at hrest
    rw [indented_zero] at hhead
    dsimp only
    rw [if_neg hbare, if_neg hbare, List.singleton_append, intercalate_blank, List.flatMap_map]
    exact hhead.append hrest

/-- The source of a script is its lines with the ending behind each, and a statement is written as
it would be on a page of its own, whatever the ending. -/
theorem source_eq_closed (script : Script) (scope : Scope) (version : Nat) :
    (∀ ending, script.source scope version ending =
      closed ending (script.lines scope version)) ∧
      ∀ routine ∈ script.routines scope version, ∀ statement ∈ routine.statements,
        ∀ ending, statement.text ending = statement.text "" := by
  have hshape : ∀ routine ∈ script.routines scope version, ∃ f : Frame,
      ∀ statement ∈ routine.statements, statement.IsStatement f.vocabulary := by
    intro routine hroutine
    obtain ⟨handler, -, rfl⟩ := List.mem_map.mp hroutine
    let f : Frame := ⟨handler, script, scope, variableStep scope.capitalX version⟩
    exact ⟨f, fun statement hstatement => f.isStatement_of_mem hstatement⟩
  constructor
  · intro ending
    refine (sets_pieces fun routine hroutine => ?_).render_eq ending
    obtain ⟨f, hstatements⟩ := hshape routine hroutine
    exact Routine.sets_pieces hstatements
  · intro routine hroutine statement hstatement ending
    obtain ⟨f, hstatements⟩ := hshape routine hroutine
    have h := hstatements statement hstatement
    rw [h.text_eq, h.text_eq]

/-- A handler that calls another one and returns. -/
example :
    let first : Handler := { nameId := 0, arguments := [], locals := [], globals := [2]
                             code := [.ofByte 0x41 4 0, .ofByte 0x43 1 2, .ofByte 0x56 1 4,
                               .ofByte 0x4F 2 6, .ofByte 0x01 0 8, .ofByte 0x01 0 9] }
    let second : Handler := { nameId := 1, arguments := [2], locals := [], globals := []
                              code := [] }
    let script : Script := { handlers := [first, second] }
    script.lines { names := ["first", "second", "y"] } 600 =
      ["on first", "  global y", "  y = second(4)", "  return", "end", "", "on second y",
        "end"] := by
  decide +kernel

end Script
end Shockwave
