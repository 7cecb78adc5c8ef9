import Shockwave.Lingo.Datum
import Shockwave.Lingo.Opcode
import Shockwave.Lingo.SourceText
import Shockwave.Text.Hex

/-!
Statements and expressions of the script language and the pieces of source text they are written as.
Parentheses are put only where a reader of the text would otherwise group it differently.
-/
namespace Shockwave

/-- Units that a string is cut into, from the finest to the coarsest. -/
inductive ChunkUnit where
  | char
  | word
  | item
  | line
  deriving DecidableEq, Repr

namespace ChunkUnit

def name : ChunkUnit → String
  | .char => "char"
  | .word => "word"
  | .item => "item"
  | .line => "line"

def rank : ChunkUnit → Nat
  | .char => 1
  | .word => 2
  | .item => 3
  | .line => 4

end ChunkUnit

inductive Node where
  | block (statements : List Node)
  | literal (value : Datum)
  | var (name : String)
  | binary (op : Opcode) (left right : Node)
  | unary (op : Opcode) (operand : Node)
  | assign (target value : Node)
  | args (values : List Node) (noReturn : Bool)
  | call (name : String) (given : Node) (statement : Bool)
  | ret
  | retValue (value : Node)
  | chunk (unit : ChunkUnit) (first last string : Node)
  | unknown (op : UInt8) (operand : Int)
  deriving Repr, Inhabited

namespace Node

mutual

/-- Whether the text could be misread when it stands as an operand without parentheses. -/
def hasSpaces : Node → Bool
  | .binary .. | .unary .. | .assign .. | .ret | .retValue _ | .chunk .. => true
  | .args values _ => decide (1 < values.length) || anyHasSpaces values
  | .call _ given _ => given.hasSpaces
  | .block _ | .literal _ | .var _ | .unknown .. => false

def anyHasSpaces : List Node → Bool
  | [] => false
  | node :: nodes => node.hasSpaces || anyHasSpaces nodes

end

def isInt (value : Int32) : Node → Bool
  | .literal datum => datum.isInt value
  | _ => false

def isNoArgs : Node → Bool
  | .args [] _ => true
  | _ => false

/-- Whether an operand of an operation with the given level needs parentheses. -/
def needsParens (outer : Option Nat) (onRight : Bool) : Node → Bool
  | .binary op _ _ => match outer, op.level? with
    | some outer, some inner => if onRight then outer ≤ inner else outer < inner
    | _, _ => true
  | .chunk .. => true
  | _ => false

/-- Whether the string of a chunk needs parentheses; a chunk of a coarser unit does not. -/
def stringNeedsParens (unit : ChunkUnit) : Node → Bool
  | .chunk inner _ _ _ => inner.rank ≤ unit.rank
  | node => node.hasSpaces

/-- Pieces in parentheses, if so wanted. -/
def inParens (wanted : Bool) (pieces : List Piece) : List Piece :=
  if wanted then .text "(" :: pieces ++ [.text ")"] else pieces

mutual

def pieces : Node → List Piece
  | .block statements => blockPieces statements
  | .literal value => [.text value.text]
  | .var name => [.text name]
  | .binary op left right =>
    inParens (left.needsParens op.level? false) left.pieces ++
      [.text " ", .text (op.binarySign?.getD "?"), .text " "] ++
      inParens (right.needsParens op.level? true) right.pieces
  | .unary op operand =>
    .text (op.unarySign?.getD "?") :: inParens operand.hasSpaces operand.pieces
  | .assign target value => target.pieces ++ .text " = " :: value.pieces
  | .args values _ => listPieces values
  | .call name given true =>
    .text name :: if given.isNoArgs then [] else .text " " :: given.pieces
  | .call name given false => .text name :: .text "(" :: given.pieces ++ [.text ")"]
  | .ret => [.text "return"]
  | .retValue value => .text "return " :: value.pieces
  | .chunk unit first last string =>
    .text unit.name :: .text " " :: inParens first.hasSpaces first.pieces ++
      (if last.isInt 0 then [] else .text " to " :: inParens last.hasSpaces last.pieces) ++
      .text " of " :: inParens (string.stringNeedsParens unit) string.pieces
  | .unknown op operand =>
    .text ("-- unknown opcode " ++ Hex.byte op) ::
      if 0x40 ≤ op then [.text s!" {operand}"] else []

/-- Statements, one a line. -/
def blockPieces : List Node → List Piece
  | [] => []
  | node :: nodes => node.pieces ++ .lineEnd :: blockPieces nodes

/-- Expressions with commas between them. -/
def listPieces : List Node → List Piece
  | [] => []
  | [node] => node.pieces
  | node :: nodes => node.pieces ++ .text ", " :: listPieces nodes

end

/-- The text of a node on a page of its own. -/
def text (ending : String) (node : Node) : String := render ending node.pieces

end Node
end Shockwave
