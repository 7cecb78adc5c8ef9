import Shockwave.Lingo.Node

/-!
The grammar of expressions: how a text falls into tokens, and which expressions a run of tokens can
be read as.
-/
namespace Shockwave.Grammar

inductive Token where
  | name (text : String)
  | number (value : Nat)
  | symbol (name : String)
  | unit (unit : ChunkUnit)
  | sign (op : Opcode)
  | kwNot
  | kwTo
  | kwOf
  | lparen
  | rparen
  | comma
  deriving DecidableEq, Repr

def isFirst (c : Char) : Bool := c.isAlpha || c == '_'

def isInner (c : Char) : Bool := c.isAlphanum || c == '_'

def isIdentifier : List Char → Bool
  | [] => false
  | c :: cs => isFirst c && cs.all isInner

def reserved : List (String × Token) :=
  [("mod", .sign .mod), ("and", .sign .and), ("or", .sign .or), ("contains", .sign .containsStr),
    ("starts", .sign .contains0Str), ("not", .kwNot), ("char", .unit .char), ("word", .unit .word),
    ("item", .unit .item), ("line", .unit .line), ("to", .kwTo), ("of", .kwOf)]

def Token.ofWord (word : String) : Token := (reserved.lookup word).getD (.name word)

def isName (word : String) : Bool :=
  isIdentifier word.toList && (reserved.lookup word).isNone

def marks : List (Char × Token) :=
  [('(', .lparen), (')', .rparen), (',', .comma), ('*', .sign .mul), ('+', .sign .add),
    ('-', .sign .sub), ('/', .sign .div), ('&', .sign .joinStr), ('<', .sign .lt), ('=', .sign .eq),
    ('>', .sign .gt)]

def longer? : Token → Char → Option Token
  | .sign .joinStr, '&' => some (.sign .joinPadStr)
  | .sign .lt, '=' => some (.sign .ltEq)
  | .sign .lt, '>' => some (.sign .ntEq)
  | .sign .gt, '=' => some (.sign .gtEq)
  | _, _ => none

inductive Lexeme where
  | word (chars : List Char)
  | number (value : Nat)
  | symbol (chars : List Char)
  | mark (token : Token)
  deriving DecidableEq, Repr

namespace Lexeme

def digit (c : Char) : Nat := c.toNat - '0'.toNat

def start? (c : Char) : Option Lexeme :=
  if isFirst c then some (.word [c])
  else if c.isDigit then some (.number (digit c))
  else if c = '#' then some (.symbol [])
  else (marks.lookup c).map .mark

def extend? : Lexeme → Char → Option Lexeme
  | .word chars, c => if isInner c then some (.word (chars ++ [c])) else none
  | .number value, c => if c.isDigit then some (.number (10 * value + digit c)) else none
  | .symbol chars, c => if isInner c then some (.symbol (chars ++ [c])) else none
  | .mark token, c => (longer? token c).map .mark

def token? : Lexeme → Option Token
  | .word chars => some (.ofWord (String.ofList chars))
  | .number value => some (.number value)
  | .symbol chars => if isIdentifier chars then some (.symbol (String.ofList chars)) else none
  | .mark token => some token

end Lexeme

/-- The tokens of the text so far, the last of which may still grow. -/
structure Scan where
  done : List Token := []
  pending : Option Lexeme := none

namespace Scan

def finish? (s : Scan) : Option (List Token) :=
  match s.pending with
  | none => some s.done
  | some lexeme => lexeme.token?.map fun token => s.done ++ [token]

def feed (s : Scan) (c : Char) : Option Scan :=
  match s.pending.bind (·.extend? c) with
  | some lexeme => some { s with pending := lexeme }
  | none =>
    s.finish?.bind fun done =>
      if c = ' ' then some { done }
      else (Lexeme.start? c).map fun lexeme => { done, pending := some lexeme }

end Scan

def tokens? (text : String) : Option (List Token) :=
  (text.toList.foldlM Scan.feed {}).bind Scan.finish?

inductive Phrase where
  | tight
  | values
  | args
  | operand
  | chunk (unit : ChunkUnit)
  | string (unit : ChunkUnit)
  | level (level : Nat)
  | expr
  deriving DecidableEq, Repr

/-- The readings of a run of tokens as a phrase. A sign of some level takes on its left what binds
at least as tight as itself, on its right what binds tighter. -/
inductive Reads : Phrase → List Token → Node → Prop where
  | var (name : String) : Reads .tight [.name name] (.var name)
  | int {value : Nat} (h : value < 0x80000000) :
      Reads .tight [.number value] (.literal (.int (Int32.ofNat value)))
  | symbol (name : String) : Reads .tight [.symbol name] (.literal (.symbol name))
  | parens {ts n} (h : Reads .expr ts n) : Reads .tight (.lparen :: ts ++ [.rparen]) n
  | call {ts given} (name : String) (h : Reads .args ts given) :
      Reads .tight (.name name :: .lparen :: ts ++ [.rparen]) (.call name given false)
  | noArgs : Reads .args [] (.args [] false)
  | someArgs {ts given} (h : Reads .values ts given) : Reads .args ts given
  | lastValue {ts n} (h : Reads .expr ts n) : Reads .values ts (.args [n] false)
  | nextValue {ts us n ns} (h : Reads .expr ts n) (hrest : Reads .values us (.args ns false)) :
      Reads .values (ts ++ .comma :: us) (.args (n :: ns) false)
  | plain {ts n} (h : Reads .tight ts n) : Reads .operand ts n
  | inv {ts n} (h : Reads .operand ts n) : Reads .operand (.sign .sub :: ts) (.unary .inv n)
  | not {ts n} (h : Reads .operand ts n) : Reads .operand (.kwNot :: ts) (.unary .not n)
  | chunk {unit ts n} (h : Reads (.chunk unit) ts n) : Reads .operand (.unit unit :: ts) n
  | range {unit ts us vs first last string} (hfirst : Reads .tight ts first)
      (hlast : Reads .tight us last) (hstring : Reads (.string unit) vs string) :
      Reads (.chunk unit) (ts ++ .kwTo :: us ++ .kwOf :: vs) (.chunk unit first last string)
  | single {unit ts vs first string} (hfirst : Reads .tight ts first)
      (hstring : Reads (.string unit) vs string) :
      Reads (.chunk unit) (ts ++ .kwOf :: vs) (.chunk unit first (.literal (.int 0)) string)
  | whole {unit ts n} (h : Reads .tight ts n) : Reads (.string unit) ts n
  | within {unit coarser ts n} (hcoarser : unit.rank < coarser.rank)
      (h : Reads (.chunk coarser) ts n) : Reads (.string unit) (.unit coarser :: ts) n
  | base {ts n} (h : Reads .operand ts n) : Reads (.level 0) ts n
  | looser {level ts n} (h : Reads (.level level) ts n) : Reads (.level (level + 1)) ts n
  | leveled {op level ts us left right} (hlevel : op.level? = some (level + 1))
      (hleft : Reads (.level (level + 1)) ts left) (hright : Reads (.level level) us right) :
      Reads (.level (level + 1)) (ts ++ .sign op :: us) (.binary op left right)
  | chain {ts n} (h : Reads (.level 5) ts n) : Reads .expr ts n
  | levelless {op ts us left right} (hlevel : op.level? = none) (hleft : Reads .operand ts left)
      (hright : Reads .operand us right) :
      Reads .expr (ts ++ .sign op :: us) (.binary op left right)

def ReadsText (text : String) (node : Node) : Prop :=
  ∃ ts, tokens? text = some ts ∧ Reads .expr ts node

end Shockwave.Grammar
