import Shockwave.Inflate.Bits

/-!
Prefix codes. A code is a binary tree built from one word length per symbol: words of one length are
consecutive numbers in symbol order, and shorter words come first.
-/
namespace Shockwave.Inflate

/-- A tree of code words; a clear bit goes to the first branch. -/
inductive Code where
  | empty
  | leaf (symbol : Nat)
  | node (zero one : Code)
  deriving Repr

namespace Code

def branches : Code → Code × Code
  | .node zero one => (zero, one)
  | _ => (.empty, .empty)

/-- Puts a symbol at the end of a word. -/
def insert (symbol : Nat) : List Bool → Code → Code
  | [], _ => .leaf symbol
  | true :: word, code => .node code.branches.1 (insert symbol word code.branches.2)
  | false :: word, code => .node (insert symbol word code.branches.1) code.branches.2

/-- The low `width` bits of a number, highest first. -/
def wordBits (width n : Nat) : List Bool :=
  (List.range width).reverse.map n.testBit

/-- Longest word of a code. -/
def maxWidth : Nat := 15

/-- Adds the words of one length, the first of which is given. -/
def insertAll (width first : Nat) (symbols : List Nat) (code : Code) : Code :=
  symbols.zipIdx.foldl (fun code (symbol, i) => code.insert symbol (wordBits width (first + i))) code

def symbolsOf (lengths : List Nat) (width : Nat) : List Nat :=
  (lengths.zipIdx.filter (·.1 == width)).map (·.2)

def build (lengths : List Nat) : Code :=
  ((List.range' 1 maxWidth).foldl (fun (code, first) width =>
    let symbols := symbolsOf lengths width
    (code.insertAll width first symbols, 2 * (first + symbols.length))) (.empty, 0)).1

/-- Share of all words of the greatest length that the code takes up. -/
def weight (lengths : List Nat) : Nat :=
  (lengths.filter (0 < ·)).foldl (fun total width => total + 1 <<< (maxWidth - width)) 0

/-- No word at all, or a single one of one bit. -/
def isSparse (lengths : List Nat) : Bool :=
  lengths.all (· ≤ 1) && decide (lengths.foldl (· + ·) 0 ≤ 1)

/-- The code with the given word lengths, zero for a symbol that has no word. The words have to use
up all bit strings, except those of a sparse code where such a code is allowed. -/
def ofLengths (sparse : Bool) (lengths : List Nat) : Except Stop Code :=
  if weight lengths = 1 <<< maxWidth ∨ (sparse ∧ isSparse lengths) then .ok (build lengths)
  else .error .corrupt

/-- Follows bits down to a symbol. -/
def walk : Code → Parse Nat
  | .leaf symbol => return symbol
  | .empty => throw .corrupt
  | .node zero one => do
    if ← Parse.bit then one.walk else zero.walk

/-- Reads the word of one symbol, at least one bit long. -/
def read (code : Code) : Parse Nat := do
  if ← Parse.bit then code.branches.2.walk else code.branches.1.walk

open Parse

theorem shrinks_walk (code : Code) : Shrinks code.walk := by
  induction code with
  | empty => exact shrinks_throw _
  | leaf symbol => exact shrinks_pure _
  | node zero one hzero hone =>
    refine shrinks_bind shrinks_bit fun taken => ?_
    cases taken
    · exact hzero
    · exact hone

theorem shrinks_branch (code : Code) (taken : Bool) :
    Shrinks (if taken then code.branches.2.walk else code.branches.1.walk) := by
  cases taken <;> exact shrinks_walk _

theorem shrinks_read (code : Code) : Shrinks code.read :=
  shrinks_bind shrinks_bit code.shrinks_branch

theorem left_of_read {code : Code} {b rest : Bits} {symbol : Nat}
    (h : code.read b = .ok (symbol, rest)) : rest.left < b.left :=
  left_of_bit_bind code.shrinks_branch h

end Code
end Shockwave.Inflate
