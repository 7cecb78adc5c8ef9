import Shockwave.Inflate.Code

/-!
Blocks of a deflate stream as a list of tokens: bytes that stand for themselves and copies of earlier
output. Tokens read before a fault are kept.
-/
namespace Shockwave.Inflate

inductive Token where
  | literal (byte : UInt8)
  | copy (length distance : Nat)
  deriving DecidableEq, Repr

/-- Base value and number of extra bits of each length symbol from 257 on. -/
def lengthSteps : List (Nat × Nat) :=
  [(3, 0), (4, 0), (5, 0), (6, 0), (7, 0), (8, 0), (9, 0), (10, 0), (11, 1), (13, 1), (15, 1),
   (17, 1), (19, 2), (23, 2), (27, 2), (31, 2), (35, 3), (43, 3), (51, 3), (59, 3), (67, 4), (83, 4),
   (99, 4), (115, 4), (131, 5), (163, 5), (195, 5), (227, 5), (258, 0)]

/-- Base value and number of extra bits of each distance symbol. -/
def distanceSteps : List (Nat × Nat) :=
  [(1, 0), (2, 0), (3, 0), (4, 0), (5, 1), (7, 1), (9, 2), (13, 2), (17, 3), (25, 3), (33, 4), (49, 4),
   (65, 5), (97, 5), (129, 6), (193, 6), (257, 7), (385, 7), (513, 8), (769, 8), (1025, 9), (1537, 9),
   (2049, 10), (3073, 10), (4097, 11), (6145, 11), (8193, 12), (12289, 12), (16385, 13), (24577, 13)]

/-- Order in which a dynamic block lists the word lengths of its length code. -/
def lengthOrder : List Nat :=
  [16, 17, 18, 0, 8, 7, 9, 6, 10, 5, 11, 4, 12, 3, 13, 2, 14, 1, 15]

structure Codes where
  literal : Code
  distance : Code

def fixedCodes : Codes where
  literal := .build (List.replicate 144 8 ++ List.replicate 112 9 ++ List.replicate 24 7 ++
    List.replicate 8 8)
  distance := .build (List.replicate 32 5)

open Parse

/-- A value in steps: the base of the symbol plus its extra bits. -/
def stepped (steps : List (Nat × Nat)) (symbol : Nat) : Parse Nat :=
  match steps[symbol]? with
  | none => throw .corrupt
  | some (base, extra) => return base + (← bits extra)

/-- What follows a literal or length symbol; nothing stands for the end of the block. -/
def tokenOf (distance : Code) (symbol : Nat) : Parse (Option Token) := do
  if symbol < 256 then return some (.literal (UInt8.ofNat symbol))
  if symbol = 256 then return none
  let length ← stepped lengthSteps (symbol - 257)
  let distance ← stepped distanceSteps (← distance.read)
  return some (.copy length distance)

def token (codes : Codes) : Parse (Option Token) := do
  tokenOf codes.distance (← codes.literal.read)

theorem shrinks_stepped (steps : List (Nat × Nat)) (symbol : Nat) : Shrinks (stepped steps symbol) := by
  unfold stepped
  split
  · exact shrinks_throw _
  · exact shrinks_bind (shrinks_bits _) fun _ => shrinks_pure _

theorem shrinks_tokenOf (distance : Code) (symbol : Nat) : Shrinks (tokenOf distance symbol) := by
  unfold tokenOf
  split
  · exact shrinks_pure _
  · split
    · exact shrinks_pure _
    · exact shrinks_bind (shrinks_stepped _ _) fun _ =>
        shrinks_bind (Code.shrinks_read _) fun _ =>
          shrinks_bind (shrinks_stepped _ _) fun _ => shrinks_pure _

theorem left_of_token {codes : Codes} {b rest : Bits} {t : Option Token}
    (h : token codes b = .ok (t, rest)) : rest.left < b.left := by
  simp only [token, bind, StateT.bind, Except.bind] at h
  split at h
  · contradiction
  · next first hfirst =>
    exact Nat.lt_of_le_of_lt (shrinks_tokenOf _ _ h) (Code.left_of_read hfirst)

/-- Tokens read so far, and the bits that follow or why there are none. -/
structure Progress where
  tokens : Array Token
  rest : Except Stop Bits

/-- Tokens up to the end of a compressed block. -/
def compressed (codes : Codes) (sofar : Array Token) (b : Bits) : Progress :=
  match _h : token codes b with
  | .error e => ⟨sofar, .error e⟩
  | .ok (none, rest) => ⟨sofar, .ok rest⟩
  | .ok (some t, rest) => compressed codes (sofar.push t) rest
termination_by b.left
decreasing_by exact left_of_token _h

/-- The length of a stored block, which is written twice, the second time inverted. -/
def storedLength : Parse Nat := do
  align
  let length ← bits 16
  let check ← bits 16
  if length + check = 0xFFFF then return length else throw .corrupt

/-- Bytes of a stored block. -/
def stored (sofar : Array Token) (b : Bits) : Progress :=
  match storedLength b with
  | .error e => ⟨sofar, .error e⟩
  | .ok (length, b) =>
    let start := b.used / 8
    let bytes := b.data.extract start (start + length)
    ⟨sofar ++ bytes.data.map .literal,
      if bytes.size < length then .error .truncated
      else .ok { b with used := b.used + 8 * length }⟩

/-- Appends the lengths that a symbol of the length code stands for. -/
def repeated (lengths : List Nat) (symbol : Nat) : Parse (List Nat) :=
  match symbol with
  | 16 => match lengths.getLast? with
    | none => throw .corrupt
    | some last => return lengths ++ List.replicate (3 + (← bits 2)) last
  | 17 => return lengths ++ List.replicate (3 + (← bits 3)) 0
  | 18 => return lengths ++ List.replicate (11 + (← bits 7)) 0
  | length => return lengths ++ [length]

theorem shrinks_repeated (lengths : List Nat) (symbol : Nat) : Shrinks (repeated lengths symbol) := by
  unfold repeated
  split
  · split
    · exact shrinks_throw _
    · exact shrinks_bind (shrinks_bits _) fun _ => shrinks_pure _
  · exact shrinks_bind (shrinks_bits _) fun _ => shrinks_pure _
  · exact shrinks_bind (shrinks_bits _) fun _ => shrinks_pure _
  · exact shrinks_pure _

theorem left_of_lengthStep {code : Code} {lengths more : List Nat} {b rest : Bits}
    (h : (code.read >>= repeated lengths) b = .ok (more, rest)) : rest.left < b.left := by
  simp only [bind, StateT.bind, Except.bind] at h
  split at h
  · contradiction
  · next first hfirst =>
    exact Nat.lt_of_le_of_lt (shrinks_repeated _ _ h) (Code.left_of_read hfirst)

/-- Word lengths up to a total number of them, which a repetition must not overshoot. -/
def wordLengths (code : Code) (total : Nat) (lengths : List Nat) (b : Bits) :
    Except Stop (List Nat × Bits) :=
  if lengths.length < total then
    match _h : (code.read >>= repeated lengths) b with
    | .error e => .error e
    | .ok (lengths, rest) => wordLengths code total lengths rest
  else if lengths.length = total then .ok (lengths, b)
  else .error .corrupt
termination_by b.left
decreasing_by exact left_of_lengthStep _h

theorem shrinks_wordLengths (code : Code) (total : Nat) (lengths : List Nat) :
    Shrinks (wordLengths code total lengths) := by
  intro b a rest h
  fun_induction wordLengths code total lengths b with
  | case1 => contradiction
  | case2 _ _ _ _ _ hstep ih => exact Nat.le_trans (ih h) (Nat.le_of_lt (left_of_lengthStep hstep))
  | case3 =>
    cases h
    exact Nat.le_refl _
  | case4 => contradiction

/-- The word lengths of the length code, put back into symbol order. -/
def lengthCodeLengths (listed : List Nat) : List Nat :=
  (List.range 19).map fun symbol =>
    ((lengthOrder.zip listed).find? (·.1 == symbol)).elim 0 (·.2)

def bitTriples : Nat → Parse (List Nat)
  | 0 => return []
  | n + 1 => do
    let first ← bits 3
    return first :: (← bitTriples n)

/-- The two codes of a dynamic block, with the announced number of words of each kind. -/
def announcedCodes (literals distances listed : Nat) : Parse Codes := do
  let triples ← bitTriples listed
  let code ← StateT.lift (Code.ofLengths false (lengthCodeLengths triples))
  let lengths ← wordLengths code (literals + distances) []
  let distance ← StateT.lift (Code.ofLengths true (lengths.drop literals))
  let literal ← StateT.lift (Code.ofLengths true (lengths.take literals))
  return { literal, distance }

/-- The head of a dynamic block. -/
def dynamicCodes : Parse Codes := do
  let literals := 257 + (← bits 5)
  let distances := 1 + (← bits 5)
  let listed := 4 + (← bits 4)
  if 286 < literals ∨ 30 < distances then throw .corrupt
  else announcedCodes literals distances listed

theorem shrinks_lift (outcome : Except Stop α) : Shrinks (StateT.lift outcome : Parse α) := by
  intro b a rest h
  cases outcome with
  | error e => contradiction
  | ok value =>
    cases h
    exact Nat.le_refl _

theorem shrinks_bitTriples (n : Nat) : Shrinks (bitTriples n) := by
  induction n with
  | zero => exact shrinks_pure _
  | succ n ih => exact shrinks_bind (shrinks_bits _) fun _ => shrinks_bind ih fun _ => shrinks_pure _

theorem shrinks_announcedCodes (literals distances listed : Nat) :
    Shrinks (announcedCodes literals distances listed) :=
  shrinks_bind (shrinks_bitTriples _) fun _ => shrinks_bind (shrinks_lift _) fun _ =>
    shrinks_bind (shrinks_wordLengths _ _ _) fun _ => shrinks_bind (shrinks_lift _) fun _ =>
      shrinks_bind (shrinks_lift _) fun _ => shrinks_pure _

theorem shrinks_dynamicCodes : Shrinks dynamicCodes := by
  refine shrinks_bind (shrinks_bits _) fun _ => shrinks_bind (shrinks_bits _) fun _ =>
    shrinks_bind (shrinks_bits _) fun _ => ?_
  split
  · exact shrinks_throw _
  · exact shrinks_announcedCodes _ _ _

/-- The tokens of a block of the given kind. -/
def block (kind : Nat) (sofar : Array Token) (b : Bits) : Progress :=
  match kind with
  | 0 => stored sofar b
  | 1 => compressed fixedCodes sofar b
  | 2 => match dynamicCodes b with
    | .error e => ⟨sofar, .error e⟩
    | .ok (codes, b) => compressed codes sofar b
  | _ => ⟨sofar, .error .corrupt⟩

theorem left_of_compressed {codes : Codes} {sofar : Array Token} {b rest : Bits}
    (h : (compressed codes sofar b).rest = .ok rest) : rest.left ≤ b.left := by
  fun_induction compressed codes sofar b with
  | case1 => contradiction
  | case2 _ _ _ htoken =>
    cases h
    exact Nat.le_of_lt (left_of_token htoken)
  | case3 _ _ _ _ htoken ih => exact Nat.le_trans (ih h) (Nat.le_of_lt (left_of_token htoken))

theorem shrinks_storedLength : Shrinks storedLength := by
  refine shrinks_bind shrinks_align fun _ => shrinks_bind (shrinks_bits _) fun _ =>
    shrinks_bind (shrinks_bits _) fun _ => ?_
  split
  · exact shrinks_pure _
  · exact shrinks_throw _

theorem left_of_stored {sofar : Array Token} {b rest : Bits}
    (h : (stored sofar b).rest = .ok rest) : rest.left ≤ b.left := by
  unfold stored at h
  split at h
  · contradiction
  · next length b' hlength =>
    have := shrinks_storedLength hlength
    dsimp only at h
    split at h
    · contradiction
    · cases h
      simp only [Bits.left] at *
      omega

theorem left_of_block {kind : Nat} {sofar : Array Token} {b rest : Bits}
    (h : (block kind sofar b).rest = .ok rest) : rest.left ≤ b.left := by
  unfold block at h
  split at h
  · exact left_of_stored h
  · exact left_of_compressed h
  · split at h
    · contradiction
    · next hcodes => exact Nat.le_trans (left_of_compressed h) (shrinks_dynamicCodes hcodes)
  · contradiction

/-- Whether a block is the last one, and its kind. -/
def blockHead : Parse (Bool × Nat) := do
  let last ← bit
  return (last, ← bits 2)

theorem left_of_blockHead {b rest : Bits} {head : Bool × Nat}
    (h : blockHead b = .ok (head, rest)) : rest.left < b.left :=
  left_of_bit_bind (fun _ => shrinks_bind (shrinks_bits 2) fun _ => shrinks_pure _) h

/-- The tokens of all blocks up to the last one. -/
def blocks (sofar : Array Token) (b : Bits) : Progress :=
  match _h : blockHead b with
  | .error e => ⟨sofar, .error e⟩
  | .ok ((last, kind), b') =>
    match _hb : (block kind sofar b').rest with
    | .error e => ⟨(block kind sofar b').tokens, .error e⟩
    | .ok rest =>
      if last then ⟨(block kind sofar b').tokens, .ok rest⟩
      else blocks (block kind sofar b').tokens rest
termination_by b.left
decreasing_by exact Nat.lt_of_le_of_lt (left_of_block _hb) (left_of_blockHead _h)

end Shockwave.Inflate
