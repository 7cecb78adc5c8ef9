import Shockwave.Proofs.StringLiterals
import Shockwave.Proofs.Words

/-!
How a line of source text falls into lumps: words, marks, quoted strings and brackets. Spaces and
brackets divide a text, so the lumps of an expression are those of its parts.
-/
namespace Shockwave

inductive Lump where
  | word (cs : List Char)
  | mark (cs : List Char)
  | quoted
  | opening
  | closing
  deriving DecidableEq, Repr

inductive Pending where
  | none
  | word (cs : List Char)
  | mark (c : Char)
  | quoted
  deriving DecidableEq, Repr

/-- Marks of two characters, with the one that starts a comment. -/
def longMarks : List (List Char) := [['-', '-'], ['&', '&'], ['<', '='], ['<', '>'], ['>', '=']]

namespace Pending

def inQuotes : Pending → Bool
  | .quoted => true
  | _ => false

def flush : Pending → List Lump
  | .none => []
  | .word cs => [.word cs]
  | .mark c => [.mark [c]]
  | .quoted => [.quoted]

def start (c : Char) : List Lump × Pending :=
  if isWordChar c then ([], .word [c])
  else if c = '"' then ([], .quoted)
  else if c = ' ' then ([], .none)
  else if c = '(' ∨ c = '[' then ([.opening], .none)
  else if c = ')' ∨ c = ']' then ([.closing], .none)
  else ([], .mark c)

def extend? : Pending → Char → Option (List Lump × Pending)
  | .none, _ => .none
  | .word cs, c => if isWordChar c then some ([], .word (cs ++ [c])) else .none
  | .mark d, c => if [d, c] ∈ longMarks then some ([.mark [d, c]], .none) else .none
  | .quoted, c => if c = '"' then some ([.quoted], .none) else some ([], .quoted)

def feed (p : Pending) (c : Char) : List Lump × Pending :=
  (p.extend? c).getD (p.flush ++ (start c).1, (start c).2)

def read : Pending → List Char → List Lump
  | p, [] => p.flush
  | p, c :: cs => (p.feed c).1 ++ (p.feed c).2.read cs

end Pending

def lumps (cs : List Char) : List Lump := Pending.none.read cs

def Paired (cs : List Char) : Prop := cs.count '"' % 2 = 0

instance (cs : List Char) : Decidable (Paired cs) := inferInstanceAs (Decidable (_ = _))

/-- Characters that end any lump but a quoted string. -/
def dividers : List Char := [' ', '(', ')', '[', ']', ',']

namespace Pending

variable {p : Pending} {cs : List Char} {c : Char}

theorem feed_of_extend? (h : p.extend? c = .none) :
    p.feed c = (p.flush ++ (start c).1, (start c).2) := by
  rw [feed, h, Option.getD_none]

theorem read_of_extend? (h : p.extend? c = .none) (cs : List Char) :
    p.read (c :: cs) = p.flush ++ lumps (c :: cs) := by
  rw [read, feed_of_extend? h, List.append_assoc]
  rfl

theorem extend?_of_mem_dividers (hc : c ∈ dividers) (hp : p.inQuotes = false) :
    p.extend? c = .none := by
  have hword : dividers.all (!isWordChar ·) = true := by decide
  have hlong : ∀ cs ∈ longMarks, (dividers.all fun c => cs[1]? != some c) = true := by decide
  cases p with
  | none => rfl
  | word cs =>
    have hother := List.all_eq_true.mp hword c hc
    rw [extend?, if_neg (by simpa using hother)]
  | mark d =>
    rw [extend?, if_neg]
    intro hmem
    simpa using List.all_eq_true.mp (hlong _ hmem) c hc
  | quoted => cases hp

theorem inQuotes_start (c : Char) : (start c).2.inQuotes = (c == '"') := by
  by_cases hc : c = '"'
  · subst hc
    decide
  · rw [beq_false_of_ne hc]
    unfold start
    rw [if_neg hc]
    repeat' split
    all_goals rfl

/-- What a character can add to: a word, a mark or a quoted string. -/
theorem extend?_cases {next : List Lump × Pending} (h : p.extend? c = some next) :
    (∃ w, p = .word w ∧ isWordChar c = true ∧ next = ([], .word (w ++ [c]))) ∨
      (∃ d, p = .mark d ∧ [d, c] ∈ longMarks ∧ next = ([.mark [d, c]], .none)) ∨
      (p = .quoted ∧ c = '"' ∧ next = ([.quoted], .none)) ∨
      p = .quoted ∧ c ≠ '"' ∧ next = ([], .quoted) := by
  cases p with
  | none => cases h
  | word w =>
    rw [extend?, Option.ite_none_right_eq_some, Option.some.injEq] at h
    exact .inl ⟨w, rfl, h.1, h.2.symm⟩
  | mark d =>
    rw [extend?, Option.ite_none_right_eq_some, Option.some.injEq] at h
    exact .inr (.inl ⟨d, rfl, h.1, h.2.symm⟩)
  | quoted =>
    rw [extend?] at h
    split at h
    next hc => exact .inr (.inr (.inl ⟨rfl, hc, (Option.some.inj h).symm⟩))
    next hc => exact .inr (.inr (.inr ⟨rfl, hc, (Option.some.inj h).symm⟩))

theorem inQuotes_of_extend? (h : p.extend? c = .none) : p.inQuotes = false := by
  cases p with
  | quoted =>
    rw [extend?] at h
    split at h <;> cases h
  | _ => rfl

theorem inQuotes_feed (p : Pending) (c : Char) :
    (p.feed c).2.inQuotes = (p.inQuotes != (c == '"')) := by
  cases hnext : p.extend? c with
  | none =>
    rw [feed_of_extend? hnext, inQuotes_start, inQuotes_of_extend? hnext, Bool.false_bne]
  | some next =>
    have hword : isWordChar '"' = false := by decide
    have hlong : ∀ cs ∈ longMarks, '"' ∉ cs := by decide
    rw [feed, hnext, Option.getD_some]
    obtain ⟨w, rfl, hc, rfl⟩ | ⟨d, rfl, hc, rfl⟩ | ⟨rfl, rfl, rfl⟩ | ⟨rfl, hc, rfl⟩ :=
      extend?_cases hnext
    · have hquote : c ≠ '"' := by
        rintro rfl
        rw [hword] at hc
        cases hc
      simp [inQuotes, hquote]
    · have hquote : c ≠ '"' := by
        rintro rfl
        exact hlong _ hc (by simp)
      simp [inQuotes, hquote]
    · rfl
    · simp [inQuotes, hc]

/-- Whether the string in which a text starts, if it does, and every other one in it ends. -/
def Closes (p : Pending) (cs : List Char) : Prop := cs.count '"' % 2 = p.inQuotes.toNat

theorem closes_cons : p.Closes (c :: cs) ↔ (p.feed c).2.Closes cs := by
  unfold Closes
  rw [inQuotes_feed, List.count_cons]
  cases p.inQuotes <;> cases c == '"' <;> simp <;> omega

theorem closes_nil : p.Closes [] ↔ p.inQuotes = false := by
  unfold Closes
  cases p.inQuotes <;> simp

theorem read_append (hc : c ∈ dividers) (rest : List Char) (h : p.Closes cs) :
    p.read (cs ++ c :: rest) = p.read cs ++ lumps (c :: rest) := by
  induction cs generalizing p with
  | nil => exact read_of_extend? (extend?_of_mem_dividers hc (closes_nil.mp h)) rest
  | cons d cs ih => rw [List.cons_append, read, read, List.append_assoc, ih (closes_cons.mp h)]

theorem read_word {w rest : List Char} (h : ∀ c ∈ cs, isWordChar c = true)
    (hrest : ∀ c, rest.head? = some c → isWordChar c = false) :
    (word w).read (cs ++ rest) = .word (w ++ cs) :: lumps rest := by
  induction cs generalizing w with
  | nil =>
    rw [List.append_nil, List.nil_append]
    cases rest with
    | nil => rfl
    | cons c rest =>
      have hc : (word w).extend? c = .none := by
        rw [extend?, hrest c rfl, if_neg Bool.false_ne_true]
      exact read_of_extend? hc rest
  | cons c cs ih =>
    obtain ⟨hc, hcs⟩ := List.forall_mem_cons.mp h
    have hnext : (word w).feed c = ([], .word (w ++ [c])) := by
      rw [feed, extend?, hc, if_pos rfl, Option.getD_some]
    rw [List.cons_append, read, hnext, List.nil_append, ih hcs, List.append_assoc]
    rfl

theorem read_quoted (h : '"' ∉ cs) (rest : List Char) :
    quoted.read (cs ++ '"' :: rest) = .quoted :: lumps rest := by
  induction cs with
  | nil => rfl
  | cons c cs ih =>
    rw [List.mem_cons, not_or] at h
    have hnext : quoted.feed c = ([], .quoted) := by
      rw [feed, extend?, if_neg (Ne.symm h.1), Option.getD_some]
    rw [List.cons_append, read, hnext, List.nil_append, ih h.2]

end Pending

section

variable {cs rest left right : List Char} {c : Char}

theorem paired_append (hleft : Paired left) (hright : Paired right) : Paired (left ++ right) := by
  unfold Paired at *
  rw [List.count_append]
  omega

theorem paired_of_not_mem (h : '"' ∉ cs) : Paired cs := by
  rw [Paired, List.count_eq_zero.mpr h]

theorem paired_cons (hc : c ≠ '"') : Paired (c :: cs) ↔ Paired cs := by
  rw [Paired, List.count_cons_of_ne hc, Paired]

theorem paired_divided (hc : c ≠ '"') (hleft : Paired left) (hright : Paired right) :
    Paired (left ++ c :: right) :=
  paired_append hleft ((paired_cons hc).mpr hright)

theorem paired_intercalate {texts : List (List Char)} (hrest : Paired rest)
    (h : ∀ text ∈ texts, Paired text) : Paired (rest.intercalate texts) := by
  induction texts with
  | nil => rfl
  | cons text texts ih =>
    obtain ⟨htext, htexts⟩ := List.forall_mem_cons.mp h
    cases texts with
    | nil => rwa [List.intercalate_singleton]
    | cons next others =>
      rw [List.intercalate_cons_cons]
      exact paired_append (paired_append htext hrest) (ih htexts)

theorem paired_enclosed (wanted : Bool) (h : Paired cs) : Paired (enclosed wanted cs) := by
  cases wanted with
  | false => exact h
  | true =>
    have hclosing : Paired [')'] := by decide
    exact (paired_cons (by decide)).mpr (paired_append h hclosing)

theorem lumps_divided (hc : c ∈ dividers) (h : Paired cs) (rest : List Char) :
    lumps (cs ++ c :: rest) = lumps cs ++ lumps (c :: rest) :=
  Pending.read_append hc rest h

theorem lumps_space (h : Paired cs) (rest : List Char) :
    lumps (cs ++ ' ' :: rest) = lumps cs ++ lumps rest :=
  lumps_divided (by decide) h rest

theorem lumps_parens (h : Paired cs) (rest : List Char) :
    lumps ('(' :: (cs ++ ')' :: rest)) = .opening :: (lumps cs ++ .closing :: lumps rest) :=
  congrArg (Lump.opening :: ·) (lumps_divided (by decide) h rest)

theorem lumps_run_append (h : IsRun cs)
    (hrest : ∀ c, rest.head? = some c → isWordChar c = false) :
    lumps (cs ++ rest) = .word cs :: lumps rest := by
  cases cs with
  | nil => exact absurd rfl h.ne_nil
  | cons c cs =>
    obtain ⟨hc, hcs⟩ := List.forall_mem_cons.mp h.all
    have hstart : Pending.none.feed c = ([], .word [c]) := if_pos hc
    rw [List.cons_append, lumps, Pending.read, hstart, List.nil_append,
      Pending.read_word hcs hrest]
    rfl

theorem lumps_run (h : IsRun cs) : lumps cs = [.word cs] := by
  have hlumps : lumps (cs ++ []) = .word cs :: lumps [] := lumps_run_append h (by simp)
  rwa [List.append_nil] at hlumps

theorem lumps_minus (h : cs.head? ≠ some '-') : lumps ('-' :: cs) = .mark ['-'] :: lumps cs := by
  cases cs with
  | nil => rfl
  | cons c cs =>
    have hc : c ≠ '-' := fun hminus => h (congrArg some hminus)
    have hnext : (Pending.mark '-').extend? c = none := by
      simp [Pending.extend?, longMarks, hc]
    exact Pending.read_of_extend? hnext cs

theorem lumps_signed (h : IsWord cs) (negative : Bool) :
    lumps (signed negative cs) = if negative then [.mark ['-'], .word cs] else [.word cs] := by
  cases negative with
  | false => exact lumps_run h.toIsRun
  | true =>
    have hlumps := lumps_minus (h.head?_ne (c := '-') (by decide))
    rwa [lumps_run h.toIsRun] at hlumps

theorem lumps_negative (hleft : IsWord left) (hright : IsWord right) :
    lumps (left ++ '-' :: right) = [.word left, .mark ['-'], .word right] := by
  have hminus := lumps_signed hright true
  have hhead (c : Char) (hc : ('-' :: right).head? = some c) : isWordChar c = false := by
    cases hc
    decide
  exact (lumps_run_append hleft.toIsRun hhead).trans (congrArg (Lump.word left :: ·) hminus)

theorem lumps_quoted (h : '"' ∉ cs) (rest : List Char) :
    lumps ('"' :: (cs ++ '"' :: rest)) = .quoted :: lumps rest :=
  Pending.read_quoted h rest

end

theorem lumps_intercalate {texts : List (List Char)} (h : ∀ text ∈ texts, Paired text) :
    lumps ([',', ' '].intercalate texts) = [Lump.mark [',']].intercalate (texts.map lumps) := by
  induction texts with
  | nil => rfl
  | cons text texts ih =>
    obtain ⟨htext, htexts⟩ := List.forall_mem_cons.mp h
    cases texts with
    | nil => simp
    | cons next others =>
      have hcomma := lumps_divided (c := ',') (by decide) htext
        (' ' :: [',', ' '].intercalate (next :: others))
      rw [List.intercalate_cons_cons, List.append_assoc, List.map_cons, List.map_cons,
        List.intercalate_cons_cons, List.append_assoc]
      exact hcomma.trans (congrArg (fun ls => lumps text ++ .mark [','] :: ls) (ih htexts))

namespace Quoted

def Piece.lump : Piece → Lump
  | .quote => .word "QUOTE".toList
  | .run _ => .quoted

theorem lumps_following {ps : List Piece} (h : Proper ps) :
    lumps (following ps) = ps.flatMap fun p => [.mark ['&'], p.lump] := by
  have hhead (ps : List Piece) (c : Char) (hc : (following ps).head? = some c) :
      isWordChar c = false := by
    cases ps with
    | nil => cases hc
    | cons p ps =>
      cases hc
      rfl
  induction h with
  | nil => rfl
  | @quote ps _ ih =>
    have hword : IsWord "QUOTE".toList := .of_isFree (by decide)
    have hlumps := lumps_run_append hword.toIsRun (hhead ps)
    rw [ih] at hlumps
    exact congrArg (Lump.mark ['&'] :: ·) hlumps
  | @run chars ps _ hfree _ _ ih =>
    have hlumps := lumps_quoted hfree (following ps)
    rw [ih] at hlumps
    rw [following, List.flatMap_cons, List.append_assoc, toList_text_run]
    exact congrArg (Lump.mark ['&'] :: ·) hlumps

theorem lumps_joined {p : Piece} {ps : List Piece} (h : Proper (p :: ps)) :
    lumps (joined (p :: ps)).toList = p.lump :: ps.flatMap fun p => [.mark ['&'], p.lump] := by
  have hlumps := lumps_following h
  rw [List.flatMap_cons] at hlumps
  rw [toList_joined_cons]
  exact (List.cons.inj hlumps).2

end Quoted

def Lump.isFlat : Lump → Bool
  | .opening | .closing => false
  | .mark cs => cs != ['-', '-']
  | .word _ | .quoted => true

theorem IsSpelling.flat {cs : List Char} (h : IsSpelling cs) :
    ∀ l ∈ lumps cs, l.isFlat = true := by
  cases h with
  | word h =>
    rw [lumps_run h]
    simp [Lump.isFlat]
  | negative hstem hdigits =>
    rw [lumps_negative hstem hdigits]
    simp [Lump.isFlat]

theorem IsSpelling.paired {cs : List Char} (h : IsSpelling cs) : Paired cs :=
  paired_of_not_mem (h.not_mem (by decide) (by decide))

theorem IsWord.paired_signed {cs : List Char} (h : IsWord cs) (negative : Bool) :
    Paired (signed negative cs) := by
  have hword := paired_of_not_mem (h.not_mem (c := '"') (by decide))
  cases negative with
  | false => exact hword
  | true => exact (paired_cons (by decide)).mpr hword

namespace Quoted

theorem Proper.paired {ps : List Piece} (h : Proper ps) :
    ∀ p ∈ ps, Paired p.text.toList := by
  have hquote : Paired Piece.quote.text.toList := by decide
  induction h with
  | nil => simp
  | quote _ ih => exact List.forall_mem_cons.mpr ⟨hquote, ih⟩
  | @run chars ps _ hfree _ _ ih =>
    refine List.forall_mem_cons.mpr ⟨?_, ih⟩
    have htext := toList_text_run chars []
    rw [List.append_nil] at htext
    rw [htext, Paired]
    simp [List.count_eq_zero.mpr hfree]

theorem paired_literal (s : String) : Paired (literal s).toList := by
  by_cases h : s = ""
  · subst h
    decide
  · rw [literal_eq_joined h, joined, String.toList_intercalate]
    refine paired_intercalate (by decide) ?_
    simpa using (proper_pieces s.toList).paired

theorem flat_literal (s : String) : ∀ l ∈ lumps (literal s).toList, l.isFlat = true := by
  have hlump (p : Piece) : p.lump.isFlat = true := by
    cases p <;> rfl
  by_cases h : s = ""
  · subst h
    decide
  · rw [literal_eq_joined h]
    have hproper := proper_pieces s.toList
    cases hpieces : pieces s.toList with
    | nil => simp [joined, lumps, Pending.read, Pending.flush]
    | cons p ps =>
      rw [hpieces] at hproper
      rw [lumps_joined hproper]
      refine List.forall_mem_cons.mpr ⟨hlump p, fun l hl => ?_⟩
      obtain ⟨q, -, hq⟩ := List.mem_flatMap.mp hl
      simp only [List.mem_cons, List.not_mem_nil, or_false] at hq
      rcases hq with rfl | rfl
      · rfl
      · exact hlump q

end Quoted

namespace Datum

def isNegative : Datum → Bool
  | .int value => decide (value.toInt < 0)
  | .float value => value.negative && !value.isNaN
  | _ => false

theorem texts_eq_map (items : List Datum) : texts items = items.map text := by
  induction items with
  | nil => rfl
  | cons item items ih => rw [texts, ih, List.map_cons]

theorem toList_text_list (items : List Datum) :
    (list items).text.toList =
      '[' :: ([',', ' '].intercalate (items.map (·.text.toList)) ++ [']']) := by
  simp [text, texts_eq_map, Function.comp_def]

theorem toList_text_symbol (name : String) : (symbol name).text.toList = '#' :: name.toList := by
  simp [text]

theorem toList_text_int (n : Int32) :
    ∃ cs, IsWord cs ∧ (int n).text.toList = signed (int n).isNegative cs :=
  ⟨_, isWord_repr n.toInt.natAbs, toList_repr_int n.toInt⟩

theorem toList_text_float (x : Binary64) :
    ∃ cs, IsWord cs ∧ (float x).text.toList = signed (float x).isNegative cs :=
  x.toList_text

mutual

theorem paired_text : (value : Datum) →
    (∀ name ∈ value.names, IsSpelling name.toList) → Paired value.text.toList
  | .void, _ => by decide
  | .symbol name, h => by
    rw [toList_text_symbol]
    exact (h name List.mem_cons_self).symbol.paired
  | .varRef name, h => (h name List.mem_cons_self).paired
  | .string s, _ => Quoted.paired_literal s
  | .int n, _ => by
    obtain ⟨cs, hcs, htext⟩ := toList_text_int n
    rw [htext]
    exact hcs.paired_signed _
  | .float x, _ => by
    obtain ⟨cs, hcs, htext⟩ := toList_text_float x
    rw [htext]
    exact hcs.paired_signed _
  | .list items, h => by
    have hcomma : Paired [',', ' '] := by decide
    have hclosing : Paired [']'] := by decide
    have hitems := paired_intercalate hcomma (paired_texts items h)
    rw [toList_text_list]
    exact (paired_cons (by decide)).mpr (paired_append hitems hclosing)

theorem paired_texts : (items : List Datum) →
    (∀ name ∈ namesIn items, IsSpelling name.toList) →
    ∀ text ∈ items.map (·.text.toList), Paired text
  | [], _ => by simp
  | item :: items, h => by
    obtain ⟨hitem, hitems⟩ := List.forall_mem_append.mp h
    exact List.forall_mem_cons.mpr ⟨paired_text item hitem, paired_texts items hitems⟩

end

theorem lumps_list {items : List Datum} (h : ∀ name ∈ namesIn items, IsSpelling name.toList) :
    lumps (list items).text.toList =
      .opening :: ([Lump.mark [',']].intercalate (items.map (lumps ·.text.toList)) ++
        [.closing]) := by
  have hcomma : Paired [',', ' '] := by decide
  have hitems := paired_texts items h
  have hlumps := lumps_divided (c := ']') (by decide) (paired_intercalate hcomma hitems) []
  rw [lumps_intercalate hitems, List.map_map] at hlumps
  rw [toList_text_list]
  exact congrArg (Lump.opening :: ·) hlumps

theorem flat_lumps {value : Datum} (hlist : ∀ items, value ≠ .list items)
    (h : ∀ name ∈ value.names, IsSpelling name.toList) :
    ∀ l ∈ lumps value.text.toList, l.isFlat = true := by
  have hsigned {cs : List Char} (hcs : IsWord cs) (negative : Bool) :
      ∀ l ∈ lumps (signed negative cs), l.isFlat = true := by
    rw [lumps_signed hcs]
    cases negative <;> simp [Lump.isFlat]
  cases value with
  | void => decide
  | symbol name =>
    rw [toList_text_symbol]
    exact (h name List.mem_cons_self).symbol.flat
  | varRef name => exact (h name List.mem_cons_self).flat
  | string s => exact Quoted.flat_literal s
  | int n =>
    obtain ⟨cs, hcs, htext⟩ := toList_text_int n
    rw [htext]
    exact hsigned hcs _
  | float x =>
    obtain ⟨cs, hcs, htext⟩ := toList_text_float x
    rw [htext]
    exact hsigned hcs _
  | list items => exact absurd rfl (hlist items)

end Datum
end Shockwave
