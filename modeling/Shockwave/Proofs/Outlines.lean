import Shockwave.Proofs.Phrases

/-!
The outline of a text: what shows of it outside of brackets and quoted strings. The outline of a
literal or a name is that of a single operand unless a sign shows in it, as one does between the
pieces of a string with quotes, and in a name that is made up with a negative number.
-/
namespace Shockwave

/-- The lumps outside of brackets, in which the opening one stands for all up to its closing one. -/
def outer : Nat → List Lump → List Lump
  | _, [] => []
  | 0, .opening :: ls => .opening :: outer 1 ls
  | depth + 1, .opening :: ls => outer (depth + 2) ls
  | depth, .closing :: ls => outer (depth - 1) ls
  | 0, l :: ls => l :: outer 0 ls
  | depth + 1, _ :: ls => outer (depth + 1) ls

structure Matched (ls : List Lump) : Prop where
  inside (depth : Nat) (rest : List Lump) : outer (depth + 1) (ls ++ rest) = outer (depth + 1) rest
  outside (rest : List Lump) : outer 0 (ls ++ rest) = outer 0 ls ++ outer 0 rest

def Lump.isBracket : Lump → Bool
  | .opening | .closing => true
  | _ => false

section

variable {ls more : List Lump} {l : Lump}

theorem outer_cons (h : l.isBracket = false) (ls : List Lump) :
    outer 0 (l :: ls) = l :: outer 0 ls ∧
      ∀ depth, outer (depth + 1) (l :: ls) = outer (depth + 1) ls := by
  cases l with
  | opening | closing => cases h
  | _ => exact ⟨rfl, fun _ => rfl⟩

namespace Matched

theorem nil : Matched [] := ⟨fun _ _ => rfl, fun _ => rfl⟩

theorem append (h : Matched ls) (hmore : Matched more) : Matched (ls ++ more) := by
  constructor
  · intro depth rest
    rw [List.append_assoc, h.inside, hmore.inside]
  · intro rest
    rw [List.append_assoc, h.outside, hmore.outside, h.outside, List.append_assoc]

theorem cons (h : l.isBracket = false) (hmore : Matched more) : Matched (l :: more) := by
  constructor
  · intro depth rest
    rw [List.cons_append, (outer_cons h _).2, hmore.inside]
  · intro rest
    rw [List.cons_append, (outer_cons h _).1, (outer_cons h _).1, hmore.outside, List.cons_append]

theorem of_forall (h : ∀ l ∈ ls, l.isBracket = false) : Matched ls := by
  induction ls with
  | nil => exact nil
  | cons l ls ih =>
    obtain ⟨hl, hls⟩ := List.forall_mem_cons.mp h
    exact (ih hls).cons hl

theorem outer_brackets (h : Matched ls) (rest : List Lump) :
    outer 0 (.opening :: (ls ++ .closing :: rest)) = .opening :: outer 0 rest := by
  rw [outer, h.inside]
  rfl

theorem brackets (h : Matched ls) : Matched (.opening :: (ls ++ [.closing])) := by
  constructor
  · intro depth rest
    rw [List.cons_append, List.append_assoc, outer, h.inside]
    rfl
  · intro rest
    rw [List.cons_append, List.append_assoc, List.singleton_append, h.outer_brackets,
      h.outer_brackets]
    rfl

theorem bracketed (h : Matched ls) (wanted : Bool) : Matched (bracketed wanted ls) := by
  cases wanted with
  | false => exact h
  | true => exact h.brackets

theorem intercalate (hls : Matched ls) {lists : List (List Lump)}
    (h : ∀ list ∈ lists, Matched list) : Matched (ls.intercalate lists) := by
  induction lists with
  | nil => exact nil
  | cons list lists ih =>
    obtain ⟨hlist, hlists⟩ := List.forall_mem_cons.mp h
    cases lists with
    | nil => rwa [List.intercalate_singleton]
    | cons next rest =>
      rw [List.intercalate_cons_cons]
      exact (hlist.append hls).append (ih hlists)

end Matched

end

def outline (cs : List Char) : List Lump := outer 0 (lumps cs)

namespace Lump

def IsInfix (l : Lump) : Prop := ∃ op sign, Opcode.binarySign? op = some sign ∧ l = ofSign sign

inductive Ends : Lump → Prop where
  | word {cs : List Char} (h : IsWord cs) : Ends (.word cs)
  | quoted : Ends .quoted
  | brackets : Ends .opening

end Lump

/-- A sign stands between operands; a minus does if an operand ends in front of it. -/
def HasInfix (ls : List Lump) : Prop :=
  ∃ before l after, ls = before ++ l :: after ∧ l.IsInfix ∧
    (l = .mark ['-'] → ∃ last, before.getLast? = some last ∧ last.Ends)

inductive IsReference : List Lump → Prop where
  | word {cs : List Char} (h : IsWord cs) : IsReference [.word cs]
  | property {cs : List Char} (h : IsWord cs) : IsReference [.word "the".toList, .word cs]

inductive IsOperand : List Lump → Prop where
  | reference {ls : List Lump} (h : IsReference ls) : IsOperand ls
  | call {ls : List Lump} (h : IsReference ls) : IsOperand (ls ++ [.opening])
  | negative {cs : List Char} (h : IsWord cs) : IsOperand [.mark ['-'], .word cs]
  | quoted : IsOperand [.quoted]
  | list : IsOperand [.opening]

def Grammar.Token.sign? : Grammar.Token → Option String
  | .sign op => op.binarySign?
  | _ => none

def isSignWord (word : String) : Bool :=
  ((Grammar.reserved.lookup word).bind Grammar.Token.sign?).isSome

namespace Lump

theorem isInfix_word_iff {cs : List Char} (h : IsRun cs) :
    (Lump.word cs).IsInfix ↔ isSignWord (String.ofList cs) = true := by
  constructor
  · rintro ⟨op, sign, hsign, hword⟩
    have hsigns : isSignWord sign = true ∨ sign.toList.all isWordChar = false := by
      cases op <;> cases hsign <;> decide
    unfold ofSign at hword
    split at hword
    next hall =>
      cases hword
      rw [String.ofList_toList]
      exact hsigns.resolve_right (by rw [hall]; exact Bool.noConfusion)
    next => cases hword
  · intro hsign
    have hreserved : ∀ entry ∈ Grammar.reserved,
        entry.2.sign? = none ∨ entry.2.sign? = some entry.1 := by decide
    obtain ⟨sign, hsign⟩ := Option.isSome_iff_exists.mp hsign
    obtain ⟨token, htoken, hsign⟩ := Option.bind_eq_some_iff.mp hsign
    obtain ⟨before, after, hentries, -⟩ := List.lookup_eq_some_iff.mp htoken
    have hentry := hreserved (String.ofList cs, token) (by rw [hentries]; simp)
    cases token with
    | sign op =>
      refine ⟨op, String.ofList cs, hentry.resolve_left (by simp [hsign]), ?_⟩
      rw [ofSign, if_pos (by rw [String.toList_ofList, List.all_eq_true]; exact h.all),
        String.toList_ofList]
    | _ => cases hsign

theorem not_isInfix_of {l : Lump} (h : l = .quoted ∨ l = .opening) : ¬l.IsInfix := by
  rintro ⟨op, sign, -, rfl⟩
  unfold ofSign at h
  split at h <;> simp at h

theorem not_isInfix_word {cs : List Char} (h : IsWord cs) : ¬(Lump.word cs).IsInfix := by
  rw [isInfix_word_iff h.toIsRun, isSignWord, h.free]
  exact Bool.noConfusion

end Lump

theorem HasInfix.append {ls : List Lump} (h : HasInfix ls) (more : List Lump) :
    HasInfix (ls ++ more) := by
  obtain ⟨before, l, after, rfl, hshown, hminus⟩ := h
  exact ⟨before, l, after ++ more, by simp, hshown, hminus⟩

theorem not_hasInfix_of_forall {ls : List Lump} (h : ∀ l ∈ ls, ¬l.IsInfix) : ¬HasInfix ls := by
  rintro ⟨before, l, after, rfl, hshown, -⟩
  exact h l (by simp) hshown

theorem isWord_the : IsWord "the".toList := .of_isFree (by decide)

theorem IsReference.isWord {ls : List Lump} (h : IsReference ls) :
    ∀ l ∈ ls, ∃ cs, IsWord cs ∧ l = .word cs := by
  cases h with
  | word h => simpa using h
  | property h => simpa using ⟨isWord_the, h⟩

namespace IsOperand

variable {ls : List Lump}

theorem ne_nil (h : IsOperand ls) : ls ≠ [] := by
  cases h with
  | reference h => cases h <;> simp
  | _ => simp

theorem isWord_of_mem (h : IsOperand ls) {cs : List Char} (hmem : .word cs ∈ ls) : IsWord cs := by
  have hreference {ls : List Lump} (h : IsReference ls) (hmem : .word cs ∈ ls) : IsWord cs := by
    obtain ⟨cs', hcs, hword⟩ := h.isWord _ hmem
    cases hword
    exact hcs
  cases h with
  | reference h => exact hreference h hmem
  | call h =>
    rw [List.mem_append] at hmem
    exact hreference h (hmem.resolve_right (by simp))
  | negative h =>
    simp at hmem
    exact hmem ▸ h
  | quoted | list => simp at hmem

theorem not_hasInfix (h : IsOperand ls) : ¬HasInfix ls := by
  have hquoted := Lump.not_isInfix_of (.inl rfl : Lump.quoted = _ ∨ _)
  have hopening := Lump.not_isInfix_of (.inr rfl : _ ∨ Lump.opening = _)
  have hreference {ls : List Lump} (h : IsReference ls) : ∀ l ∈ ls, ¬l.IsInfix := by
    intro l hl
    obtain ⟨cs, hcs, rfl⟩ := h.isWord l hl
    exact Lump.not_isInfix_word hcs
  cases h with
  | reference h => exact not_hasInfix_of_forall (hreference h)
  | call h =>
    refine not_hasInfix_of_forall (List.forall_mem_append.mpr ⟨hreference h, ?_⟩)
    simpa using hopening
  | @negative cs h =>
    -- The minus comes first, so there is no operand in front of it.
    rintro ⟨before, l, after, hls, hshown, hminus⟩
    cases before with
    | nil =>
      cases hls
      obtain ⟨last, hlast, -⟩ := hminus rfl
      cases hlast
    | cons first before =>
      have hmem : l ∈ [Lump.word cs] := by
        rw [(List.cons.inj hls).2]
        simp
      rw [List.mem_singleton.mp hmem] at hshown
      exact Lump.not_isInfix_word h hshown
  | quoted => exact not_hasInfix_of_forall (by simpa using hquoted)
  | list => exact not_hasInfix_of_forall (by simpa using hopening)

end IsOperand

/-- Whether a sign shows in an outline, and whether it is that of a single operand. -/
structure Judged (ls : List Lump) (joins single : Bool) : Prop where
  hasInfix_iff : HasInfix ls ↔ joins = true
  isOperand_iff : IsOperand ls ↔ single = true

namespace Judged

variable {ls : List Lump}

theorem of_hasInfix (h : HasInfix ls) : Judged ls true false :=
  ⟨iff_of_true h rfl, iff_of_false (fun hoperand => hoperand.not_hasInfix h) Bool.noConfusion⟩

theorem of_isOperand (h : IsOperand ls) : Judged ls false true :=
  ⟨iff_of_false h.not_hasInfix Bool.noConfusion, iff_of_true h rfl⟩

theorem of_neither (hshown : ¬HasInfix ls) (hoperand : ¬IsOperand ls) : Judged ls false false :=
  ⟨iff_of_false hshown Bool.noConfusion, iff_of_false hoperand Bool.noConfusion⟩

theorem nil : Judged [] false false :=
  of_neither (not_hasInfix_of_forall (by simp)) fun h => h.ne_nil rfl

end Judged

theorem outer_of_forall {ls : List Lump} (h : ∀ l ∈ ls, l.isBracket = false) : outer 0 ls = ls := by
  induction ls with
  | nil => rfl
  | cons l ls ih =>
    obtain ⟨hl, hls⟩ := List.forall_mem_cons.mp h
    rw [(outer_cons hl ls).1, ih hls]

theorem Lump.isBracket_of_isFlat {l : Lump} (h : l.isFlat = true) : l.isBracket = false := by
  cases l with
  | opening | closing => cases h
  | _ => rfl

/-! ### Names and literals -/

def hasMinus (name : String) : Bool := name.toList.contains '-'

def properName (name : String) : String :=
  if "the ".toList.isPrefixOf name.toList then String.ofList (name.toList.drop 4) else name

def nameJoins (name : String) : Bool := hasMinus name || isSignWord (properName name)

def isPlainName (name : String) : Bool :=
  !hasMinus name && (Grammar.reserved.lookup (properName name)).isNone

theorem hasInfix_minus (before : List Lump) {stem : List Char} (h : IsWord stem)
    (after : List Lump) : HasInfix (before ++ .word stem :: .mark ['-'] :: after) := by
  refine ⟨before ++ [.word stem], .mark ['-'], after, by simp, ⟨.sub, "-", rfl, rfl⟩, fun _ => ?_⟩
  exact ⟨.word stem, by simp, .word h⟩

theorem IsSpelling.lumps_cases {cs : List Char} (h : IsSpelling cs) :
    (cs.contains '-' = true ∧ ∃ stem digits, IsWord stem ∧
        lumps cs = [.word stem, .mark ['-'], .word digits]) ∨
      cs.contains '-' = false ∧ IsRun cs ∧ lumps cs = [.word cs] := by
  cases h with
  | word h =>
    refine .inr ⟨?_, h, lumps_run h⟩
    simpa using h.not_mem (by decide)
  | @negative stem digits hstem hdigits =>
    exact .inl ⟨by simp, stem, digits, hstem, lumps_negative hstem hdigits⟩

theorem judged_word {before after : List Lump} {cs : List Char} (h : IsRun cs)
    (hothers : ∀ l ∈ before ++ after, ¬l.IsInfix)
    (hwhole : IsWord cs → IsOperand (before ++ .word cs :: after)) :
    Judged (before ++ .word cs :: after) (isSignWord (String.ofList cs))
      (Grammar.reserved.lookup (String.ofList cs)).isNone := by
  cases hlookup : Grammar.reserved.lookup (String.ofList cs) with
  | none =>
    have hsign : isSignWord (String.ofList cs) = false := by rw [isSignWord, hlookup]; rfl
    rw [hsign]
    exact .of_isOperand (hwhole ⟨h, hlookup⟩)
  | some token =>
    cases hsign : isSignWord (String.ofList cs) with
    | true =>
      have hshown := (Lump.isInfix_word_iff h).mpr hsign
      exact .of_hasInfix ⟨before, .word cs, after, rfl, hshown, by simp⟩
    | false =>
      refine .of_neither (not_hasInfix_of_forall fun l hl => ?_) fun hoperand => ?_
      · simp only [List.mem_append, List.mem_cons] at hl hothers
        rcases hl with hl | rfl | hl
        · exact hothers l (.inl hl)
        · rw [Lump.isInfix_word_iff h, hsign]
          exact Bool.noConfusion
        · exact hothers l (.inr hl)
      · have hmem : Lump.word cs ∈ before ++ .word cs :: after := by simp
        have hfree := (hoperand.isWord_of_mem hmem).free
        rw [hlookup] at hfree
        cases hfree

/-- A symbol is never read as a reserved word. -/
theorem IsSpelling.judged_symbol {cs : List Char} (h : IsSpelling cs) :
    Judged (lumps ('#' :: cs)) (cs.contains '-') (!cs.contains '-') := by
  cases h with
  | @word cs h =>
    have hminus : cs.contains '-' = false := by simpa using h.not_mem (by decide)
    rw [hminus, lumps_run h.symbol.toIsRun]
    exact .of_isOperand (.reference (.word h.symbol))
  | @negative stem digits hstem hdigits =>
    have hminus : (stem ++ '-' :: digits).contains '-' = true := by simp
    rw [hminus, ← List.cons_append, lumps_negative hstem.symbol hdigits]
    exact .of_hasInfix (hasInfix_minus [] hstem.symbol _)

theorem properName_eq {name : String} (h : ' ' ∉ name.toList) : properName name = name := by
  rw [properName, if_neg]
  intro hstart
  obtain ⟨rest, hrest⟩ := List.isPrefixOf_iff_prefix.mp hstart
  rw [← hrest] at h
  exact h (by simp)

theorem properName_property {name : String} {cs : List Char}
    (h : name.toList = "the ".toList ++ cs) : properName name = String.ofList cs := by
  rw [properName, h, if_pos]
  · rfl
  · rw [List.isPrefixOf_iff_prefix]
    exact List.prefix_append _ _

theorem judged_name {name : String} {cs : List Char} (hcs : IsSpelling cs)
    (hname : name.toList = cs ∨ name.toList = "the ".toList ++ cs) {after : List Lump}
    (hafter : after = [] ∨ after = [.opening]) :
    Judged (lumps name.toList ++ after) (nameJoins name) (isPlainName name) := by
  -- The name of a property is judged by its second word.
  have hparts : ∃ before, lumps name.toList = before ++ lumps cs ∧
      (∀ l ∈ before ++ after, ¬l.IsInfix) ∧
      (IsWord cs → IsReference (before ++ [.word cs])) ∧ properName name = String.ofList cs ∧
      hasMinus name = cs.contains '-' := by
    have hafter : ∀ l ∈ after, ¬l.IsInfix := by
      rcases hafter with rfl | rfl
      · simp
      · simpa using Lump.not_isInfix_of (.inr rfl : _ ∨ Lump.opening = _)
    rcases hname with hname | hname
    · have hspace : ' ' ∉ name.toList :=
        hname ▸ hcs.not_mem (by decide) (by decide)
      refine ⟨[], by rw [hname, List.nil_append], by simpa using hafter, .word, ?_, ?_⟩
      · rw [properName_eq hspace, ← hname, String.ofList_toList]
      · rw [hasMinus, hname]
    · have hthe : Paired "the".toList := by decide
      refine ⟨[.word "the".toList], ?_, ?_, .property, properName_property hname, ?_⟩
      · rw [hname]
        exact lumps_space hthe cs
      · exact List.forall_mem_cons.mpr ⟨Lump.not_isInfix_word isWord_the, hafter⟩
      · rw [hasMinus, hname]
        simp
  obtain ⟨before, hlumps, hothers, hwhole, hproper, hminus⟩ := hparts
  rw [nameJoins, isPlainName, hproper, hminus, hlumps]
  obtain ⟨hcontains, stem, digits, hstem, hcs⟩ | ⟨hcontains, hrun, hcs⟩ :=
    hcs.lumps_cases
  · rw [hcontains, hcs]
    exact .of_hasInfix ((hasInfix_minus before hstem [.word digits]).append after)
  · rw [hcontains, hcs, List.append_assoc, Bool.false_or, Bool.not_false, Bool.true_and]
    refine judged_word hrun hothers fun hword => ?_
    have hreference := hwhole hword
    rcases hafter with rfl | rfl
    · exact .reference hreference
    · have hcall := IsOperand.call hreference
      rwa [List.append_assoc] at hcall

namespace Quoted

theorem Proper.chars_ne_nil {p : Piece} {ps : List Piece} (h : Proper (p :: ps)) :
    p.chars ≠ [] := by
  cases h with
  | quote => simp [Piece.chars]
  | run hne => exact hne

theorem Proper.tail {p : Piece} {ps : List Piece} (h : Proper (p :: ps)) : Proper ps := by
  cases h with
  | quote h => exact h
  | run _ _ _ h => exact h

theorem Proper.quote_mem {p q : Piece} {ps : List Piece} (h : Proper (p :: q :: ps)) :
    '"' ∈ contents (p :: q :: ps) := by
  cases h with
  | quote => simp [contents, Piece.chars]
  | run _ _ hnext _ =>
    cases q with
    | quote => simp [contents, Piece.chars]
    | run more => exact absurd rfl (hnext more ps)

/-- Whether a string has a quote and more than that. -/
def hasInnerQuote (s : String) : Bool := s.toList.contains '"' && s != "\""

theorem hasInnerQuote_iff (s : String) :
    hasInnerQuote s = true ↔ ∃ p q ps, pieces s.toList = p :: q :: ps := by
  have hproper := proper_pieces s.toList
  have hcontents := contents_pieces s.toList
  have hsingle : s = "\"" ↔ s.toList = ['"'] := by
    rw [← String.toList_inj]
    rfl
  rw [hasInnerQuote, Bool.and_eq_true, List.contains_iff_mem, bne_iff_ne, ne_eq, hsingle]
  cases hpieces : pieces s.toList with
  | nil =>
    rw [hpieces] at hcontents
    simp [← hcontents, contents]
  | cons p ps =>
    rw [hpieces] at hproper hcontents
    cases ps with
    | nil =>
      rw [← hcontents]
      cases hproper with
      | quote => simp [contents, Piece.chars]
      | run _ hfree _ _ => simp [contents, Piece.chars, hfree]
    | cons q ps =>
      refine iff_of_true ⟨hcontents ▸ hproper.quote_mem, fun hquote => ?_⟩ ⟨p, q, ps, rfl⟩
      -- Two pieces have two characters at least.
      have hfirst := List.length_pos_iff.mpr hproper.chars_ne_nil
      have hsecond := List.length_pos_iff.mpr hproper.tail.chars_ne_nil
      have hlength := congrArg List.length (hcontents.trans hquote)
      simp [contents] at hlength
      omega

/-- The pieces of a string are joined with a sign, so that a string in one piece shows none. -/
theorem judged_literal (s : String) :
    Judged (lumps (literal s).toList) (hasInnerQuote s) (!hasInnerQuote s) := by
  have hlump (p : Piece) : IsOperand [p.lump] := by
    cases p with
    | quote => exact .reference (.word (.of_isFree (by decide)))
    | run => exact .quoted
  by_cases h : s = ""
  · subst h
    exact .of_isOperand (.reference (.word (.of_isFree (by decide))))
  · have hproper := proper_pieces s.toList
    have hquote := hasInnerQuote_iff s
    rw [literal_eq_joined h]
    cases hpieces : pieces s.toList with
    | nil => exact absurd hpieces (pieces_ne_nil fun hnil => h (String.toList_eq_nil_iff.mp hnil))
    | cons p ps =>
      rw [hpieces] at hproper hquote
      rw [lumps_joined hproper]
      cases ps with
      | nil =>
        have hnone : hasInnerQuote s = false := Bool.eq_false_iff.mpr (by simp [hquote])
        rw [hnone]
        exact .of_isOperand (hlump p)
      | cons q ps =>
        rw [hquote.mpr ⟨p, q, ps, rfl⟩]
        refine .of_hasInfix ⟨[p.lump], .mark ['&'], _, rfl, ?_, by simp⟩
        exact ⟨.joinStr, "&", rfl, rfl⟩

end Quoted

namespace Datum

def joins : Datum → Bool
  | .symbol name => hasMinus name
  | .varRef name => nameJoins name
  | .string s => Quoted.hasInnerQuote s
  | .void | .int _ | .float _ | .list _ => false

def isSingle : Datum → Bool
  | .symbol name => !hasMinus name
  | .varRef name => isPlainName name
  | .string s => !Quoted.hasInnerQuote s
  | .void | .int _ | .float _ | .list _ => true

mutual

theorem matched : (value : Datum) → (∀ name ∈ value.names, IsSpelling name.toList) →
    Matched (lumps value.text.toList)
  | .list items, h => by
    have hcomma : Matched [.mark [',']] := .of_forall (by decide)
    rw [lumps_list h]
    exact (hcomma.intercalate (List.forall_mem_map.mpr (matched_items items h))).brackets
  | .void, h | .symbol _, h | .varRef _, h | .string _, h | .int _, h | .float _, h =>
    .of_forall fun l hl => Lump.isBracket_of_isFlat (flat_lumps (by simp) h l hl)

theorem matched_items : (items : List Datum) →
    (∀ name ∈ namesIn items, IsSpelling name.toList) →
    ∀ item ∈ items, Matched (lumps item.text.toList)
  | [], _ => by simp
  | item :: items, h => by
    obtain ⟨hitem, hitems⟩ := List.forall_mem_append.mp h
    exact List.forall_mem_cons.mpr ⟨matched item hitem, matched_items items hitems⟩

end

theorem judged {value : Datum} (h : ∀ name ∈ value.names, IsSpelling name.toList) :
    Judged (outline value.text.toList) value.joins value.isSingle := by
  have hflat (hlist : ∀ items, value ≠ .list items) :
      outline value.text.toList = lumps value.text.toList :=
    outer_of_forall fun l hl => Lump.isBracket_of_isFlat (flat_lumps hlist h l hl)
  have hsigned {cs : List Char} (hcs : IsWord cs) (negative : Bool) :
      Judged (lumps (signed negative cs)) false true := by
    rw [lumps_signed hcs]
    cases negative with
    | false => exact .of_isOperand (.reference (.word hcs))
    | true => exact .of_isOperand (.negative hcs)
  cases value with
  | void =>
    have hvoid : IsWord "VOID".toList := .of_isFree (by decide)
    exact .of_isOperand (.reference (.word hvoid))
  | symbol name =>
    rw [hflat (by simp), toList_text_symbol]
    exact (h name List.mem_cons_self).judged_symbol
  | varRef name =>
    have hname := judged_name (h name List.mem_cons_self) (.inl rfl) (.inl rfl)
    rw [List.append_nil] at hname
    rw [hflat (by simp)]
    exact hname
  | string s =>
    rw [hflat (by simp)]
    exact Quoted.judged_literal s
  | int n =>
    obtain ⟨cs, hcs, htext⟩ := toList_text_int n
    rw [hflat (by simp), htext]
    exact hsigned hcs _
  | float x =>
    obtain ⟨cs, hcs, htext⟩ := toList_text_float x
    rw [hflat (by simp), htext]
    exact hsigned hcs _
  | list items =>
    have hcomma : Matched [.mark [',']] := .of_forall (by decide)
    have hitems := hcomma.intercalate (List.forall_mem_map.mpr (matched_items items h))
    rw [outline, lumps_list h, hitems.outer_brackets]
    exact .of_isOperand .list

end Datum

end Shockwave
