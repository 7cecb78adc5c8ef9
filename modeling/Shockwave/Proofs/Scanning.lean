import Shockwave.Proofs.Grammar

/-!
Texts that fall into known tokens, wherever they stand after a character that ends the token before.
-/
namespace Shockwave.Grammar

def Scan.Fresh (s : Scan) : Prop := ∀ c, s.pending.bind (·.extend? c) = none

/-- From a fresh start the characters give the tokens, the last of which may be pending. -/
def Lexes (cs : List Char) (ts : List Token) : Prop :=
  ∀ s done, s.Fresh → s.finish? = some done →
    ∃ s', cs.foldlM Scan.feed s = some s' ∧ s'.finish? = some (done ++ ts)

/-- The marks that end whatever token is before them and take nothing after them. -/
def breaks : List (Char × Token) :=
  [('(', .lparen), (')', .rparen), (',', .comma), ('-', .sign .sub)]

namespace Scan

variable {s : Scan} {c : Char} {done : List Token}

theorem feed_space (hnone : s.pending.bind (·.extend? ' ') = none) (hdone : s.finish? = some done) :
    s.feed ' ' = some { done } := by
  rw [feed, hnone, hdone]
  rfl

theorem feed_start {lexeme : Lexeme} (hnone : s.pending.bind (·.extend? c) = none)
    (hdone : s.finish? = some done) (hspace : c ≠ ' ') (hstart : Lexeme.start? c = some lexeme) :
    s.feed c = some { done, pending := some lexeme } := by
  rw [feed, hnone, hdone]
  dsimp only
  rw [Option.bind_some, if_neg hspace, hstart]
  rfl

theorem fresh_nil : Fresh { done } := by
  intro c
  rfl

end Scan

theorem longer?_eq_none {c : Char} (h : c ∉ ['&', '=', '>']) (token : Token) :
    longer? token c = none := by
  unfold longer?
  split
  all_goals simp_all

theorem extend?_eq_none {c : Char} (hinner : isInner c = false)
    (hmark : c ∉ ['&', '=', '>']) (lexeme : Lexeme) : lexeme.extend? c = none := by
  have hdigit : c.isDigit = false := by
    simp only [isInner, Char.isAlphanum, Bool.or_eq_false_iff] at hinner
    exact hinner.1.2
  cases lexeme with
  | word | symbol => simp [Lexeme.extend?, hinner]
  | number => simp [Lexeme.extend?, hdigit]
  | mark token => simp [Lexeme.extend?, longer?_eq_none hmark]

theorem bind_extend?_eq_none {c : Char} (hinner : isInner c = false) (hmark : c ∉ ['&', '=', '>'])
    (s : Scan) : s.pending.bind (·.extend? c) = none := by
  cases hpending : s.pending with
  | none => rfl
  | some lexeme => exact extend?_eq_none hinner hmark lexeme

theorem lexes_nil : Lexes [] [] := by
  intro s done hfresh hdone
  exact ⟨s, rfl, by rw [hdone, List.append_nil]⟩

section

variable {cs ds : List Char} {ts us : List Token}

theorem foldlM_feed_pending {lexeme last : Lexeme} (done : List Token)
    (h : cs.foldlM Lexeme.extend? lexeme = some last) :
    cs.foldlM Scan.feed { done, pending := some lexeme } = some { done, pending := some last } := by
  induction cs generalizing lexeme with
  | nil =>
    cases h
    rfl
  | cons c cs ih =>
    rw [List.foldlM_cons] at h ⊢
    cases hnext : lexeme.extend? c with
    | none =>
      rw [hnext] at h
      cases h
    | some next =>
      rw [hnext] at h
      have hfeed : Scan.feed { done, pending := some lexeme } c =
          some { done, pending := some next } := by
        rw [Scan.feed, Option.bind_some, hnext]
      rw [hfeed]
      exact ih h

theorem lexes_token {c : Char} {first last : Lexeme} {t : Token} (hspace : c ≠ ' ')
    (hstart : Lexeme.start? c = some first) (hextend : cs.foldlM Lexeme.extend? first = some last)
    (htoken : last.token? = some t) : Lexes (c :: cs) [t] := by
  intro s done hfresh hdone
  refine ⟨{ done, pending := some last }, ?_, ?_⟩
  · rw [List.foldlM_cons, Scan.feed_start (hfresh c) hdone hspace hstart]
    exact foldlM_feed_pending done hextend
  · exact congrArg (Option.map fun token => done ++ [token]) htoken

theorem lexes_space (hleft : Lexes cs ts) (hright : Lexes ds us) :
    Lexes (cs ++ ' ' :: ds) (ts ++ us) := by
  intro s done hfresh hdone
  obtain ⟨s', hfeed, hdone'⟩ := hleft s done hfresh hdone
  have hspace := Scan.feed_space (bind_extend?_eq_none (by decide) (by decide) s') hdone'
  obtain ⟨s'', hfeed', hdone''⟩ := hright _ _ Scan.fresh_nil rfl
  refine ⟨s'', ?_, ?_⟩
  · rw [List.foldlM_append, hfeed]
    change (List.foldlM Scan.feed s' (' ' :: ds)) = _
    rw [List.foldlM_cons, hspace]
    exact hfeed'
  · rw [hdone'', List.append_assoc]

theorem lexes_break {c : Char} {t : Token} (h : (c, t) ∈ breaks) (hleft : Lexes cs ts)
    (hright : Lexes ds us) : Lexes (cs ++ c :: ds) (ts ++ t :: us) := by
  have hall : ∀ pair ∈ breaks, isInner pair.1 = false ∧ pair.1 ∉ ['&', '=', '>'] ∧
      pair.1 ≠ ' ' ∧ Lexeme.start? pair.1 = some (.mark pair.2) := by decide
  obtain ⟨hinner, hmark, hspace, hstart⟩ := hall _ h
  intro s done hfresh hdone
  obtain ⟨s', hfeed, hdone'⟩ := hleft s done hfresh hdone
  have hbreak := Scan.feed_start (bind_extend?_eq_none hinner hmark s') hdone' hspace hstart
  have hfresh' : Scan.Fresh { done := done ++ ts, pending := some (.mark t) } := by
    intro d
    simp only [breaks, List.mem_cons, Prod.mk.injEq, List.not_mem_nil, or_false] at h
    rcases h with ⟨-, rfl⟩ | ⟨-, rfl⟩ | ⟨-, rfl⟩ | ⟨-, rfl⟩ <;> rfl
  obtain ⟨s'', hfeed', hdone''⟩ := hright _ _ hfresh' rfl
  refine ⟨s'', ?_, ?_⟩
  · rw [List.foldlM_append, hfeed]
    change (List.foldlM Scan.feed s' (c :: ds)) = _
    rw [List.foldlM_cons, hbreak]
    exact hfeed'
  · simpa using hdone''

theorem lexes_parens (h : Lexes cs ts) :
    Lexes ('(' :: cs ++ [')']) (.lparen :: ts ++ [.rparen]) := by
  have hopen : Lexes ('(' :: cs) (.lparen :: ts) :=
    lexes_break (c := '(') (t := .lparen) (by decide) lexes_nil h
  exact lexes_break (by decide) hopen lexes_nil

end

theorem foldlM_extend?_inner {make : List Char → Lexeme}
    (hmake : ∀ chars c, isInner c = true → (make chars).extend? c = some (make (chars ++ [c])))
    {cs : List Char} (h : cs.all isInner = true) (front : List Char) :
    cs.foldlM Lexeme.extend? (make front) = some (make (front ++ cs)) := by
  induction cs generalizing front with
  | nil => simp
  | cons c cs ih =>
    rw [List.all_cons, Bool.and_eq_true] at h
    simp [hmake front c h.1, ih h.2]

theorem foldlM_extend?_number {cs : List Char} (h : ∀ c ∈ cs, c.isDigit = true) (value : Nat) :
    cs.foldlM Lexeme.extend? (.number value) = some (.number (Nat.ofDigitChars 10 cs value)) := by
  induction cs generalizing value with
  | nil => simp
  | cons c cs ih =>
    have hrest : ∀ d ∈ cs, d.isDigit = true := fun d hd => h d (by simp [hd])
    simp [Lexeme.extend?, h c (by simp), ih hrest, Nat.ofDigitChars_cons, Lexeme.digit]

theorem isInner_of_isFirst {c : Char} (h : isFirst c = true) : isInner c = true := by
  simp only [isFirst, isInner, Char.isAlphanum, Bool.or_eq_true] at h ⊢
  rcases h with halpha | hline
  · exact .inl (.inl halpha)
  · exact .inr hline

theorem isFirst_of_isDigit {c : Char} (h : c.isDigit = true) : isFirst c = false := by
  have hne : c ≠ '_' := by
    rintro rfl
    exact absurd h (by decide)
  have hrange : 48 ≤ c.toNat ∧ c.toNat ≤ 57 := by
    simpa [Char.isDigit, UInt32.le_iff_toNat_le] using h
  have hupper : c.isUpper = decide (65 ≤ c.toNat ∧ c.toNat ≤ 90) := rfl
  have hlower : c.isLower = (decide (97 ≤ c.toNat) && decide (c.toNat ≤ 122)) := rfl
  have halpha : c.isAlpha = (c.isUpper || c.isLower) := rfl
  have hletter : c.isAlpha = false := by
    simp only [halpha, hupper, hlower, Bool.or_eq_false_iff, Bool.and_eq_false_iff,
      decide_eq_false_iff_not]
    omega
  simp [isFirst, hletter, hne]

theorem lexes_word {word : String} (h : isIdentifier word.toList = true) :
    Lexes word.toList [.ofWord word] := by
  cases hchars : word.toList with
  | nil =>
    rw [hchars] at h
    cases h
  | cons c cs =>
    rw [hchars, isIdentifier, Bool.and_eq_true] at h
    have hspace : c ≠ ' ' := by
      rintro rfl
      exact absurd h.1 (by decide)
    have hmake (chars : List Char) (c : Char) (hc : isInner c = true) :
        (Lexeme.word chars).extend? c = some (.word (chars ++ [c])) := if_pos hc
    refine lexes_token hspace ?_ (foldlM_extend?_inner hmake h.2 [c]) ?_
    · rw [Lexeme.start?, if_pos h.1]
    · rw [List.singleton_append, ← hchars, Lexeme.token?, String.ofList_toList]

theorem lexes_name {name : String} (h : isName name = true) : Lexes name.toList [.name name] := by
  rw [isName, Bool.and_eq_true, Option.isNone_iff_eq_none] at h
  have hword : Token.ofWord name = .name name := by
    rw [Token.ofWord, h.2]
    rfl
  have hlexes := lexes_word h.1
  rwa [hword] at hlexes

theorem lexes_symbol {name : String} (h : isIdentifier name.toList = true) :
    Lexes ('#' :: name.toList) [.symbol name] := by
  have hinner : name.toList.all isInner = true := by
    cases hchars : name.toList with
    | nil => rfl
    | cons c cs =>
      rw [hchars, isIdentifier, Bool.and_eq_true] at h
      rw [List.all_cons, h.2, isInner_of_isFirst h.1]
      rfl
  have hmake (chars : List Char) (c : Char) (hc : isInner c = true) :
      (Lexeme.symbol chars).extend? c = some (.symbol (chars ++ [c])) := if_pos hc
  refine lexes_token (by decide) rfl (foldlM_extend?_inner hmake hinner []) ?_
  rw [List.nil_append, Lexeme.token?, if_pos h, String.ofList_toList]

theorem lexes_number (value : Nat) : Lexes (toString value).toList [.number value] := by
  have hdigits : ∀ c ∈ Nat.toDigits 10 value, c.isDigit = true := by
    intro c hc
    exact Nat.isDigit_of_mem_toDigits (by decide) (by decide) hc
  have hvalue : Nat.ofDigitChars 10 (Nat.toDigits 10 value) 0 = value :=
    Nat.ofDigitChars_toDigits (by decide) (by decide)
  rw [Nat.toString_eq_repr, Nat.toList_repr]
  cases hchars : Nat.toDigits 10 value with
  | nil => exact absurd hchars Nat.toDigits_ne_nil
  | cons c cs =>
    rw [hchars] at hdigits hvalue
    have hdigit := hdigits c (by simp)
    have hspace : c ≠ ' ' := by
      rintro rfl
      exact absurd hdigit (by decide)
    have hcs : ∀ d ∈ cs, d.isDigit = true := fun d hd => hdigits d (by simp [hd])
    refine lexes_token hspace ?_ (foldlM_extend?_number hcs (Lexeme.digit c)) ?_
    · rw [Lexeme.start?, if_neg (by simp [isFirst_of_isDigit hdigit]), if_pos hdigit]
    · rw [Nat.ofDigitChars_cons, Nat.mul_zero, Nat.zero_add] at hvalue
      rw [Lexeme.token?, Lexeme.digit, hvalue]

theorem lexes_sign {op : Opcode} {sign : String} (h : op.binarySign? = some sign) :
    Lexes sign.toList [.sign op] := by
  cases op with
  | mul | add | sub | div | joinStr | lt | eq | gt | joinPadStr | ltEq | ntEq | gtEq =>
    cases h
    exact lexes_token (by decide) rfl rfl rfl
  | mod | and | or | containsStr | contains0Str =>
    cases h
    exact lexes_word (by decide)
  | _ => cases h

end Shockwave.Grammar
