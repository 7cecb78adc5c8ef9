import Shockwave.Lingo.Datum

/-!
What the text of a string literal tells. A string is written as the pieces between its quotes, and
these can be told from the text alone, so that no two strings are written alike.
-/
namespace Shockwave

namespace Quoted

/-- The characters that a piece stands for. -/
def Piece.chars : Piece → List Char
  | .quote => ['"']
  | .run chars => chars

def contents (ps : List Piece) : List Char := ps.flatMap Piece.chars

def joined (ps : List Piece) : String := String.intercalate " & " (ps.map Piece.text)

/-- Pieces that a string can fall into: a run has characters, none of them a quote, and another run
does not follow. -/
inductive Proper : List Piece → Prop where
  | nil : Proper []
  | quote {ps : List Piece} (h : Proper ps) : Proper (.quote :: ps)
  | run {chars : List Char} {ps : List Piece} (hne : chars ≠ []) (hfree : '"' ∉ chars)
      (hnext : ∀ more rest, ps ≠ .run more :: rest) (h : Proper ps) : Proper (.run chars :: ps)

theorem proper_pieces (text : List Char) : Proper (pieces text) := by
  fun_induction pieces text with
  | case1 => exact .nil
  | case2 text ih => exact .quote ih
  | case3 c text hc run rest hpieces ih =>
    rw [hpieces] at ih
    cases ih with
    | run hne hfree hnext h =>
      have hfree' : '"' ∉ c :: run := by
        rw [List.mem_cons, not_or]
        exact ⟨fun hquote => hc hquote.symm, hfree⟩
      exact .run (List.cons_ne_nil c run) hfree' hnext h
  | case4 c text hc hother ih =>
    have hfree : '"' ∉ [c] := by
      rw [List.mem_singleton]
      exact fun hquote => hc hquote.symm
    exact .run (List.cons_ne_nil c []) hfree hother ih

theorem contents_pieces (text : List Char) : contents (pieces text) = text := by
  unfold contents
  fun_induction pieces text with
  | case1 => rfl
  | case2 text ih => simp [Piece.chars, ih]
  | case3 c text hc run rest hpieces ih =>
    rw [hpieces] at ih
    simpa [Piece.chars] using ih
  | case4 c text hc hother ih => simp [Piece.chars, ih]

theorem pieces_ne_nil {text : List Char} (h : text ≠ []) : pieces text ≠ [] := by
  intro hnil
  have hcontents := contents_pieces text
  rw [hnil] at hcontents
  exact h hcontents.symm

def following (ps : List Piece) : List Char :=
  ps.flatMap fun p => " & ".toList ++ p.text.toList

theorem toList_joined_cons (p : Piece) (ps : List Piece) :
    (joined (p :: ps)).toList = p.text.toList ++ following ps := by
  unfold joined
  induction ps generalizing p with
  | nil => simp [following]
  | cons next rest ih =>
    have hnext := ih next
    rw [List.map_cons] at hnext
    rw [List.map_cons, List.map_cons, String.intercalate_cons_cons, String.toList_append, hnext]
    simp [following]

theorem run_inj {left right after after' : List Char} (hleft : '"' ∉ left) (hright : '"' ∉ right)
    (h : left ++ '"' :: after = right ++ '"' :: after') : left = right ∧ after = after' := by
  induction left generalizing right with
  | nil =>
    cases right with
    | nil => simpa using h
    | cons c rest =>
      simp only [List.nil_append, List.cons_append, List.cons.injEq] at h
      exact absurd (h.1 ▸ List.mem_cons_self) hright
  | cons c left ih =>
    cases right with
    | nil =>
      simp only [List.nil_append, List.cons_append, List.cons.injEq] at h
      exact absurd (h.1 ▸ List.mem_cons_self) hleft
    | cons d right =>
      simp only [List.cons_append, List.cons.injEq] at h
      rw [List.mem_cons, not_or] at hleft hright
      obtain ⟨hrest, hafter⟩ := ih hleft.2 hright.2 h.2
      exact ⟨by rw [h.1, hrest], hafter⟩

theorem toList_text_run (chars after : List Char) :
    (Piece.run chars).text.toList ++ after = '"' :: (chars ++ '"' :: after) := by
  simp [Piece.text]

theorem following_inj {ps qs : List Piece} (hp : Proper ps) (hq : Proper qs)
    (h : following ps = following qs) : ps = qs := by
  have hcons (p : Piece) (ps : List Piece) :
      following (p :: ps) = ' ' :: '&' :: ' ' :: (p.text.toList ++ following ps) := by
    simp [following]
  induction hp generalizing qs with
  | nil =>
    cases qs with
    | nil => rfl
    | cons q qs =>
      rw [hcons] at h
      cases h
  | quote hp ih =>
    cases hq with
    | nil =>
      rw [hcons] at h
      cases h
    | quote hq =>
      rw [hcons, hcons] at h
      simp only [List.cons.injEq, true_and, List.append_cancel_left_eq] at h
      rw [ih hq h]
    | run =>
      rw [hcons, hcons, toList_text_run] at h
      cases h
  | run hne hfree hnext hp ih =>
    cases hq with
    | nil =>
      rw [hcons] at h
      cases h
    | quote =>
      rw [hcons, hcons, toList_text_run] at h
      cases h
    | run hne' hfree' hnext' hq =>
      rw [hcons, hcons, toList_text_run, toList_text_run] at h
      simp only [List.cons.injEq, true_and] at h
      obtain ⟨hsame, hafter⟩ := run_inj hfree hfree' h
      rw [hsame, ih hq hafter]

theorem joined_inj {ps qs : List Piece} (hp : Proper ps) (hq : Proper qs) (hps : ps ≠ [])
    (hqs : qs ≠ []) (h : joined ps = joined qs) : ps = qs := by
  obtain ⟨p, ps, rfl⟩ := List.exists_cons_of_ne_nil hps
  obtain ⟨q, qs, rfl⟩ := List.exists_cons_of_ne_nil hqs
  have hchars := congrArg String.toList h
  rw [toList_joined_cons, toList_joined_cons] at hchars
  refine following_inj hp hq ?_
  simp only [following, List.flatMap_cons, List.append_assoc] at hchars ⊢
  rw [hchars]

/-- No pieces are written as the word for the string without characters. -/
theorem joined_ne_empty {ps : List Piece} (h : ps ≠ []) : joined ps ≠ "EMPTY" := by
  intro hempty
  have hchars := congrArg String.toList hempty
  cases ps with
  | nil => exact h rfl
  | cons p ps =>
    rw [toList_joined_cons] at hchars
    cases p with
    | quote => cases hchars
    | run chars =>
      rw [toList_text_run] at hchars
      cases hchars

theorem literal_eq_joined {s : String} (h : s ≠ "") : literal s = joined (pieces s.toList) := by
  rw [literal, if_neg (by rwa [String.isEmpty_iff]), joined]

theorem literal_injective {s t : String} (h : literal s = literal t) : s = t := by
  have hne {s : String} (hs : s ≠ "") : pieces s.toList ≠ [] :=
    pieces_ne_nil fun hnil => hs (String.toList_eq_nil_iff.mp hnil)
  have hempty : literal "" = "EMPTY" := rfl
  by_cases hs : s = "" <;> by_cases ht : t = ""
  · rw [hs, ht]
  · rw [hs, hempty, literal_eq_joined ht] at h
    exact absurd h.symm (joined_ne_empty (hne ht))
  · rw [ht, hempty, literal_eq_joined hs] at h
    exact absurd h (joined_ne_empty (hne hs))
  · rw [literal_eq_joined hs, literal_eq_joined ht] at h
    have hpieces := joined_inj (proper_pieces _) (proper_pieces _) (hne hs) (hne ht) h
    have hcontents := congrArg contents hpieces
    rw [contents_pieces, contents_pieces] at hcontents
    exact String.toList_injective hcontents

end Quoted

open Quoted

/-- The empty string is written as a word of its own. Any other is written as proper pieces that
stand for its characters, and as no others; and no two strings are written alike. -/
theorem Datum.text_string_lossless (s : String) :
    (s = "" → (Datum.string s).text = "EMPTY") ∧
      (s ≠ "" → ∃ ps, Proper ps ∧ ps ≠ [] ∧ (Datum.string s).text = joined ps ∧
        contents ps = s.toList ∧ ∀ qs, Proper qs → qs ≠ [] → (Datum.string s).text = joined qs →
          contents qs = s.toList) ∧
      ∀ t, (Datum.string t).text = (Datum.string s).text → t = s := by
  simp only [Datum.text]
  refine ⟨fun h => h ▸ rfl, fun h => ?_, fun t ht => literal_injective ht⟩
  have hne : pieces s.toList ≠ [] :=
    pieces_ne_nil fun hnil => h (String.toList_eq_nil_iff.mp hnil)
  refine ⟨pieces s.toList, proper_pieces _, hne, literal_eq_joined h, contents_pieces _, ?_⟩
  intro qs hqs hqsne htext
  rw [literal_eq_joined h] at htext
  rw [← joined_inj (proper_pieces _) hqs hne hqsne htext, contents_pieces]

theorem Datum.text_string_sideBySide :
    "\"a\"\" & QUOTE" ≠ "" ∧
      (Datum.string "\"a\"\" & QUOTE").text =
        "QUOTE & \"a\" & QUOTE & QUOTE & \" & QUOTE\"" ∧
      (∃ ps, Proper ps ∧ (Datum.string "\"a\"\" & QUOTE").text = joined ps ∧
        contents ps = "\"a\"\" & QUOTE".toList) ∧
      ∀ t, (Datum.string t).text = (Datum.string "\"a\"\" & QUOTE").text →
        t = "\"a\"\" & QUOTE" := by
  have hne : "\"a\"\" & QUOTE" ≠ "" := by decide
  obtain ⟨-, hpieces, hunlike⟩ := Datum.text_string_lossless "\"a\"\" & QUOTE"
  obtain ⟨ps, hps, -, htext, hcontents, -⟩ := hpieces hne
  exact ⟨hne, by decide +kernel, ⟨ps, hps, htext, hcontents⟩, hunlike⟩

end Shockwave
