import Mathlib.Data.List.DropRight
import Shockwave.Proofs.Ownership
import Shockwave.Proofs.Segments

/-!
Containers after any number of changes. What a container holds is told by the changes since it was
last emptied: which ids came and in which order, the latest entry and the latest bytes of each, and
all links. Each of these is touched by changes of its own kind only.
-/
namespace Shockwave

inductive Change where
  | insert (e : Entry)
  | link (l : Link)
  | setSegment (id : Int32) (bytes : ByteArray)
  | reset

namespace Change

def isReset : Change → Bool
  | .reset => true
  | _ => false

def entry? : Change → Option Entry
  | .insert e => some e
  | _ => none

def link? : Change → Option Link
  | .link l => some l
  | _ => none

def segment? : Change → Option (Int32 × ByteArray)
  | .setSegment id bytes => some (id, bytes)
  | _ => none

/-- What the changes since the last reset bring along, in their order. -/
def brought {α : Type} (part? : Change → Option α) (changes : List Change) : List α :=
  (changes.rtakeWhile (!·.isReset)).filterMap part?

section

variable {α : Type} {part? : Change → Option α} {changes : List Change} {change : Change}

theorem brought_of_some {a : α} (hreset : change.isReset = false) (h : part? change = some a) :
    brought part? (changes ++ [change]) = brought part? changes ++ [a] := by
  unfold brought
  rw [List.rtakeWhile_concat_pos _ _ _ (by simp [hreset]), List.filterMap_append]
  simp [h]

theorem brought_of_none (hreset : change.isReset = false) (h : part? change = none) :
    brought part? (changes ++ [change]) = brought part? changes := by
  unfold brought
  rw [List.rtakeWhile_concat_pos _ _ _ (by simp [hreset]), List.filterMap_append]
  simp [h]

theorem brought_reset : brought part? (changes ++ [.reset]) = [] := by
  unfold brought
  rw [List.rtakeWhile_concat_neg _ _ _ (by simp [isReset])]
  rfl

end

end Change

theorem findRev?_concat {α : Type} (p : α → Bool) (l : List α) (a : α) :
    (l ++ [a]).findRev? p = if p a then some a else l.findRev? p := by
  rw [List.findRev?_eq_find?_reverse, List.findRev?_eq_find?_reverse, List.reverse_append]
  simp only [List.reverse_cons, List.reverse_nil, List.nil_append, List.cons_append,
    List.find?_cons]
  cases p a <;> rfl

theorem eraseDups_concat {α : Type} [BEq α] [LawfulBEq α] (l : List α) (a : α) :
    (l ++ [a]).eraseDups = if a ∈ l then l.eraseDups else l.eraseDups ++ [a] := by
  rw [List.eraseDups_append]
  by_cases h : a ∈ l
  · simp [List.removeAll, h]
  · simp [List.removeAll, h, List.eraseDups_cons]

namespace Container

def apply (c : Container) : Change → Container
  | .insert e => c.insert e
  | .link l => c.link l
  | .setSegment id bytes => c.setSegment id bytes
  | .reset => {}

def after (changes : List Change) : Container := changes.foldl apply {}

theorem after_concat (changes : List Change) (change : Change) :
    after (changes ++ [change]) = (after changes).apply change := by
  rw [after, List.foldl_concat]
  rfl

theorem find?_insert (c : Container) (e : Entry) (id : Int32) :
    (c.insert e).find? id = if e.id = id then some e else c.find? id := by
  unfold insert
  split
  next hhas =>
    have hfind : (c.entries.map fun old => if old.id = e.id then e else old).find? (·.id == id) =
        (c.find? id).map fun old => if old.id = e.id then e else old := by
      rw [List.find?_map]
      simp only [Function.comp_def, id_replace]
      rfl
    refine hfind.trans ?_
    cases hfound : c.find? id with
    | none =>
      have hne : e.id ≠ id := by
        rintro rfl
        rw [has, hfound] at hhas
        contradiction
      rw [if_neg hne, Option.map_none]
    | some old =>
      rw [Option.map_some, id_of_find? hfound, apply_ite some]
      simp only [eq_comm]
  next hnew =>
    have hfind : (c.entries ++ [e]).find? (·.id == id) =
        (c.find? id).or (if e.id = id then some e else none) := by
      rw [List.find?_append, List.find?_singleton]
      simp only [beq_iff_eq]
      rfl
    refine hfind.trans ?_
    split
    next hid =>
      have hnone : c.find? id = none := by
        rw [← hid]
        simpa [has] using hnew
      rw [hnone, Option.none_or]
    next => rw [Option.or_none]

/-- The container holds what the changes have brought. -/
structure Reflects (c : Container) (changes : List Change) : Prop where
  nodup : (c.entries.map (·.id)).Nodup
  ids_eq : c.entries.map (·.id) = ((Change.brought Change.entry? changes).map (·.id)).eraseDups
  find?_eq : ∀ id, c.find? id = (Change.brought Change.entry? changes).findRev? (·.id == id)
  links_eq : c.links = Change.brought Change.link? changes
  segment?_eq : ∀ id, c.segment? id =
    ((Change.brought Change.segment? changes).findRev? (·.1 == id)).map (·.2)

theorem reflects_nil : Reflects {} [] where
  nodup := .nil
  ids_eq := rfl
  find?_eq _ := rfl
  links_eq := rfl
  segment?_eq _ := rfl

@[simp] theorem links_insert (c : Container) (e : Entry) : (c.insert e).links = c.links := by
  unfold insert
  split <;> rfl

@[simp] theorem segment?_insert (c : Container) (e : Entry) (id : Int32) :
    (c.insert e).segment? id = c.segment? id := by
  unfold insert
  split <;> rfl

section

variable {c : Container} {changes : List Change}

theorem Reflects.insert (h : Reflects c changes) (e : Entry) :
    Reflects (c.insert e) (changes ++ [.insert e]) := by
  have hentries : Change.brought Change.entry? (changes ++ [.insert e]) =
      Change.brought Change.entry? changes ++ [e] := Change.brought_of_some rfl rfl
  refine ⟨nodup_insert h.nodup e, ?_, fun id => ?_, ?_, fun id => ?_⟩
  · rw [map_id_insert, hentries, List.map_append, List.map_singleton, eraseDups_concat, h.ids_eq]
    simp only [List.mem_eraseDups]
  · rw [find?_insert, hentries, findRev?_concat, h.find?_eq]
    simp only [beq_iff_eq]
  · rw [links_insert, Change.brought_of_none rfl rfl, h.links_eq]
  · rw [segment?_insert, Change.brought_of_none rfl rfl, h.segment?_eq]

theorem Reflects.link (h : Reflects c changes) (l : Link) :
    Reflects (c.link l) (changes ++ [.link l]) := by
  have hlinks : Change.brought Change.link? (changes ++ [.link l]) =
      Change.brought Change.link? changes ++ [l] := Change.brought_of_some rfl rfl
  refine ⟨h.nodup, ?_, fun id => ?_, ?_, fun id => ?_⟩
  · rw [Change.brought_of_none rfl rfl]
    exact h.ids_eq
  · rw [Change.brought_of_none rfl rfl]
    exact h.find?_eq id
  · rw [hlinks, ← h.links_eq]
    rfl
  · rw [Change.brought_of_none rfl rfl]
    exact h.segment?_eq id

theorem Reflects.setSegment (h : Reflects c changes) (id : Int32) (bytes : ByteArray) :
    Reflects (c.setSegment id bytes) (changes ++ [.setSegment id bytes]) := by
  have hsegments : Change.brought Change.segment? (changes ++ [.setSegment id bytes]) =
      Change.brought Change.segment? changes ++ [(id, bytes)] := Change.brought_of_some rfl rfl
  refine ⟨h.nodup, ?_, fun i => ?_, ?_, fun i => ?_⟩
  · rw [Change.brought_of_none rfl rfl]
    exact h.ids_eq
  · rw [Change.brought_of_none rfl rfl]
    exact h.find?_eq i
  · rw [Change.brought_of_none rfl rfl]
    exact h.links_eq
  · rw [segment?_setSegment, hsegments, findRev?_concat, h.segment?_eq]
    simp only [beq_iff_eq]
    split <;> rfl

theorem Reflects.reset (changes : List Change) : Reflects {} (changes ++ [.reset]) := by
  refine ⟨.nil, ?_, fun id => ?_, ?_, fun id => ?_⟩
  · rw [Change.brought_reset]
    rfl
  · rw [Change.brought_reset]
    rfl
  · rw [Change.brought_reset]
  · rw [Change.brought_reset]
    rfl

theorem Reflects.apply (h : Reflects c changes) (change : Change) :
    Reflects (c.apply change) (changes ++ [change]) := by
  cases change with
  | insert e => exact h.insert e
  | link l => exact h.link l
  | setSegment id bytes => exact h.setSegment id bytes
  | reset => exact .reset changes

end

theorem reflects_after (changes : List Change) : Reflects (after changes) changes := by
  induction changes using List.reverseRecOn with
  | nil => exact reflects_nil
  | append_singleton changes change ih =>
    rw [after_concat]
    exact ih.apply change

section

variable {c : Container} {change : Change}

/-- Only the entry of an id, and emptying the container, change what is found under the id. -/
theorem find?_changed {id : Int32} (h : (c.apply change).find? id ≠ c.find? id) :
    change = .reset ∨ ∃ e, change = .insert e ∧ e.id = id := by
  cases change with
  | insert e =>
    refine .inr ⟨e, rfl, ?_⟩
    by_contra hne
    exact h ((find?_insert c e id).trans (if_neg hne))
  | link l => exact absurd rfl h
  | setSegment i bytes => exact absurd rfl h
  | reset => exact .inl rfl

theorem links_changed (h : (c.apply change).links ≠ c.links) :
    change = .reset ∨ ∃ l, change = .link l := by
  cases change with
  | insert e => exact absurd (links_insert c e) h
  | link l => exact .inr ⟨l, rfl⟩
  | setSegment i bytes => exact absurd rfl h
  | reset => exact .inl rfl

theorem segment?_changed {id : Int32} (h : (c.apply change).segment? id ≠ c.segment? id) :
    change = .reset ∨ ∃ bytes, change = .setSegment id bytes := by
  cases change with
  | insert e => exact absurd (segment?_insert c e id) h
  | link l => exact absurd rfl h
  | setSegment i bytes =>
    by_cases hid : i = id
    · exact .inr ⟨bytes, by rw [hid]⟩
    · exact absurd ((segment?_setSegment c i bytes id).trans (if_neg hid)) h
  | reset => exact .inl rfl

end

end Container
end Shockwave
