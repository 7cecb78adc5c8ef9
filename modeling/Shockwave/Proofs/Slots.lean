import Shockwave.Proofs.Histories

/-!
The slots of a container's entries. Beside the entries stands, for each id, the place of its entry;
an entry with a known id goes to that place, any other to the end. However many changes there are,
no slot leads past the entries, and the slot of an id leads to the entry that a search would find.
-/
namespace Shockwave

structure Slotted where
  container : Container := {}
  slots : Int32 → Option Nat := fun _ => none

namespace Slotted

/-- Puts an entry into the slot of its id, or into a new slot. There is no result if the slot lies
past the entries. -/
def insert? (s : Slotted) (e : Entry) : Option Slotted :=
  match s.slots e.id with
  | some slot =>
    if slot < s.container.entries.length then
      some { s with container.entries := s.container.entries.set slot e }
    else none
  | none =>
    some { container := { s.container with entries := s.container.entries ++ [e] }
           slots := fun id => if id = e.id then some s.container.entries.length else s.slots id }

def step? (s : Slotted) : Change → Option Slotted
  | .insert e => s.insert? e
  | .link l => some { s with container := s.container.link l }
  | .setSegment id bytes => some { s with container := s.container.setSegment id bytes }
  | .reset => some {}

def after? (changes : List Change) : Option Slotted := changes.foldlM step? {}

def find? (s : Slotted) (id : Int32) : Option (Option Entry) :=
  match s.slots id with
  | some slot => s.container.entries[slot]?.map some
  | none => some none

/-- An id has a slot just if the entry there has the id. -/
def Aligned (s : Slotted) : Prop :=
  ∀ id slot, s.slots id = some slot ↔ ∃ e, s.container.entries[slot]? = some e ∧ e.id = id

namespace Aligned

variable {s : Slotted}

theorem slot_lt (h : s.Aligned) {id : Int32} {slot : Nat} (hslot : s.slots id = some slot) :
    slot < s.container.entries.length := by
  obtain ⟨e, he, -⟩ := (h id slot).mp hslot
  exact (List.getElem?_eq_some_iff.mp he).1

theorem nodup (h : s.Aligned) : (s.container.entries.map (·.id)).Nodup := by
  refine List.pairwise_iff_getElem.mpr fun i j hi hj hij heq => ?_
  rw [List.length_map] at hi hj
  rw [List.getElem_map, List.getElem_map] at heq
  have hslot := (h _ i).mpr ⟨_, List.getElem?_eq_getElem hi, heq⟩
  rw [(h _ j).mpr ⟨_, List.getElem?_eq_getElem hj, rfl⟩, Option.some.injEq] at hslot
  omega

theorem find?_of_slots_none (h : s.Aligned) {id : Int32} (hslot : s.slots id = none) :
    s.container.find? id = none := by
  unfold Container.find?
  rw [List.find?_eq_none]
  intro e he hid
  obtain ⟨slot, hget⟩ := List.getElem?_of_mem he
  rw [(h id slot).mpr ⟨e, hget, by simpa using hid⟩] at hslot
  contradiction

theorem find?_eq (h : s.Aligned) (id : Int32) : s.find? id = some (s.container.find? id) := by
  unfold Slotted.find?
  cases hslot : s.slots id with
  | none => rw [h.find?_of_slots_none hslot]
  | some slot =>
    obtain ⟨e, he, rfl⟩ := (h id slot).mp hslot
    rw [Container.find?_eq_some h.nodup (List.mem_of_getElem? he)]
    simp only [he, Option.map_some]

theorem set_eq (h : s.Aligned) {e : Entry} {slot : Nat} (hslot : s.slots e.id = some slot) :
    s.container.entries.set slot e =
      s.container.entries.map fun old => if old.id = e.id then e else old := by
  apply List.ext_getElem?
  intro i
  rw [List.getElem?_set, List.getElem?_map]
  by_cases hi : slot = i
  · subst hi
    obtain ⟨old, hold, hid⟩ := (h _ _).mp hslot
    rw [if_pos rfl, if_pos (h.slot_lt hslot), hold, Option.map_some, if_pos hid]
  · rw [if_neg hi]
    cases hold : s.container.entries[i]? with
    | none => rfl
    | some old =>
      have hid : old.id ≠ e.id := by
        intro hid
        rw [(h _ i).mpr ⟨old, hold, hid⟩, Option.some.injEq] at hslot
        exact hi hslot.symm
      rw [Option.map_some, if_neg hid]

theorem replace (h : s.Aligned) {e : Entry} {slot : Nat} (hslot : s.slots e.id = some slot) :
    Aligned { s with container.entries := s.container.entries.set slot e } := by
  intro id i
  dsimp only
  rw [h id i, h.set_eq hslot, List.getElem?_map]
  constructor
  · rintro ⟨old, hold, rfl⟩
    exact ⟨_, by rw [hold]; rfl, Container.id_replace e old⟩
  · rintro ⟨new, hnew, rfl⟩
    obtain ⟨old, hold, rfl⟩ := Option.map_eq_some_iff.mp hnew
    exact ⟨old, hold, (Container.id_replace e old).symm⟩

theorem append (h : s.Aligned) {e : Entry} (hslot : s.slots e.id = none) :
    Aligned { container := { s.container with entries := s.container.entries ++ [e] }
              slots := fun id =>
                if id = e.id then some s.container.entries.length else s.slots id } := by
  intro id i
  dsimp only
  have hget : (∃ d, (s.container.entries ++ [e])[i]? = some d ∧ d.id = id) ↔
      s.slots id = some i ∨ s.container.entries.length = i ∧ e.id = id := by
    rw [h id i]
    rcases Nat.lt_trichotomy i s.container.entries.length with hlt | rfl | hgt
    · rw [List.getElem?_append_left hlt]
      simp [Nat.ne_of_gt hlt]
    · simp
    · have hnone : (s.container.entries ++ [e])[i]? = none :=
        List.getElem?_eq_none (by rw [List.length_append, List.length_singleton]; omega)
      simp [hnone, Nat.ne_of_lt hgt, List.getElem?_eq_none (Nat.le_of_lt hgt)]
  rw [hget]
  split
  next hid => simp [hid, hslot]
  next hid => simp [Ne.symm hid]

theorem insert? (h : s.Aligned) (e : Entry) :
    ∃ t, s.insert? e = some t ∧ t.container = s.container.insert e ∧ t.Aligned := by
  unfold Slotted.insert? Container.insert Container.has
  cases hslot : s.slots e.id with
  | none =>
    rw [h.find?_of_slots_none hslot]
    exact ⟨_, rfl, rfl, h.append hslot⟩
  | some slot =>
    obtain ⟨old, hold, hid⟩ := (h _ _).mp hslot
    have hfind : s.container.find? e.id = some old := by
      rw [← hid, Container.find?_eq_some h.nodup (List.mem_of_getElem? hold)]
    dsimp only
    rw [if_pos (h.slot_lt hslot), hfind]
    refine ⟨_, rfl, ?_, h.replace hslot⟩
    simp only [h.set_eq hslot]
    rfl

theorem step? (h : s.Aligned) (change : Change) :
    ∃ t, s.step? change = some t ∧ t.container = s.container.apply change ∧ t.Aligned := by
  cases change with
  | insert e => exact h.insert? e
  | link l => exact ⟨_, rfl, rfl, h⟩
  | setSegment id bytes => exact ⟨_, rfl, rfl, h⟩
  | reset => exact ⟨_, rfl, rfl, by simp [Aligned]⟩

end Aligned

theorem exists_after? (changes : List Change) :
    ∃ s, after? changes = some s ∧ s.container = Container.after changes ∧ s.Aligned := by
  induction changes using List.reverseRecOn with
  | nil => exact ⟨{}, rfl, rfl, by simp [Aligned]⟩
  | append_singleton changes change ih =>
    obtain ⟨s, hs, hcontainer, haligned⟩ := ih
    obtain ⟨t, ht, hchanged, htaligned⟩ := haligned.step? change
    refine ⟨t, ?_, ?_, htaligned⟩
    · unfold after? at hs ⊢
      rw [List.foldlM_append, hs]
      simpa using ht
    · rw [hchanged, hcontainer, Container.after_concat]

end Slotted

/-- After any changes the container holds what they brought since it was last emptied, each id once.
What is found under an id, the links and the bytes change only with changes of their own, and a slot
kept for each id always leads to the entry that is found. -/
theorem Container.after_faithful (changes : List Change) :
    (after changes).Reflects changes ∧
    (∀ id, (after changes).find? id = none ↔
      ∀ e ∈ Change.brought Change.entry? changes, e.id ≠ id) ∧
    (∀ id e, (after changes).find? id = some e ↔ e ∈ (after changes).entries ∧ e.id = id) ∧
    (∀ change id, ((after changes).apply change).find? id ≠ (after changes).find? id →
      change = .reset ∨ ∃ e, change = .insert e ∧ e.id = id) ∧
    (∀ change, ((after changes).apply change).links ≠ (after changes).links →
      change = .reset ∨ ∃ l, change = .link l) ∧
    (∀ change id, ((after changes).apply change).segment? id ≠ (after changes).segment? id →
      change = .reset ∨ ∃ bytes, change = .setSegment id bytes) ∧
    ∃ s, Slotted.after? changes = some s ∧ s.container = after changes ∧ s.Aligned ∧
      ∀ id, s.find? id = some ((after changes).find? id) := by
  have hreflects := reflects_after changes
  obtain ⟨s, hs, hcontainer, haligned⟩ := Slotted.exists_after? changes
  refine ⟨hreflects, fun id => ?_, fun id e => find?_eq_some_iff hreflects.nodup,
    fun change id => find?_changed, fun change => links_changed, fun change id => segment?_changed,
    s, hs, hcontainer, haligned, fun id => ?_⟩
  · rw [hreflects.find?_eq, List.findRev?_eq_find?_reverse, List.find?_eq_none]
    simp only [List.mem_reverse, beq_iff_eq, ne_eq]
  · rw [haligned.find?_eq, hcontainer]

end Shockwave
