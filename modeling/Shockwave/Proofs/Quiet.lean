import Shockwave.Proofs.Stream
import Shockwave.Session.State

/-!
Steps that change little. A read moves along its stream; a quiet step of a session always has a
result and leaves all but the cursor's position and the notes as it was.
-/
namespace Shockwave

namespace Decode

variable {α β : Type}

def reached : EStateM.Result ReadError Cursor α → Cursor
  | .ok _ d => d
  | .error _ d => d

def Moves (read : Decode α) : Prop :=
  ∀ c, ∃ p, reached (read c) = { c with pos := p }

theorem moves_pure (a : α) : Moves (pure a) := fun c => ⟨c.pos, rfl⟩

theorem moves_throw (e : ReadError) : Moves (throw e : Decode α) := fun c => ⟨c.pos, rfl⟩

theorem moves_get : Moves (get : Decode Cursor) := fun c => ⟨c.pos, rfl⟩

theorem moves_bind {read : Decode α} {rest : α → Decode β} (hread : Moves read)
    (hrest : ∀ a, Moves (rest a)) : Moves (read >>= rest) := by
  intro c
  obtain ⟨p, hp⟩ := hread c
  cases h : read c with
  | error e d =>
    rw [bind_error h]
    exact ⟨p, by rw [h] at hp; exact hp⟩
  | ok a d =>
    obtain ⟨q, hq⟩ := hrest a d
    rw [h] at hp
    cases hp
    rw [bind_ok h]
    exact ⟨q, hq⟩

theorem moves_ite {condition : Prop} [Decidable condition] {yes no : Decode α} (hyes : Moves yes)
    (hno : Moves no) : Moves (if condition then yes else no) := by
  split
  · exact hyes
  · exact hno

theorem moves_require (n : Nat) : Moves (require n) := by
  intro c
  unfold require
  split <;> exact ⟨c.pos, rfl⟩

theorem moves_seek (p : Nat) : Moves (seek p) := by
  intro c
  unfold seek
  split
  · exact ⟨c.pos, rfl⟩
  · exact ⟨p, rfl⟩

theorem moves_take (n : Nat) : Moves (take n) := by
  intro c
  unfold take
  split
  · exact ⟨c.pos, rfl⟩
  · exact ⟨c.pos + n, rfl⟩

theorem moves_pos : Moves pos := moves_bind moves_get fun _ => moves_pure _

theorem moves_word (width : Nat) : Moves (word width) :=
  moves_bind (moves_take width) fun _ => moves_bind moves_get fun _ => moves_pure _

theorem moves_u16 : Moves u16 := moves_bind (moves_word 2) fun _ => moves_pure _

theorem moves_u32 : Moves u32 := moves_bind (moves_word 4) fun _ => moves_pure _

theorem moves_i32 : Moves i32 := moves_bind moves_u32 fun _ => moves_pure _

theorem moves_tag : Moves tag :=
  moves_bind (moves_require 4) fun _ => moves_bind moves_u32 fun _ => moves_pure _

theorem moves_bytes (n : Nat) : Moves (Decode.bytes n) :=
  moves_bind (moves_require n) fun _ => moves_take n

def outcome (read : Decode α) (c : Cursor) : Except ReadError α :=
  match read c with
  | .ok a _ => .ok a
  | .error e _ => .error e

end Decode

namespace Session

def movedTo (s : Session) (pos : Nat) : Session :=
  { s with cursor := { s.cursor with pos } }

@[simp] theorem pos_movedTo (s : Session) (pos : Nat) : (s.movedTo pos).cursor.pos = pos :=
  rfl

@[simp] theorem order_movedTo (s : Session) (pos : Nat) :
    (s.movedTo pos).cursor.order = s.cursor.order :=
  rfl

@[simp] theorem resources_movedTo (s : Session) (pos : Nat) :
    (s.movedTo pos).resources = s.resources :=
  rfl

def noting (s : Session) (notes : List Note) : Session :=
  { s with notes := s.notes ++ notes }

@[simp] theorem noting_nil (s : Session) : s.noting [] = s := by
  rw [noting, List.append_nil]

/-- The second session is the first, up to the cursor's position and the notes. -/
def Keeps (s t : Session) : Prop :=
  ∃ pos notes, t = { s with cursor := { s.cursor with pos }, notes }

theorem Keeps.refl (s : Session) : s.Keeps s := ⟨s.cursor.pos, s.notes, rfl⟩

theorem Keeps.trans {s t u : Session} (hst : s.Keeps t) (htu : t.Keeps u) : s.Keeps u := by
  obtain ⟨pos, notes, rfl⟩ := hst
  obtain ⟨pos', notes', rfl⟩ := htu
  exact ⟨pos', notes', rfl⟩

end Session

namespace Step

variable {ε α β : Type} {s t : Session}

/-- The step has the result `a` in session `s`, and keeps the session. -/
def Yields (step : Step ε α) (s : Session) (a : α) : Prop :=
  ∃ t, step s = .ok a t ∧ s.Keeps t

def Quiet (step : Step ε α) : Prop := ∀ s, ∃ a, Yields step s a

theorem yields_pure (a : α) : Yields (pure a : Step ε α) s a := ⟨s, rfl, .refl s⟩

theorem yields_get : Yields (get : Step ε Session) s s := ⟨s, rfl, .refl s⟩

theorem yields_bind {step : Step ε α} {rest : α → Step ε β} {a : α} {b : β}
    (hstep : Yields step s a) (hrest : ∀ t, s.Keeps t → Yields (rest a) t b) :
    Yields (step >>= rest) s b := by
  obtain ⟨t, ht, hkeeps⟩ := hstep
  obtain ⟨u, hu, hkeeps'⟩ := hrest t hkeeps
  exact ⟨u, by rw [bind_ok ht, hu], hkeeps.trans hkeeps'⟩

/-- For a first step whose cursor the rest depends on. -/
theorem yields_of_ok {step : Step ε α} {rest : α → Step ε β} {a : α} {b : β}
    (hstep : step s = .ok a t) (hkeeps : s.Keeps t) (hrest : Yields (rest a) t b) :
    Yields (step >>= rest) s b := by
  obtain ⟨u, hu, hkeeps'⟩ := hrest
  exact ⟨u, by rw [bind_ok hstep, hu], hkeeps.trans hkeeps'⟩

theorem yields_note (n : Note) : Yields (note n : Step ε Unit) s () :=
  ⟨_, rfl, s.cursor.pos, _, rfl⟩

theorem yields_noteAll (ns : List Note) : Yields (noteAll ns : Step ε Unit) s () :=
  ⟨_, rfl, s.cursor.pos, _, rfl⟩

theorem attempt_ok {read : Decode α} {a : α} {d : Cursor} (h : read s.cursor = .ok a d) :
    (attempt read : Step ε _) s = .ok (.ok a) { s with cursor := d } := by
  simp only [attempt, h]

theorem readOr_ok {failure : ReadError → ε} {read : Decode α} {a : α} {d : Cursor}
    (h : read s.cursor = .ok a d) : readOr failure read s = .ok a { s with cursor := d } := by
  unfold readOr
  rw [bind_ok (attempt_ok h)]
  rfl

theorem readOr_error {failure : ReadError → ε} {read : Decode α} {e : ReadError} {d : Cursor}
    (h : read s.cursor = .error e d) :
    readOr failure read s = .error (failure e) { s with cursor := d } := by
  have hattempt : (attempt read : Step ε _) s = .ok (.error e) { s with cursor := d } := by
    simp only [attempt, h]
  unfold readOr
  rw [bind_ok hattempt]
  rfl

theorem exists_of_readOr_ok {failure : ReadError → ε} {read : Decode α} {a : α}
    (h : readOr failure read s = .ok a t) :
    ∃ d, read s.cursor = .ok a d ∧ t = { s with cursor := d } := by
  cases hread : read s.cursor with
  | ok b d =>
    rw [readOr_ok hread] at h
    cases h
    exact ⟨d, rfl, rfl⟩
  | error e d =>
    rw [readOr_error hread] at h
    cases h

theorem restoring_ok {step : Step ε α} {a : α} {pos : Nat} {notes : List Note}
    (h : step s = .ok a ((s.movedTo pos).noting notes)) :
    restoring step s = .ok a (s.noting notes) := by
  simp only [restoring, h]
  rfl

theorem restoring_error {step : Step ε α} {e : ε} {pos : Nat} {notes : List Note}
    (h : step s = .error e ((s.movedTo pos).noting notes)) :
    restoring step s = .error e (s.noting notes) := by
  simp only [restoring, h]
  rfl

theorem keeps_of_moves {read : Decode α} (hread : Decode.Moves read) :
    s.Keeps { s with cursor := Decode.reached (read s.cursor) } := by
  obtain ⟨p, hp⟩ := hread s.cursor
  exact ⟨p, s.notes, by rw [hp]⟩

theorem attempt_eq (read : Decode α) :
    (attempt read : Step ε _) s =
      .ok (Decode.outcome read s.cursor)
        { s with cursor := Decode.reached (read s.cursor) } := by
  unfold attempt Decode.outcome Decode.reached
  cases read s.cursor <;> rfl

theorem yields_attempt {read : Decode α} (hread : Decode.Moves read) :
    Yields (attempt read : Step ε _) s (Decode.outcome read s.cursor) :=
  ⟨_, attempt_eq read, keeps_of_moves hread⟩

theorem yields_restoring {step : Step ε α} {a : α} (h : Yields step s a) :
    Yields (restoring step) s a := by
  obtain ⟨t, ht, pos, notes, rfl⟩ := h
  refine ⟨_, ?_, s.cursor.pos, notes, rfl⟩
  simp only [restoring, ht]
  rfl

theorem quiet_pure (a : α) : Quiet (pure a : Step ε α) := fun _ => ⟨a, yields_pure a⟩

theorem quiet_get : Quiet (get : Step ε Session) := fun s => ⟨s, yields_get⟩

theorem quiet_consult (ask : Container → α) : Quiet (consult ask : Step ε α) :=
  fun s => ⟨ask s.resources, s, rfl, .refl s⟩

theorem quiet_note (n : Note) : Quiet (note n : Step ε Unit) := fun _ => ⟨(), yields_note n⟩

theorem quiet_noteAll (ns : List Note) : Quiet (noteAll ns : Step ε Unit) :=
  fun _ => ⟨(), yields_noteAll ns⟩

theorem quiet_bind {step : Step ε α} {rest : α → Step ε β} (hstep : Quiet step)
    (hrest : ∀ a, Quiet (rest a)) : Quiet (step >>= rest) := by
  intro s
  obtain ⟨a, t, ht, hkeeps⟩ := hstep s
  obtain ⟨b, u, hu, hkeeps'⟩ := hrest a t
  exact ⟨b, u, by rw [bind_ok ht, hu], hkeeps.trans hkeeps'⟩

def Keeping (step : Step ε α) : Prop := ∀ s a t, step s = .ok a t → s.Keeps t

theorem keeping_of_quiet {step : Step ε α} (h : Quiet step) : Keeping step := by
  intro s a t ht
  obtain ⟨b, u, hu, hkeeps⟩ := h s
  rw [ht] at hu
  cases hu
  exact hkeeps

end Step
end Shockwave
