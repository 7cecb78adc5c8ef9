import Shockwave.Proofs.Spans

/-!
Where reads that fail leave the cursor. A read that checks its whole extent first stays where it
was; a read made of smaller ones keeps what it has passed when a later part fails.
-/
namespace Shockwave

def Cursor.rest (c : Cursor) : List UInt8 := (octets c.data).drop c.pos

theorem Cursor.length_rest (c : Cursor) : c.rest.length = c.data.size - c.pos := by
  rw [rest, List.length_drop, length_octets]

theorem Cursor.rest_eq_nil_iff {c : Cursor} : c.rest = [] ↔ c.data.size ≤ c.pos := by
  rw [← List.length_eq_zero_iff, length_rest]
  omega

theorem Cursor.holds_take {c : Cursor} {n : Nat} (hsome : n ≠ 0) (hfits : n ≤ c.rest.length) :
    Holds c.data c.pos (c.rest.take n) := by
  rw [length_rest] at hfits
  refine ⟨(octets c.data).take c.pos, c.rest.drop n, ?_, ?_⟩
  · rw [List.append_assoc, List.take_append_drop, rest, List.take_append_drop]
  · rw [List.length_take, length_octets]
    omega

theorem Cursor.holds_rest {c : Cursor} (h : c.rest ≠ []) : Holds c.data c.pos c.rest := by
  have hholds := holds_take (mt List.length_eq_zero_iff.mp h) (Nat.le_refl _)
  rwa [List.take_length] at hholds

namespace Decode

variable {α β : Type} {read : Decode α} {c d : Cursor}

/-- A read that fails at the cursor leaves it there, with its byte order. -/
def Stays (read : Decode α) (c : Cursor) : Prop := ∀ e d, read c = .error e d → d = c

theorem stays_of_ok {a : α} (h : read c = .ok a d) : Stays read c := by
  intro e d' herror
  rw [h] at herror
  cases herror

theorem stays_of_error {e : ReadError} (h : read c = .error e d) (hd : d = c) : Stays read c := by
  intro e' d' herror
  rw [h] at herror
  cases herror
  exact hd

theorem stays_bind {rest : α → Decode β} (hread : Stays read c)
    (hrest : ∀ a d, ∃ b u, rest a d = .ok b u) : Stays (read >>= rest) c := by
  cases h : read c with
  | error e d => exact stays_of_error (bind_error h) (hread e d h)
  | ok a d =>
    obtain ⟨b, u, hok⟩ := hrest a d
    exact stays_of_ok ((bind_ok h).trans hok)

theorem stays_bind_pure {f : α → β} (hread : Stays read c) :
    Stays (read >>= fun a => pure (f a)) c :=
  stays_bind hread fun a d => ⟨f a, d, rfl⟩

theorem stays_require (n : Nat) (c : Cursor) : Stays (require n) c := by
  intro e d h
  unfold require at h
  split at h <;> cases h
  rfl

theorem stays_require_bind {n : Nat} {rest : Decode β} (hrest : Stays rest c) :
    Stays (require n >>= fun _ => rest) c := by
  rcases Nat.lt_or_ge c.remaining n with hcut | hfits
  · exact stays_of_error (bind_error (if_pos hcut)) rfl
  · have hok : require n c = .ok () c := if_neg (Nat.not_lt.mpr hfits)
    intro e d h
    rw [bind_ok hok] at h
    exact hrest e d h

theorem stays_seek (p : Nat) (c : Cursor) : Stays (seek p) c := by
  intro e d h
  unfold seek at h
  split at h <;> cases h
  rfl

theorem stays_take (n : Nat) (c : Cursor) : Stays (take n) c := by
  intro e d h
  unfold take at h
  split at h <;> cases h
  rfl

theorem stays_skip (n : Nat) (c : Cursor) : Stays (skip n) c :=
  stays_require_bind fun _ _ h => nomatch h

theorem stays_bytes (n : Nat) (c : Cursor) : Stays (Decode.bytes n) c :=
  stays_require_bind (stays_take n c)

theorem stays_latin1 (n : Nat) (c : Cursor) : Stays (latin1 n) c :=
  stays_bind_pure (stays_bytes n c)

theorem stays_word (width : Nat) (c : Cursor) : Stays (word width) c :=
  stays_bind (stays_take width c) fun _ d => ⟨_, d, rfl⟩

theorem stays_tag (c : Cursor) : Stays tag c :=
  stays_require_bind (stays_bind_pure (stays_bind_pure (stays_word 4 c)))

/-- A search through the stream fails in place only where nothing is left to be searched. -/
theorem stays_through {test : UInt8 → Bool}
    (h : ¬(c.rest ≠ [] ∧ ∀ byte ∈ c.rest, test byte = false)) : Stays (through test) c := by
  rcases Nat.lt_or_ge (scanFrom c.data test c.pos) c.data.size with hfound | hnone
  · obtain ⟨front, last, hholds, hfront, hlast⟩ := exists_of_scanFrom_lt hfound
    exact stays_of_ok (through_ok hholds hfront hlast)
  · have hall : ∀ byte ∈ c.rest, test byte = false := forall_of_size_le_scanFrom hnone
    have hempty : c.rest = [] := Classical.byContradiction fun hne => h ⟨hne, hall⟩
    refine stays_of_error (through_error hall) ?_
    rw [Nat.max_eq_left (Cursor.rest_eq_nil_iff.mp hempty)]

theorem stays_varint (h : ¬(c.rest ≠ [] ∧ ∀ byte ∈ c.rest, 0x80 ≤ byte)) : Stays varint c := by
  refine stays_bind_pure (stays_through ?_)
  simpa only [decide_eq_false_iff_not, UInt8.not_lt] using h

theorem stays_zeroTerminated (h : ¬(c.rest ≠ [] ∧ 0 ∉ c.rest)) : Stays zeroTerminated c := by
  refine stays_bind_pure (stays_through ?_)
  rintro ⟨hne, hall⟩
  refine h ⟨hne, fun hzero => ?_⟩
  have := hall 0 hzero
  contradiction

theorem zeroTerminated_error (h : 0 ∉ c.rest) :
    zeroTerminated c =
      .error (.outOfRange 1 (max c.pos c.data.size) c.data.size)
        { c with pos := max c.pos c.data.size } := by
  have hnone : ∀ byte ∈ c.rest, (byte == 0) = false := by
    intro byte hbyte
    exact beq_false_of_ne fun hzero => h (hzero ▸ hbyte)
  unfold zeroTerminated
  rw [bind_error (through_error hnone)]

theorem latin1_error {n : Nat} (hcut : c.data.size - c.pos < n) :
    latin1 n c = .error (.outOfRange n c.pos c.data.size) c := by
  unfold latin1 Decode.bytes
  rw [bind_error (bind_error (require_error hcut))]
  rfl

theorem counted_error {length : UInt8} {text : List UInt8} (hrest : c.rest = length :: text)
    (hcut : text.length < length.toNat) :
    counted c =
      .error (.outOfRange length.toNat (c.pos + 1) c.data.size) { c with pos := c.pos + 1 } := by
  have hlength := c.length_rest
  have hholds := Cursor.holds_rest (c := c) (by simp [hrest])
  rw [hrest, List.length_cons] at hlength
  rw [hrest, ← List.singleton_append] at hholds
  rw [counted_eq hholds.append_left, latin1_error]
  dsimp only
  omega

theorem stays_counted
    (h : ∀ length text, c.rest = length :: text → length.toNat ≤ text.length) :
    Stays counted c := by
  cases hrest : c.rest with
  | nil =>
    have hend := Cursor.rest_eq_nil_iff.mp hrest
    exact stays_of_error (bind_error (require_error (by omega))) rfl
  | cons length text =>
    have hholds := Cursor.holds_rest (c := c) (by simp [hrest])
    rw [hrest, ← List.singleton_append] at hholds
    have htext : Holds c.data (c.pos + 1) (text.take length.toNat) := by
      rw [← List.take_append_drop length.toNat text] at hholds
      exact hholds.append_right.append_left
    have hcount : (text.take length.toNat).length = length.toNat :=
      List.length_take_of_le (h length text hrest)
    have hread := latin1_ok (c := { c with pos := c.pos + 1 }) htext
    rw [hcount] at hread
    exact stays_of_ok ((counted_eq hholds.append_left).trans hread)

theorem inflated_broken {n : Nat} {stream : ByteArray} {e : ReadError}
    (hstream : Decode.bytes n c = .ok stream d) (hdata : Inflate.inflate stream = .error e) :
    inflated n c = .error e d := by
  unfold inflated
  rw [bind_ok hstream, hdata]
  rfl

theorem inflated_error {n : Nat} (hsome : n ≠ 0) (hfits : n ≤ c.rest.length)
    (h : ∀ data, ¬Inflates (c.rest.take n) data) :
    ∃ e, inflated n c = .error e { c with pos := c.pos + n } := by
  have hlength : (c.rest.take n).length = n := List.length_take_of_le hfits
  have hread := bytes_ok (Cursor.holds_take hsome hfits) hlength
  cases hinflate : Inflate.inflate (c.rest.take n).toByteArray with
  | error e => exact ⟨e, inflated_broken hread hinflate⟩
  | ok data =>
    refine absurd ?_ (h (octets data))
    rw [Inflates, toByteArray_octets, hinflate]

theorem stays_inflated {n : Nat}
    (h : n ≠ 0 → n ≤ c.rest.length → ∃ data, Inflates (c.rest.take n) data) :
    Stays (inflated n) c := by
  cases hread : Decode.bytes n c with
  | error e d => exact stays_of_error (bind_error hread) (stays_bytes n c e d hread)
  | ok stream d =>
    cases hinflate : Inflate.inflate stream with
    | ok data => exact stays_of_ok (inflated_ok hread hinflate)
    | error e =>
      obtain ⟨_, ⟨hholds, rfl, rfl⟩, rfl⟩ := (spans_bytes n).of_ok rfl hread
      have hrest : c.rest = octets stream ++ _ := hholds.drop_eq
      -- A read of no bytes at all fails where it started, whatever it makes of them.
      have hempty : stream.size = 0 := by
        refine Classical.byContradiction fun hsome => ?_
        obtain ⟨data, hdata⟩ := h hsome (by rw [hrest]; simp)
        rw [hrest, ← length_octets, List.take_left, Inflates, toByteArray_octets,
          hinflate] at hdata
        cases hdata
      refine stays_of_error (inflated_broken hread hinflate) ?_
      rw [hempty, Nat.add_zero]

end Decode

inductive Read where
  | require (n : Nat)
  | seek (pos : Nat)
  | skip (n : Nat)
  | tag
  | varint
  | bytes (n : Nat)
  | zeroTerminated
  | counted
  | latin1 (n : Nat)
  | inflated (n : Nat)

namespace Read

def run : Read → Decode Unit
  | require n => Decode.require n
  | seek pos => Decode.seek pos
  | skip n => Decode.skip n
  | tag => do let _ ← Decode.tag
  | varint => do let _ ← Decode.varint
  | bytes n => do let _ ← Decode.bytes n
  | zeroTerminated => do let _ ← Decode.zeroTerminated
  | counted => do let _ ← Decode.counted
  | latin1 n => do let _ ← Decode.latin1 n
  | inflated n => do let _ ← Decode.inflated n

/-- The read fails after it has moved, and is left at a later position. -/
inductive Strays (c : Cursor) : Read → Nat → Prop where
  | varint (hsome : c.rest ≠ []) (hmarked : ∀ byte ∈ c.rest, 0x80 ≤ byte) :
    Strays c varint c.data.size
  | zeroTerminated (hsome : c.rest ≠ []) (hzero : 0 ∉ c.rest) : Strays c zeroTerminated c.data.size
  | counted {length : UInt8} {text : List UInt8} (hrest : c.rest = length :: text)
    (hcut : text.length < length.toNat) : Strays c counted (c.pos + 1)
  | inflated {n : Nat} (hsome : n ≠ 0) (hfits : n ≤ c.rest.length)
    (hbroken : ∀ data, ¬Inflates (c.rest.take n) data) : Strays c (inflated n) (c.pos + n)

variable {r : Read} {c : Cursor} {stop : Nat}

theorem Strays.lt (h : r.Strays c stop) : c.pos < stop := by
  cases h with
  | varint hsome _ => exact Nat.lt_of_not_le (mt Cursor.rest_eq_nil_iff.mpr hsome)
  | zeroTerminated hsome _ => exact Nat.lt_of_not_le (mt Cursor.rest_eq_nil_iff.mpr hsome)
  | counted => omega
  | inflated => omega

theorem Strays.error (h : r.Strays c stop) :
    ∃ e, r.run c = .error e { c with pos := stop } := by
  have hlt := h.lt
  cases h with
  | varint _ hmarked =>
    have hread : Decode.varint c = _ := Decode.varint_error hmarked
    rw [Nat.max_eq_right (Nat.le_of_lt hlt)] at hread
    exact ⟨_, bind_error hread⟩
  | zeroTerminated _ hzero =>
    have hread := Decode.zeroTerminated_error hzero
    rw [Nat.max_eq_right (Nat.le_of_lt hlt)] at hread
    exact ⟨_, bind_error hread⟩
  | counted hrest hcut => exact ⟨_, bind_error (Decode.counted_error hrest hcut)⟩
  | inflated hsome hfits hbroken =>
    obtain ⟨e, hread⟩ := Decode.inflated_error hsome hfits hbroken
    exact ⟨e, bind_error hread⟩

theorem stays_of_not_strays (h : ∀ stop, ¬r.Strays c stop) : Decode.Stays r.run c := by
  cases r with
  | require n => exact Decode.stays_require n c
  | seek pos => exact Decode.stays_seek pos c
  | skip n => exact Decode.stays_skip n c
  | tag => exact Decode.stays_bind_pure (Decode.stays_tag c)
  | bytes n => exact Decode.stays_bind_pure (Decode.stays_bytes n c)
  | latin1 n => exact Decode.stays_bind_pure (Decode.stays_latin1 n c)
  | varint =>
    refine Decode.stays_bind_pure (Decode.stays_varint ?_)
    rintro ⟨hsome, hmarked⟩
    exact h _ (.varint hsome hmarked)
  | zeroTerminated =>
    refine Decode.stays_bind_pure (Decode.stays_zeroTerminated ?_)
    rintro ⟨hsome, hzero⟩
    exact h _ (.zeroTerminated hsome hzero)
  | counted =>
    refine Decode.stays_bind_pure (Decode.stays_counted fun length text hrest => ?_)
    exact Nat.le_of_not_lt fun hcut => h _ (.counted hrest hcut)
  | inflated n =>
    refine Decode.stays_bind_pure (Decode.stays_inflated fun hsome hfits => ?_)
    refine Classical.byContradiction fun hbroken => h _ (.inflated hsome hfits ?_)
    exact fun data hdata => hbroken ⟨data, hdata⟩

/-- A failed read leaves the cursor as it was, but for the reads that stray; those are left further
on, with the same byte order. -/
theorem failure_stays_or_strays (r : Read) (c : Cursor) :
    (∀ e d, r.run c = .error e d → d = c ∨ ∃ stop, r.Strays c stop ∧ d = { c with pos := stop }) ∧
    ∀ stop, r.Strays c stop →
      c.pos < stop ∧ ∃ e, r.run c = .error e { c with pos := stop } := by
  refine ⟨fun e d hread => ?_, fun stop h => ⟨h.lt, h.error⟩⟩
  by_cases hstrays : ∃ stop, r.Strays c stop
  · obtain ⟨stop, h⟩ := hstrays
    obtain ⟨e', herror⟩ := h.error
    rw [herror] at hread
    cases hread
    exact .inr ⟨stop, h, rfl⟩
  · exact .inl (stays_of_not_strays (not_exists.mp hstrays) e d hread)

theorem Strays.not_stays (h : r.Strays c stop) : ¬Decode.Stays r.run c := by
  intro hstays
  obtain ⟨e, herror⟩ := h.error
  have hpos : stop = c.pos := congrArg Cursor.pos (hstays e _ herror)
  have := h.lt
  omega

theorem failure_strays :
    ¬Decode.Stays varint.run ⟨[0x81, 0x82].toByteArray, 0, .big⟩ ∧
    ¬Decode.Stays zeroTerminated.run ⟨[0x61, 0x62, 0x63].toByteArray, 0, .big⟩ ∧
    ¬Decode.Stays counted.run ⟨[5, 0x61, 0x62, 0x63].toByteArray, 0, .big⟩ ∧
    ¬Decode.Stays (inflated 4).run ⟨[0x12, 0x34, 0x56, 0x78].toByteArray, 0, .big⟩ := by
  have hrest (bytes : List UInt8) : Cursor.rest ⟨bytes.toByteArray, 0, .big⟩ = bytes :=
    octets_toByteArray bytes
  refine ⟨(Strays.varint ?_ ?_).not_stays, (Strays.zeroTerminated ?_ ?_).not_stays,
    (Strays.counted (hrest _) (by decide)).not_stays, (Strays.inflated ?_ ?_ ?_).not_stays⟩
  · simp [hrest]
  · simp [hrest]
  · simp [hrest]
  · simp [hrest]
  · decide
  · simp [hrest]
  · intro data hdata
    rw [hrest, Inflates, Inflate.inflate_eq_ok_iff] at hdata
    cases hdata

end Read
end Shockwave
