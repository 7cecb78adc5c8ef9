import Shockwave.Proofs.FailedReads
import Shockwave.Proofs.ScriptReading
import Shockwave.Script.Names

/-!
Name tables are read whole or not at all. What is read for itself in this way is so in sequence too:
a stream that ends inside two parts ends inside the first, or has all of it and ends inside the
second.
-/
namespace Shockwave

theorem Holds.drop_eq_self {data : ByteArray} {pos : Nat} {bytes : List UInt8}
    (h : Holds data pos bytes) (hsize : data.size = pos + bytes.length) :
    (octets data).drop pos = bytes := by
  have hnone : (octets data).drop (pos + bytes.length) = [] :=
    List.drop_eq_nil_of_le (by rw [length_octets]; omega)
  rw [h.drop_eq, hnone, List.append_nil]

/-- The stream has the first of the bytes at a position, and ends before it has had all of them. -/
def EndsIn (data : ByteArray) (pos : Nat) (bytes : List UInt8) : Prop :=
  ∃ part missing, bytes = part ++ missing ∧ missing ≠ [] ∧ Holds data pos part ∧
    data.size = pos + part.length

namespace EndsIn

variable {data : ByteArray} {pos : Nat} {bytes front back : List UInt8}

theorem of_append {part missing : List UInt8} (h : missing ≠ []) :
    EndsIn part.toByteArray 0 (part ++ missing) := by
  refine ⟨part, missing, rfl, h, Holds.whole part, ?_⟩
  rw [← length_octets, octets_toByteArray, Nat.zero_add]

theorem size_lt (h : EndsIn data pos bytes) : data.size < pos + bytes.length := by
  obtain ⟨part, missing, rfl, hmissing, -, hsize⟩ := h
  have := List.length_pos_iff.mpr hmissing
  rw [List.length_append]
  omega

theorem append (h : EndsIn data pos (front ++ back)) :
    EndsIn data pos front ∨ Holds data pos front ∧ EndsIn data (pos + front.length) back := by
  obtain ⟨part, missing, happend, hmissing, hpart, hsize⟩ := h
  rcases List.append_eq_append_iff.mp happend with ⟨more, rfl, rfl⟩ | ⟨less, rfl, rfl⟩
  · -- The stream goes on into the second part.
    rw [List.length_append] at hsize
    exact .inr ⟨hpart.append_left, more, missing, rfl, hmissing, hpart.append_right, by omega⟩
  · by_cases hless : less = []
    · -- It ends between the two, and has nothing of the second.
      rw [hless, List.append_nil]
      rw [hless] at hmissing
      have hempty : Holds data (pos + part.length) [] := by
        rw [← List.append_nil part] at hpart
        exact hpart.append_right
      exact .inr ⟨hpart, [], back, rfl, hmissing, hempty, hsize⟩
    · exact .inl ⟨part, less, rfl, hless, hpart, hsize⟩

end EndsIn

namespace Decode

variable {α β : Type}

def Starves (read : Decode α) (c : Cursor) : Prop :=
  ∃ wanted pos d, read c = .error (.outOfRange wanted pos c.size) d

theorem starves_bind {read : Decode α} {rest : α → Decode β} {c : Cursor} (h : Starves read c) :
    Starves (read >>= rest) c := by
  obtain ⟨wanted, pos, d, hread⟩ := h
  exact ⟨wanted, pos, d, bind_error hread⟩

theorem starves_require {n : Nat} {c : Cursor} (h : c.data.size - c.pos < n) :
    Starves (require n) c :=
  ⟨n, c.pos, c, require_error h⟩

/-- The read gives the value where the stream has the bytes, and fails where it ends inside them. -/
structure WholeOrNone (read : Decode α) (bytes : List UInt8) (a : α) : Prop where
  undoes : ∀ data, Undoes data read bytes a
  starves : ∀ {data pos}, EndsIn data pos bytes → Starves read ⟨data, pos, .big⟩

theorem wholeOrNone_pure (a : α) : WholeOrNone (pure a) [] a where
  undoes _ := undoes_pure a
  starves h := by
    obtain ⟨part, missing, happend, hmissing, -, -⟩ := h
    exact absurd (List.append_eq_nil_iff.mp happend.symm).2 hmissing

theorem wholeOrNone_bind {read : Decode α} {rest : α → Decode β} {front back : List UInt8} {a : α}
    {b : β} (hread : WholeOrNone read front a) (hrest : WholeOrNone (rest a) back b) :
    WholeOrNone (read >>= rest) (front ++ back) b where
  undoes data := undoes_bind (hread.undoes data) (hrest.undoes data)
  starves {data pos} h := by
    rcases h.append with hfront | ⟨hfront, hback⟩
    · exact starves_bind (hread.starves hfront)
    · obtain ⟨wanted, place, d, herror⟩ := hrest.starves hback
      exact ⟨wanted, place, d, (bind_ok (hread.undoes data pos hfront)).trans herror⟩

theorem wholeOrNone_bind_pure {read : Decode α} {bytes : List UInt8} {a : α} (f : α → β)
    (hread : WholeOrNone read bytes a) :
    WholeOrNone (read >>= fun x => pure (f x)) bytes (f a) := by
  have h : WholeOrNone (read >>= fun x => pure (f x)) (bytes ++ []) (f a) :=
    wholeOrNone_bind hread (wholeOrNone_pure (f a))
  rwa [List.append_nil] at h

theorem wholeOrNone_times {read : Decode β} {write : α → List UInt8} {value : α → β}
    {items : List α} (h : ∀ item ∈ items, WholeOrNone read (write item) (value item)) :
    WholeOrNone (times items.length read) (items.flatMap write) (items.map value) := by
  induction items with
  | nil => exact wholeOrNone_pure []
  | cons item rest ih =>
    rw [List.flatMap_cons]
    refine wholeOrNone_bind (h item List.mem_cons_self) (wholeOrNone_bind_pure _ (ih ?_))
    exact fun other hother => h other (List.mem_cons_of_mem _ hother)

end Decode

def countedWritten (text : List UInt8) : List UInt8 := UInt8.ofNat text.length :: text

theorem Decode.wholeOrNone_counted {text : List UInt8} (hfits : text.length < 256) :
    WholeOrNone counted (countedWritten text) (Latin1.decode text) where
  undoes data pos h := counted_ok h hfits
  starves {data pos} h := by
    obtain ⟨part, missing, happend, hmissing, hpart, hsize⟩ := h
    cases part with
    | nil =>
      rw [List.length_nil] at hsize
      exact starves_bind (starves_require (by dsimp only; omega))
    | cons length found =>
      obtain ⟨rfl, htext⟩ := List.cons.inj happend
      have hcount : (UInt8.ofNat text.length).toNat = text.length :=
        UInt8.toNat_ofNat_of_lt hfits
      have hcut : found.length < text.length := by
        have := List.length_pos_iff.mpr hmissing
        have hlength : text.length = found.length + missing.length := by
          rw [htext]
          exact List.length_append
        omega
      rw [← hcount] at hcut
      exact ⟨_, _, _, counted_error (hpart.drop_eq_self hsize) hcut⟩

/-- A table of names to be stored. The four words that its header starts with can be any. -/
structure NameLayout where
  lead : List UInt8
  names : List (List UInt8)
  length_lead : lead.length = 16
  names_fit : names.length < 0x10000
  name_fits : ∀ name ∈ names, name.length < 256

namespace NameLayout

variable (m : NameLayout)

def header : List UInt8 :=
  m.lead ++ (ByteOrder.big.bytes 2 20 ++ ByteOrder.big.bytes 2 m.names.length)

def written : List UInt8 := m.header ++ m.names.flatMap countedWritten

theorem length_header : m.header.length = 20 := by simp [header, m.length_lead]

end NameLayout

namespace NameTable

variable {data : ByteArray} {pos : Nat} {order : ByteOrder}

theorem starves_read (h : data.size < 20) : Decode.Starves read ⟨data, pos, order⟩ := by
  refine ⟨20, 0, ⟨data, 0, .big⟩, ?_⟩
  unfold read
  rw [bind_ok (Decode.setOrder_ok .big), bind_ok (Decode.seek_ok (Nat.zero_le _)),
    bind_error (Decode.require_error (by dsimp only; omega))]
  rfl

theorem read_eq_times (m : NameLayout) (h : Holds data 0 m.header) :
    read ⟨data, pos, order⟩ =
      (Decode.times m.names.length Decode.counted >>= fun names => pure ⟨names⟩)
        ⟨data, 20, .big⟩ := by
  have hfits := h.fits
  rw [m.length_header] at hfits
  have hwords := h.append_right
  rw [m.length_lead] at hwords
  have hoffset : Decode.u16 ⟨data, 16, .big⟩ = .ok 20 ⟨data, 18, .big⟩ :=
    Decode.undoes_u16_count 20 _ hwords.append_left
  have hcount : Decode.u16 ⟨data, 18, .big⟩ = .ok (UInt16.ofNat m.names.length) ⟨data, 20, .big⟩ :=
    Decode.undoes_u16_count _ _ hwords.append_right
  have hnames : (UInt16.ofNat m.names.length).toNat = m.names.length :=
    UInt16.toNat_ofNat_of_lt m.names_fit
  unfold read
  rw [bind_ok (Decode.setOrder_ok .big), bind_ok (Decode.seek_ok (Nat.zero_le _)),
    bind_ok (Decode.require_ok hfits), Decode.jump_bind, bind_ok hoffset, bind_ok hcount,
    bind_ok (Decode.seek_ok hfits), hnames]
  rfl

/-- A stored table is read from wherever the cursor stands, and whatever follows. If any of it is
missing at the end, the stream is found to be too short. -/
theorem read_whole_or_none (m : NameLayout) (pos : Nat) (order : ByteOrder) :
    (∀ after, read ⟨(m.written ++ after).toByteArray, pos, order⟩ =
      .ok ⟨m.names.map Latin1.decode⟩
        ⟨(m.written ++ after).toByteArray, m.written.length, .big⟩) ∧
    ∀ part, part <+: m.written → part ≠ m.written →
      Decode.Starves read ⟨part.toByteArray, pos, order⟩ := by
  have hnames : Decode.WholeOrNone
      (Decode.times m.names.length Decode.counted >>= fun names => pure (⟨names⟩ : NameTable))
      (m.names.flatMap countedWritten) ⟨m.names.map Latin1.decode⟩ :=
    Decode.wholeOrNone_bind_pure _ (Decode.wholeOrNone_times fun name hname =>
      Decode.wholeOrNone_counted (m.name_fits name hname))
  constructor
  · intro after
    have hholds : Holds (m.written ++ after).toByteArray 0 (m.header ++ _) := Holds.start _ after
    have hbody := hholds.append_right
    rw [m.length_header] at hbody
    rw [read_eq_times m hholds.append_left, hnames.undoes _ 20 hbody, NameLayout.written,
      List.length_append, m.length_header]
  · rintro part ⟨missing, hpart⟩ hne
    have hmissing : missing ≠ [] := by
      rintro rfl
      exact hne (by rw [← hpart, List.append_nil])
    have hends : EndsIn part.toByteArray 0 (m.header ++ m.names.flatMap countedWritten) := by
      have h : EndsIn part.toByteArray 0 (part ++ missing) := EndsIn.of_append hmissing
      rwa [hpart] at h
    rcases hends.append with hheader | ⟨hheader, hbody⟩
    · have hsize := hheader.size_lt
      rw [m.length_header] at hsize
      exact starves_read (by omega)
    · rw [m.length_header] at hbody
      obtain ⟨wanted, place, d, herror⟩ := hnames.starves hbody
      exact ⟨wanted, place, d, (read_eq_times m hheader).trans herror⟩

def smallNames : NameLayout where
  lead := List.replicate 16 0
  names := [[0xE9], []]
  length_lead := List.length_replicate
  names_fit := by decide
  name_fits := by simp

theorem read_smallNames :
    smallNames.written = List.replicate 16 0 ++ [0, 20, 0, 2, 1, 0xE9, 0] ∧
    read ⟨(smallNames.written ++ [5]).toByteArray, 30, .little⟩ =
      .ok ⟨["é", ""]⟩ ⟨(smallNames.written ++ [5]).toByteArray, 23, .big⟩ ∧
    Decode.Starves read ⟨smallNames.written.dropLast.toByteArray, 30, .little⟩ := by
  obtain ⟨hwhole, hnone⟩ := read_whole_or_none smallNames 30 .little
  exact ⟨by decide, hwhole [5], hnone _ (List.dropLast_prefix _) (by decide)⟩

end NameTable
end Shockwave
