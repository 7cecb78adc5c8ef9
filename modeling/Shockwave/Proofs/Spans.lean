import Shockwave.Proofs.ArchiveReading
import Shockwave.Proofs.Finding

/-!
Reads told by what stands between two positions of a stream. A step spans a layout if it succeeds
just where the layout has a place to end, with the value that the layout gives; so a chain of reads
is known for every stream, good or bad.
-/
namespace Shockwave

section

variable {ε σ α β : Type} {place : σ → Cursor} {data : ByteArray} {order : ByteOrder}

/-- The step has a result just where the layout has one, and leaves the stream at its end. -/
structure Spans (place : σ → Cursor) (data : ByteArray) (order : ByteOrder) (step : EStateM ε σ α)
    (layout : Nat → α → Nat → Prop) : Prop where
  of_ok : ∀ {s t pos a}, place s = ⟨data, pos, order⟩ → step s = .ok a t →
    ∃ stop, layout pos a stop ∧ place t = ⟨data, stop, order⟩
  to_ok : ∀ {s pos a stop}, place s = ⟨data, pos, order⟩ → layout pos a stop →
    ∃ t, step s = .ok a t ∧ place t = ⟨data, stop, order⟩

theorem Spans.congr {step : EStateM ε σ α} {layout layout' : Nat → α → Nat → Prop}
    (h : Spans place data order step layout)
    (hiff : ∀ pos a stop, layout pos a stop ↔ layout' pos a stop) :
    Spans place data order step layout' where
  of_ok hs hstep := by
    obtain ⟨stop, hlayout, ht⟩ := h.of_ok hs hstep
    exact ⟨stop, (hiff _ _ _).mp hlayout, ht⟩
  to_ok hs hlayout := h.to_ok hs ((hiff _ _ _).mpr hlayout)

theorem spans_pure (a : α) :
    Spans place data order (pure a : EStateM ε σ α) fun pos b stop => b = a ∧ stop = pos where
  of_ok hs h := by
    cases h
    exact ⟨_, ⟨rfl, rfl⟩, hs⟩
  to_ok hs h := by
    obtain ⟨rfl, rfl⟩ := h
    exact ⟨_, rfl, hs⟩

theorem spans_throw (e : ε) :
    Spans place data order (throw e : EStateM ε σ α) fun _ _ _ => False where
  of_ok _ h := nomatch h
  to_ok _ h := h.elim

theorem spans_modify {f : σ → σ} (hf : ∀ s, place (f s) = place s) :
    Spans place data order (modify f : EStateM ε σ PUnit) fun pos _ stop => stop = pos where
  of_ok hs h := by
    cases h
    exact ⟨_, rfl, (hf _).trans hs⟩
  to_ok hs h := by
    cases h
    exact ⟨_, rfl, (hf _).trans hs⟩

theorem spans_bind {step : EStateM ε σ α} {rest : α → EStateM ε σ β}
    {layout : Nat → α → Nat → Prop} {layouts : α → Nat → β → Nat → Prop}
    (hstep : Spans place data order step layout)
    (hrest : ∀ a, Spans place data order (rest a) (layouts a)) :
    Spans place data order (step >>= rest)
      fun pos b stop => ∃ a middle, layout pos a middle ∧ layouts a middle b stop where
  of_ok {s u pos b} hs h := by
    obtain ⟨a, t, hfirst, hsecond⟩ := exists_of_bind_ok h
    obtain ⟨middle, hlayout, ht⟩ := hstep.of_ok hs hfirst
    obtain ⟨stop, hmore, hu⟩ := (hrest a).of_ok ht hsecond
    exact ⟨stop, ⟨a, middle, hlayout, hmore⟩, hu⟩
  to_ok hs h := by
    obtain ⟨a, middle, hlayout, hmore⟩ := h
    obtain ⟨t, hfirst, ht⟩ := hstep.to_ok hs hlayout
    obtain ⟨u, hsecond, hu⟩ := (hrest a).to_ok ht hmore
    exact ⟨u, by rw [bind_ok hfirst, hsecond], hu⟩

theorem spans_ite {condition : Prop} [Decidable condition] {yes no : EStateM ε σ α}
    {layout layout' : Nat → α → Nat → Prop} (hyes : Spans place data order yes layout)
    (hno : Spans place data order no layout') :
    Spans place data order (if condition then yes else no)
      fun pos a stop => if condition then layout pos a stop else layout' pos a stop := by
  split
  · exact hyes
  · exact hno

/-- What is done with a state that was looked up may depend on its position. -/
theorem spans_get_bind {rest : σ → EStateM ε σ α} {layouts : Nat → Nat → α → Nat → Prop}
    (hrest : ∀ s pos, place s = ⟨data, pos, order⟩ →
      Spans place data order (rest s) (layouts pos)) :
    Spans place data order (get >>= rest) fun pos a stop => layouts pos pos a stop where
  of_ok hs h := (hrest _ _ hs).of_ok hs h
  to_ok hs h := (hrest _ _ hs).to_ok hs h

end

namespace Holds

variable {data : ByteArray} {pos : Nat}

theorem singleton {h : pos < data.size} : Holds data pos [data[pos]] := by
  have hfits : pos + 1 ≤ data.size := h
  obtain ⟨bytes, hbytes, hlength⟩ := Holds.of_fits hfits
  obtain ⟨byte, rfl⟩ := List.length_eq_one_iff.mp hlength
  rwa [hbytes.getElem h]

end Holds

theorem exists_of_scanFrom_lt {data : ByteArray} {test : UInt8 → Bool} {pos : Nat}
    (h : scanFrom data test pos < data.size) :
    ∃ front last, Holds data pos (front ++ [last]) ∧ (∀ byte ∈ front, test byte = false) ∧
      test last = true := by
  fun_induction scanFrom data test pos with
  | case1 pos hpos htest => exact ⟨[], data[pos], Holds.singleton, by simp, htest⟩
  | case2 pos hpos htest ih =>
    obtain ⟨front, last, hholds, hfront, hlast⟩ := ih h
    refine ⟨data[pos] :: front, last, Holds.singleton.append hholds rfl, ?_, hlast⟩
    intro byte hbyte
    rcases List.mem_cons.mp hbyte with rfl | hmem
    · exact Bool.eq_false_iff.mpr htest
    · exact hfront byte hmem
  | case3 pos hpos => omega

theorem forall_of_size_le_scanFrom {data : ByteArray} {test : UInt8 → Bool} {pos : Nat}
    (h : data.size ≤ scanFrom data test pos) :
    ∀ byte ∈ (octets data).drop pos, test byte = false := by
  fun_induction scanFrom data test pos with
  | case1 pos hpos htest => omega
  | case2 pos hpos htest ih =>
    rw [drop_octets hpos]
    intro byte hbyte
    rcases List.mem_cons.mp hbyte with rfl | hmem
    · exact Bool.eq_false_iff.mpr htest
    · exact ih h byte hmem
  | case3 pos hpos =>
    rw [List.drop_eq_nil_of_le (by rw [length_octets]; omega)]
    simp

namespace Decode

variable {α : Type} {data : ByteArray} {order : ByteOrder}

theorem spans_of_cursor {read : Decode α} {layout : Nat → α → Nat → Prop}
    (hof : ∀ pos a d, read ⟨data, pos, order⟩ = .ok a d →
      ∃ stop, layout pos a stop ∧ d = ⟨data, stop, order⟩)
    (hto : ∀ pos a stop, layout pos a stop →
      read ⟨data, pos, order⟩ = .ok a ⟨data, stop, order⟩) :
    Spans id data order read layout where
  of_ok {s t pos a} hs h := by
    rw [show s = _ from hs] at h
    exact hof pos a t h
  to_ok {s pos a stop} hs h := by
    rw [show s = _ from hs]
    exact ⟨_, hto pos a stop h, rfl⟩

theorem spans_require (n : Nat) :
    Spans id data order (require n) fun pos _ stop => n ≤ data.size - pos ∧ stop = pos := by
  apply spans_of_cursor
  · intro pos a d h
    rcases Nat.lt_or_ge (data.size - pos) n with hcut | hfits
    · rw [require_error hcut] at h
      cases h
    · unfold require Cursor.remaining Cursor.size at h
      rw [if_neg (by dsimp only; omega)] at h
      cases h
      exact ⟨pos, ⟨hfits, rfl⟩, rfl⟩
  · rintro pos a stop ⟨hfits, rfl⟩
    unfold require Cursor.remaining Cursor.size
    rw [if_neg (by dsimp only; omega)]

theorem spans_seek (target : Nat) :
    Spans id data order (seek target) fun _ _ stop => target ≤ data.size ∧ stop = target := by
  apply spans_of_cursor
  · intro pos a d h
    rcases Nat.lt_or_ge data.size target with hcut | hfits
    · rw [seek_error hcut] at h
      cases h
    · rw [seek_ok hfits] at h
      cases h
      exact ⟨target, ⟨hfits, rfl⟩, rfl⟩
  · rintro pos a stop ⟨hfits, rfl⟩
    rw [seek_ok hfits]

theorem spans_take (n : Nat) :
    Spans id data order (take n) fun pos bytes stop =>
      Holds data pos (octets bytes) ∧ bytes.size = n ∧ stop = pos + n := by
  apply spans_of_cursor
  · intro pos bytes d h
    rcases Nat.lt_or_ge data.size (pos + n) with hcut | hfits
    · unfold take Cursor.size at h
      rw [if_pos hcut] at h
      cases h
    · obtain ⟨found, hfound, hlength⟩ := Holds.of_fits hfits
      rw [take_ok (c := ⟨data, pos, order⟩) hfound hlength] at h
      cases h
      refine ⟨pos + n, ⟨?_, ?_, rfl⟩, rfl⟩
      · rwa [octets_toByteArray]
      · rw [← length_octets, octets_toByteArray, hlength]
  · rintro pos bytes stop ⟨hbytes, rfl, rfl⟩
    have hextract := hbytes.extract rfl
    rw [length_octets] at hextract
    have hfits := hbytes.fits
    rw [length_octets] at hfits
    rw [take_fits hfits, Cursor.peek, hextract, toByteArray_octets]

theorem spans_bytes (n : Nat) :
    Spans id data order (Decode.bytes n) fun pos bytes stop =>
      Holds data pos (octets bytes) ∧ bytes.size = n ∧ stop = pos + n := by
  refine (spans_bind (spans_require n) fun _ => spans_take n).congr fun pos bytes stop => ?_
  constructor
  · rintro ⟨_, _, ⟨-, rfl⟩, hbytes⟩
    exact hbytes
  · intro h
    have hfits := h.1.fits
    rw [length_octets, h.2.1] at hfits
    exact ⟨(), pos, ⟨by omega, rfl⟩, h⟩

theorem spans_word (width : Nat) :
    Spans id data order (word width) fun pos n stop =>
      Holds data pos (order.bytes width n) ∧ n < ByteOrder.span width ∧ stop = pos + width := by
  apply spans_of_cursor
  · intro pos n d h
    rcases Nat.lt_or_ge data.size (pos + width) with hcut | hfits
    · have htake : take width ⟨data, pos, order⟩ =
          .error (.shortWord width pos) ⟨data, pos, order⟩ := by
        unfold take Cursor.size
        rw [if_pos hcut]
      unfold word at h
      rw [bind_error htake] at h
      cases h
    · obtain ⟨found, hfound, hlength⟩ := Holds.of_fits hfits
      have hvalue := order.value_lt found
      rw [hlength] at hvalue
      rw [← order.bytes_value hlength] at hfound
      rw [word_ok (c := ⟨data, pos, order⟩) hfound, Nat.mod_eq_of_lt hvalue] at h
      cases h
      exact ⟨pos + width, ⟨hfound, hvalue, rfl⟩, rfl⟩
  · rintro pos n stop ⟨hword, hlt, rfl⟩
    rw [word_ok (c := ⟨data, pos, order⟩) hword, Nat.mod_eq_of_lt hlt]

theorem spans_u8 :
    Spans id data order u8 fun pos n stop =>
      Holds data pos (order.bytes 1 n.toNat) ∧ stop = pos + 1 := by
  refine (spans_bind (spans_word 1) fun _ => spans_pure _).congr fun pos n stop => ?_
  constructor
  · rintro ⟨word, _, ⟨hword, hlt, rfl⟩, rfl, rfl⟩
    have hn : (UInt8.ofNat word).toNat = word := UInt8.toNat_ofNat_of_lt hlt
    exact ⟨by rwa [hn], rfl⟩
  · rintro ⟨hword, rfl⟩
    exact ⟨n.toNat, pos + 1, ⟨hword, n.toNat_lt, rfl⟩, UInt8.ofNat_toNat.symm, rfl⟩

theorem spans_u32 :
    Spans id data order u32 fun pos n stop =>
      Holds data pos (order.bytes 4 n.toNat) ∧ stop = pos + 4 := by
  refine (spans_bind (spans_word 4) fun _ => spans_pure _).congr fun pos n stop => ?_
  constructor
  · rintro ⟨word, _, ⟨hword, hlt, rfl⟩, rfl, rfl⟩
    have hn : (UInt32.ofNat word).toNat = word := UInt32.toNat_ofNat_of_lt hlt
    exact ⟨by rwa [hn], rfl⟩
  · rintro ⟨hword, rfl⟩
    exact ⟨n.toNat, pos + 4, ⟨hword, n.toNat_lt, rfl⟩, UInt32.ofNat_toNat.symm, rfl⟩

theorem spans_tag :
    Spans id data order tag fun pos tag stop =>
      Holds data pos (tag.written order) ∧ stop = pos + 4 := by
  refine (spans_bind (spans_require 4) fun _ => spans_bind spans_u32 fun _ =>
    spans_pure _).congr fun pos tag stop => ?_
  constructor
  · rintro ⟨_, _, ⟨-, rfl⟩, code, _, ⟨hcode, rfl⟩, rfl, rfl⟩
    exact ⟨hcode, rfl⟩
  · rintro ⟨htag, rfl⟩
    have hfits := htag.fits
    rw [Tag.length_written] at hfits
    exact ⟨(), pos, ⟨by omega, rfl⟩, tag.code, pos + 4, ⟨htag, rfl⟩, rfl, rfl⟩

theorem spans_through (test : UInt8 → Bool) :
    Spans id data order (through test) fun pos bytes stop => ∃ front last,
      Holds data pos (front ++ [last]) ∧ (∀ byte ∈ front, test byte = false) ∧
      test last = true ∧ bytes = (front ++ [last]).toByteArray ∧
      stop = pos + (front ++ [last]).length := by
  apply spans_of_cursor
  · intro pos bytes d h
    rcases Nat.lt_or_ge (scanFrom data test pos) data.size with hfound | hnone
    · obtain ⟨front, last, hholds, hfront, hlast⟩ := exists_of_scanFrom_lt hfound
      rw [through_ok hholds hfront hlast] at h
      cases h
      exact ⟨_, ⟨front, last, hholds, hfront, hlast, rfl, rfl⟩, rfl⟩
    · unfold through Cursor.size at h
      dsimp only at h
      rw [if_neg (by omega)] at h
      cases h
  · rintro pos bytes stop ⟨front, last, hholds, hfront, hlast, rfl, rfl⟩
    exact through_ok hholds hfront hlast

end Decode

def VarintAt (data : ByteArray) (pos : Nat) (n : UInt32) (stop : Nat) : Prop :=
  ∃ front last, Holds data pos (front ++ [last]) ∧ (∀ byte ∈ front, 0x80 ≤ byte) ∧ last < 0x80 ∧
    Decode.groupValue (front ++ [last]) = n ∧ stop = pos + (front ++ [last]).length

def CountedAt (data : ByteArray) (pos : Nat) (text : String) (stop : Nat) : Prop :=
  ∃ bytes, bytes.length < 256 ∧ Holds data pos (UInt8.ofNat bytes.length :: bytes) ∧
    Latin1.decode bytes = text ∧ stop = pos + (bytes.length + 1)

namespace Decode

variable {data : ByteArray} {order : ByteOrder}

theorem spans_varint : Spans id data order varint (VarintAt data) := by
  refine (spans_bind (spans_through _) fun _ => spans_pure _).congr fun pos n stop => ?_
  simp only [decide_eq_false_iff_not, decide_eq_true_iff, UInt8.not_lt]
  constructor
  · rintro ⟨_, _, ⟨front, last, hholds, hfront, hlast, rfl, rfl⟩, rfl, rfl⟩
    exact ⟨front, last, hholds, hfront, hlast, by rw [octets_toByteArray], rfl⟩
  · rintro ⟨front, last, hholds, hfront, hlast, rfl, rfl⟩
    exact ⟨_, _, ⟨front, last, hholds, hfront, hlast, rfl, rfl⟩, by rw [octets_toByteArray], rfl⟩

theorem spans_counted : Spans id data order counted (CountedAt data) := by
  refine (spans_bind (spans_require 1) fun _ => spans_bind spans_u8 fun _ =>
    spans_bind (spans_bytes _) fun _ => spans_pure _).congr fun pos text stop => ?_
  simp only [ByteOrder.bytes_one]
  constructor
  · rintro ⟨_, _, ⟨-, rfl⟩, n, _, ⟨hn, rfl⟩, raw, _, ⟨hraw, hsize, rfl⟩, rfl, rfl⟩
    refine ⟨octets raw, ?_, ?_, rfl, ?_⟩
    · rw [length_octets, hsize]
      exact n.toNat_lt
    · rw [length_octets, hsize]
      exact hn.append hraw rfl
    · rw [length_octets, hsize]
      omega
  · rintro ⟨bytes, hlt, hholds, rfl, rfl⟩
    have hfits := hholds.fits
    rw [List.length_cons] at hfits
    have hn : (UInt8.ofNat bytes.length).toNat = bytes.length := UInt8.toNat_ofNat_of_lt hlt
    have hsplit : Holds data pos ([UInt8.ofNat bytes.length] ++ bytes) := hholds
    refine ⟨(), pos, ⟨by omega, rfl⟩, UInt8.ofNat bytes.length, pos + 1, ⟨?_, rfl⟩,
      bytes.toByteArray, pos + 1 + bytes.length, ⟨?_, ?_, ?_⟩, ?_, ?_⟩
    · rw [hn]
      exact hsplit.append_left
    · rw [octets_toByteArray]
      exact hsplit.append_right
    · rw [← length_octets, octets_toByteArray, hn]
    · rw [hn]
    · rw [octets_toByteArray]
    · omega

theorem spans_inflated (n : Nat) :
    Spans id data order (inflated n) fun pos table stop => ∃ stream,
      Holds data pos stream ∧ stream.length = n ∧ Inflates stream (octets table) ∧
      stop = pos + n := by
  have hread : Spans id data order (inflated n) fun pos table stop => ∃ bytes middle,
      (Holds data pos (octets bytes) ∧ bytes.size = n ∧ middle = pos + n) ∧
      Inflate.inflate bytes = .ok table ∧ stop = middle := by
    refine spans_bind (spans_bytes n) fun bytes => ?_
    cases Inflate.inflate bytes with
    | ok table => exact (spans_pure table).congr fun pos a stop => by simp [eq_comm]
    | error e => exact (spans_throw e).congr fun pos a stop => by simp
  refine hread.congr fun pos table stop => ?_
  constructor
  · rintro ⟨bytes, _, ⟨hbytes, hsize, rfl⟩, hinflate, rfl⟩
    refine ⟨octets bytes, hbytes, by rw [length_octets, hsize], ?_, rfl⟩
    rwa [Inflates, toByteArray_octets, toByteArray_octets]
  · rintro ⟨stream, hstream, hlength, hinflates, rfl⟩
    rw [Inflates, toByteArray_octets] at hinflates
    refine ⟨stream.toByteArray, pos + n, ⟨?_, ?_, rfl⟩, hinflates, rfl⟩
    · rwa [octets_toByteArray]
    · rw [← length_octets, octets_toByteArray, hlength]

end Decode

section

variable {ε α : Type} {data : ByteArray} {order : ByteOrder} {layout : Nat → α → Nat → Prop}

theorem Step.spans_readOr {failure : ReadError → ε} {read : Decode α}
    (h : Spans id data order read layout) :
    Spans Session.cursor data order (readOr failure read) layout where
  of_ok {s t pos a} hs hstep := by
    cases hread : read s.cursor with
    | error e d =>
      rw [readOr_error hread] at hstep
      cases hstep
    | ok b d =>
      rw [readOr_ok hread] at hstep
      cases hstep
      exact h.of_ok hs hread
  to_ok hs hlayout := by
    obtain ⟨d, hread, hd⟩ := h.to_ok hs hlayout
    exact ⟨_, readOr_ok hread, hd⟩

theorem Archive.spans_inSession {step : Step Halt α}
    (h : Spans Session.cursor data order step layout) :
    Spans (fun o : Opening => o.session.cursor) data order (inSession step) layout where
  of_ok {o p pos a} ho hstep := by
    unfold inSession at hstep
    split at hstep
    next hok =>
      cases hstep
      exact h.of_ok ho hok
    next => cases hstep
  to_ok {o pos a stop} ho hlayout := by
    obtain ⟨t, hok, ht⟩ := h.to_ok ho hlayout
    exact ⟨_, inSession_ok hok, ht⟩

end
end Shockwave
