import Shockwave.Proofs.RoundTrip

/-!
Loading from a movie that lies behind other bytes. The offset of a row is first taken from the start
of the stream, and a chunk head under the row's tag is all that is asked for there, so such a head
decides what is loaded.
-/
namespace Shockwave
namespace ClassicMovie

variable (m : ClassicMovie)

/-- The stray head that the row of an id leads to. -/
def strayFor? (data : ByteArray) (id : Int32) : Option ChunkHead :=
  (m.entries.find? (·.id == id)).bind (strayHead? data m.order)

theorem loadId_against {ε : Type} {data whole : ByteArray} {pos : Nat} {s u : Session}
    (h : Holds data pos m.bytes) (hsize : data.size < 0x10000000000000000)
    (hs : m.Registered data pos s) (hwhole : Holds whole 0 m.bytes)
    (hu : m.Registered whole 0 u) (id : Int32) :
    ∃ own s' u', (Payload.loadId id : Step ε _) u = .ok own u' ∧
      (Payload.loadId id : Step ε _) s =
        .ok (((m.strayFor? data id).map (·.body? data)).getD own) s' := by
  obtain ⟨s', hload, -⟩ := hs.yields_loadId (ε := ε) id
  obtain ⟨u', hown, -⟩ := hu.yields_loadId (ε := ε) id
  refine ⟨_, s', u', hown, ?_⟩
  rw [hload, strayFor?]
  cases hfind : m.entries.find? (·.id == id) with
  | none => rfl
  | some e =>
    obtain ⟨c, hleads⟩ := m.exists_leads_of_mem (List.mem_of_find?_eq_some hfind)
    simp only [Option.bind_some]
    rw [hleads.bodyOf_eq h (.inr hsize), hleads.bodyOf_start hwhole]

/-- A movie found behind an even number of bytes loads, under every id, what it loads alone, unless
the row of the id leads to a stray head. Then the body of that head is loaded. -/
theorem loadId_embedded {ε : Type} (pre post : List UInt8) (fileName : String) (options : Options)
    {t : Session} (heven : pre.length % 2 = 0)
    (hsize : (pre ++ m.bytes ++ post).length < 0x10000000000000000)
    (hlocate : locate options.search
      (Session.ofBytes fileName (pre ++ m.bytes ++ post).toByteArray).reset = .ok pre.length t) :
    ∃ movie s alone u,
      Movie.readFrom options (.ofBytes fileName (pre ++ m.bytes ++ post).toByteArray) =
        .ok movie s ∧
      Movie.readFrom options (.ofBytes fileName m.bytes.toByteArray) = .ok alone u ∧
      ∀ id : Int32, ∃ own s' u',
        (Payload.loadId id : Step ε _) u = .ok own u' ∧
        (Payload.loadId id : Step ε _) s =
          .ok (((m.strayFor? (pre ++ m.bytes ++ post).toByteArray id).map
            (·.body? (pre ++ m.bytes ++ post).toByteArray)).getD own) s' := by
  have h := Holds.of_append pre m.bytes post
  have hwhole := Holds.start m.bytes []
  rw [List.append_nil] at hwhole
  have hdata : (pre ++ m.bytes ++ post).toByteArray.size < 0x10000000000000000 := by
    rwa [← length_octets, octets_toByteArray]
  generalize (pre ++ m.bytes ++ post).toByteArray = data at h hdata hlocate
  generalize m.bytes.toByteArray = whole at hwhole
  have hstart := m.locate_start (s := (Session.ofBytes fileName whole).reset) hwhole options.search
  obtain ⟨movie, s, hread, hs, -⟩ :=
    m.readFrom_eq (s := Session.ofBytes fileName data) h heven hlocate
  obtain ⟨alone, u, halone, hu, -⟩ :=
    m.readFrom_eq (s := Session.ofBytes fileName whole) hwhole rfl hstart
  exact ⟨movie, s, alone, u, hread, halone, m.loadId_against h hdata hs hwhole hu⟩

end ClassicMovie

def shortStub : List UInt8 := [0x50, 0x4a, 0x30, 0x31, 12, 0, 0, 0, 0, 0, 0, 0]

/-- A movie with two chunks of one tag, as far apart as the stub is long. -/
def twoCasts : ClassicMovie where
  order := .big
  codec := ⟨0x4d563933⟩
  mapVersion := 1
  archiveVersion := 0x4c7
  resources := [⟨⟨0x43415374⟩, [1, 2, 3, 4]⟩, ⟨⟨0x43415374⟩, [5, 6, 7, 8]⟩]
  links := []
  not_archive := mv93_not_archive
  plain := by decide
  fits := by decide

theorem locate_shortStub (m : ClassicMovie) (post : List UInt8) (fileName : String)
    (search : Bool) :
    ∃ t, locate search (Session.ofBytes fileName (shortStub ++ m.bytes ++ post).toByteArray).reset =
      .ok shortStub.length t := by
  have h := Holds.of_append shortStub m.bytes post
  have hstub : Holds (shortStub ++ m.bytes ++ post).toByteArray 0
      ([0x50, 0x4a, 0x30, 0x31] ++ ByteOrder.little.bytes 4 shortStub.length) := by
    have hwhole := Holds.start shortStub (m.bytes ++ post)
    rw [← List.append_assoc] at hwhole
    exact hwhole.append_left
  have hfits := h.fits
  generalize (shortStub ++ m.bytes ++ post).toByteArray = data at h hstub hfits
  have hsize : headerSize ≤ data.size := Nat.le_trans (Nat.le_add_right ..) hfits
  exact locate_of_stub (by decide) hstub (by decide) hsize (ClassicLayout.isMagicAt_of_holds h)
    search

theorem length_shortStub_lt (m : ClassicMovie) :
    (shortStub ++ m.bytes ++ []).length < 0x10000000000000000 := by
  have hfits := m.fits
  simp only [shortStub, List.length_append, ClassicLayout.length_bytes, List.length_cons,
    List.length_nil]
  omega

theorem loadId_embedded_shortStub :
    ∃ t, shortStub.length % 2 = 0 ∧
      (shortStub ++ twoCasts.bytes ++ []).length < 0x10000000000000000 ∧
      locate true (Session.ofBytes "embedded.dir"
        (shortStub ++ twoCasts.bytes ++ []).toByteArray).reset = .ok shortStub.length t ∧
      ∃ movie s alone u,
        Movie.readFrom {} (.ofBytes "embedded.dir"
          (shortStub ++ twoCasts.bytes ++ []).toByteArray) = .ok movie s ∧
        Movie.readFrom {} (.ofBytes "embedded.dir" twoCasts.bytes.toByteArray) = .ok alone u ∧
        ∀ id : Int32, ∃ own s' u',
          (Payload.loadId id : Step Halt _) u = .ok own u' ∧
          (Payload.loadId id : Step Halt _) s =
            .ok (((twoCasts.strayFor? (shortStub ++ twoCasts.bytes ++ []).toByteArray id).map
              (·.body? (shortStub ++ twoCasts.bytes ++ []).toByteArray)).getD own) s' := by
  obtain ⟨t, ht⟩ := locate_shortStub twoCasts [] "embedded.dir" true
  have hsize := length_shortStub_lt twoCasts
  exact ⟨t, by decide, hsize, ht,
    twoCasts.loadId_embedded shortStub [] "embedded.dir" {} (by decide) hsize ht⟩

theorem loadId_twoCasts_misled :
    ∃ t movie s alone u s' u', shortStub.length % 2 = 0 ∧
      locate true (Session.ofBytes "embedded.dir"
        (shortStub ++ twoCasts.bytes).toByteArray).reset = .ok shortStub.length t ∧
      Movie.readFrom {} (.ofBytes "embedded.dir" (shortStub ++ twoCasts.bytes).toByteArray) =
        .ok movie s ∧
      Movie.readFrom {} (.ofBytes "embedded.dir" twoCasts.bytes.toByteArray) = .ok alone u ∧
      (Payload.loadId 1 : Step Halt _) u = .ok (some [5, 6, 7, 8].toByteArray) u' ∧
      (Payload.loadId 1 : Step Halt _) s = .ok (some [1, 2, 3, 4].toByteArray) s' := by
  obtain ⟨t, ht⟩ := locate_shortStub twoCasts [] "embedded.dir" true
  have h := Holds.of_append shortStub twoCasts.bytes []
  have hwhole := Holds.start twoCasts.bytes []
  have hdata : (shortStub ++ twoCasts.bytes ++ []).toByteArray.size < 0x10000000000000000 := by
    rw [← length_octets, octets_toByteArray]
    exact length_shortStub_lt twoCasts
  rw [List.append_nil] at ht h hwhole hdata
  generalize (shortStub ++ twoCasts.bytes).toByteArray = data at ht h hdata
  generalize twoCasts.bytes.toByteArray = whole at hwhole
  have hstart := twoCasts.locate_start (s := (Session.ofBytes "embedded.dir" whole).reset) hwhole
    (Options.search {})
  change locate (Options.search {}) _ = _ at ht
  obtain ⟨movie, s, hread, hs, -⟩ :=
    twoCasts.readFrom_eq (s := Session.ofBytes "embedded.dir" data) h rfl ht
  obtain ⟨alone, u, halone, hu, -⟩ :=
    twoCasts.readFrom_eq (s := Session.ofBytes "embedded.dir" whole) hwhole rfl hstart
  obtain ⟨e, he, hid, hleads⟩ := twoCasts.exists_leads (i := 1) rfl
  obtain ⟨first, hfirst, -, hleads'⟩ := twoCasts.exists_leads (i := 0) rfl
  -- the second row, counted from the start of the stream, leads to the first chunk
  have hoffset : e.offset.toNat = shortStub.length + first.offset.toNat := by
    have hall : ∀ e ∈ twoCasts.entries[1]?, ∀ first ∈ twoCasts.entries[0]?,
        e.offset.toNat = shortStub.length + first.offset.toNat := by decide
    exact hall e he first hfirst
  have hstray := hleads'.holds h
  rw [← hoffset] at hstray
  have hhead := ClassicMovie.strayHead?_eq_some (c := ⟨⟨0x43415374⟩, [1, 2, 3, 4]⟩) hleads.tag_eq
    hstray hleads'.length_lt
  change twoCasts.Registered data shortStub.length s at hs
  change twoCasts.Registered whole 0 u at hu
  change _ = (1 : Int32) at hid
  obtain ⟨u', hown, -⟩ := hu.yields_loadId (ε := Halt) e.id
  obtain ⟨s', hload, -⟩ := hs.yields_loadId (ε := Halt) e.id
  rw [hleads.find?_eq, Option.bind_some, hid] at hown hload
  refine ⟨t, movie, s, alone, u, s', u', rfl, ht, hread, halone, ?_, ?_⟩
  · rw [hown, hleads.bodyOf_start hwhole]
  · rw [hload, hleads.bodyOf_eq h (.inr hdata), hhead, Option.map_some, Option.getD_some,
      ChunkHead.body?_written hstray]

end Shockwave
