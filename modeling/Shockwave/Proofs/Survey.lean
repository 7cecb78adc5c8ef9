import Shockwave.Map.Classic
import Shockwave.Proofs.Quiet

/-!
What the reading of a classic map finds, as a function of the stream alone. The walk over the chunks
and the search for a memory map are carried out in a session, but nothing that was registered or
noted before bears on their result.
-/
namespace Shockwave

namespace ChunkHead

def at? (data : ByteArray) (order : ByteOrder) (pos : Nat) : Option ChunkHead :=
  if pos + 8 ≤ data.size then some (parse data order pos) else none

def under? (data : ByteArray) (order : ByteOrder) (tag : Tag) (pos : Nat) : Option ChunkHead :=
  (at? data order pos).filter (·.tag == tag)

def firstUnder? (data : ByteArray) (order : ByteOrder) (tag : Tag) (candidates : List Nat) :
    Option ChunkHead :=
  candidates.findSome? (under? data order tag)

def cursor (head : ChunkHead) (data : ByteArray) (order : ByteOrder) : Cursor :=
  { data, pos := head.body, order }

section

variable {data : ByteArray} {order : ByteOrder} {tag : Tag} {pos : Nat} {head : ChunkHead}

theorem under?_of_cut (h : at? data order pos = none) : under? data order tag pos = none := by
  rw [under?, h]
  rfl

theorem under?_of_eq (h : at? data order pos = some head) (htag : head.tag = tag) :
    under? data order tag pos = some head := by
  rw [under?, h]
  exact Option.filter_some_pos (by simpa using htag)

theorem under?_of_ne (h : at? data order pos = some head) (htag : head.tag ≠ tag) :
    under? data order tag pos = none := by
  rw [under?, h]
  exact Option.filter_some_neg (by simpa using htag)

theorem firstUnder?_of_some (h : under? data order tag pos = some head) (rest : List Nat) :
    firstUnder? data order tag (pos :: rest) = some head := by
  rw [firstUnder?, List.findSome?_cons, h]

theorem firstUnder?_of_none (h : under? data order tag pos = none) (rest : List Nat) :
    firstUnder? data order tag (pos :: rest) = firstUnder? data order tag rest := by
  rw [firstUnder?, List.findSome?_cons, h]
  rfl

end

theorem moves_read : Decode.Moves read :=
  Decode.moves_bind Decode.moves_tag fun _ => Decode.moves_bind (Decode.moves_require 4) fun _ =>
    Decode.moves_bind Decode.moves_u32 fun _ => Decode.moves_pure _

theorem u32_at {c : Cursor} (h : c.pos + 4 ≤ c.data.size) :
    Decode.u32 c =
      .ok (UInt32.ofNat (c.order.value (octets (c.data.extract c.pos (c.pos + 4)))))
        { c with pos := c.pos + 4 } := by
  have hword : Decode.word 4 c =
      .ok (c.order.value (octets (c.peek 4))) { c with pos := c.pos + 4 } := by
    unfold Decode.word
    rw [bind_ok (Decode.take_fits h), get_bind]
    rfl
  unfold Decode.u32
  rw [bind_ok hword]
  rfl

theorem value_extract_lt (data : ByteArray) (order : ByteOrder) (pos : Nat) :
    order.value (octets (data.extract pos (pos + 4))) < 0x100000000 := by
  have hlength : (octets (data.extract pos (pos + 4))).length ≤ 4 := by
    rw [octets_extract, List.length_take]
    omega
  calc order.value (octets (data.extract pos (pos + 4)))
      < ByteOrder.span (octets (data.extract pos (pos + 4))).length := order.value_lt _
    _ ≤ ByteOrder.span 4 := ByteOrder.span_le_span hlength
    _ = 0x100000000 := by decide

theorem tag_eq {c : Cursor} (h : c.pos + 4 ≤ c.data.size) :
    Decode.tag c = .ok (parse c.data c.order c.pos).tag { c with pos := c.pos + 4 } := by
  unfold Decode.tag
  rw [bind_ok (Decode.require_ok h), bind_ok (u32_at h)]
  rfl

theorem read_eq {c : Cursor} (h : c.pos + 8 ≤ c.data.size) :
    read c =
      .ok ((parse c.data c.order c.pos).tag, (parse c.data c.order c.pos).length)
        { c with pos := c.pos + 8 } := by
  have hlength := value_extract_lt c.data c.order (c.pos + 4)
  unfold read
  rw [bind_ok (tag_eq (by omega)), bind_ok (Decode.require_ok (by dsimp only; omega)),
    bind_ok (u32_at (by dsimp only; omega))]
  simp only [pure, EStateM.pure, parse, UInt32.toNat_ofNat', Nat.mod_eq_of_lt hlength]

theorem read_error {c : Cursor} (h : c.data.size < c.pos + 8) : ∃ e d, read c = .error e d := by
  by_cases htag : c.data.size < c.pos + 4
  · have hrequire : Decode.require 4 c = _ := Decode.require_error (by omega)
    exact ⟨_, c, bind_error (bind_error hrequire)⟩
  · have hread : Decode.tag c = .ok (parse c.data c.order c.pos).tag { c with pos := c.pos + 4 } :=
      tag_eq (by omega)
    have hrequire : Decode.require 4 { c with pos := c.pos + 4 } = _ :=
      Decode.require_error (by dsimp only; omega)
    unfold read
    rw [bind_ok hread]
    exact ⟨_, _, bind_error hrequire⟩

theorem seek_read_eq {c : Cursor} {pos : Nat} {head : ChunkHead}
    (h : at? c.data c.order pos = some head) :
    (do Decode.seek pos; read) c =
      .ok (head.tag, head.length) (head.cursor c.data c.order) := by
  unfold at? at h
  split at h
  next hfits =>
    cases h
    rw [bind_ok (Decode.seek_ok (by omega))]
    exact read_eq (c := { c with pos }) hfits
  next => contradiction

theorem seek_read_error {c : Cursor} {pos : Nat} (h : at? c.data c.order pos = none) :
    ∃ e, Decode.outcome (do Decode.seek pos; read) c = .error e := by
  unfold at? at h
  split at h
  next => contradiction
  next hcut =>
    by_cases hseek : pos ≤ c.data.size
    · obtain ⟨e, d, hread⟩ := read_error (c := { c with pos }) (by dsimp only; omega)
      refine ⟨e, ?_⟩
      unfold Decode.outcome
      rw [bind_ok (Decode.seek_ok hseek), hread]
    · refine ⟨.outOfRange 0 pos c.size, ?_⟩
      unfold Decode.outcome
      rw [bind_error (Decode.seek_error (by omega))]

theorem moves_seek_read (pos : Nat) : Decode.Moves (do Decode.seek pos; read) :=
  Decode.moves_bind (Decode.moves_seek pos) fun _ => moves_read

end ChunkHead

theorem InitialMap.moves_read : Decode.Moves InitialMap.read :=
  Decode.moves_bind (Decode.moves_require 16) fun _ => Decode.moves_bind Decode.moves_u32 fun _ =>
    Decode.moves_bind Decode.moves_u32 fun _ => Decode.moves_bind Decode.moves_u32 fun _ =>
    Decode.moves_bind Decode.moves_u32 fun _ => Decode.moves_pure _

namespace MemoryMap

theorem moves_rows (stop entrySize index count : Nat) :
    Decode.Moves (rows stop entrySize index count) := by
  induction count generalizing index with
  | zero => exact Decode.moves_pure _
  | succ count ih =>
    unfold rows
    refine Decode.moves_bind Decode.moves_pos fun _ => ?_
    refine Decode.moves_ite (Decode.moves_pure _) ?_
    refine Decode.moves_bind Decode.moves_get fun _ => ?_
    refine Decode.moves_bind (Decode.moves_bytes entrySize) fun _ => ?_
    exact Decode.moves_bind (ih (index + 1)) fun _ => Decode.moves_pure _

theorem moves_optionalField (stop : Nat) : Decode.Moves (optionalField stop) := by
  unfold optionalField
  refine Decode.moves_bind Decode.moves_pos fun _ => Decode.moves_ite ?_ (Decode.moves_pure _)
  exact Decode.moves_bind Decode.moves_u32 fun _ => Decode.moves_pure _

theorem moves_read (length : Nat) : Decode.Moves (read length) := by
  unfold read
  refine Decode.moves_bind Decode.moves_pos fun _ => ?_
  refine Decode.moves_bind Decode.moves_get fun _ => ?_
  refine Decode.moves_bind (Decode.moves_require _) fun _ => ?_
  refine Decode.moves_bind Decode.moves_u16 fun _ => ?_
  refine Decode.moves_bind Decode.moves_u16 fun _ => ?_
  refine Decode.moves_bind Decode.moves_u32 fun _ => ?_
  refine Decode.moves_bind Decode.moves_u32 fun _ => ?_
  refine Decode.moves_ite (Decode.moves_bind (Decode.moves_throw _) fun _ => ?_) ?_
  all_goals
    refine Decode.moves_bind (moves_optionalField _) fun _ => ?_
    refine Decode.moves_bind (moves_optionalField _) fun _ => ?_
    refine Decode.moves_bind (moves_optionalField _) fun _ => ?_
    refine Decode.moves_bind (Decode.moves_seek _) fun _ => ?_
    exact Decode.moves_bind (moves_rows _ _ _ _) fun _ => Decode.moves_pure _

end MemoryMap

namespace KeyTable

theorem moves_rows (stop rowSize count : Nat) : Decode.Moves (rows stop rowSize count) := by
  induction count with
  | zero => exact Decode.moves_pure _
  | succ count ih =>
    unfold rows
    refine Decode.moves_bind Decode.moves_pos fun _ => ?_
    refine Decode.moves_ite (Decode.moves_pure _) ?_
    refine Decode.moves_bind Decode.moves_i32 fun _ => ?_
    refine Decode.moves_bind Decode.moves_i32 fun _ => ?_
    refine Decode.moves_bind Decode.moves_tag fun _ => ?_
    refine Decode.moves_bind (Decode.moves_seek _) fun _ => ?_
    exact Decode.moves_bind ih fun _ => Decode.moves_pure _

theorem moves_read (length : Nat) : Decode.Moves (read length) := by
  unfold read
  refine Decode.moves_bind Decode.moves_pos fun _ => ?_
  refine Decode.moves_bind Decode.moves_get fun _ => ?_
  refine Decode.moves_bind (Decode.moves_require _) fun _ => ?_
  refine Decode.moves_bind Decode.moves_u16 fun _ => ?_
  refine Decode.moves_bind Decode.moves_u16 fun _ => ?_
  refine Decode.moves_bind Decode.moves_u32 fun _ => ?_
  refine Decode.moves_bind Decode.moves_u32 fun _ => ?_
  exact Decode.moves_bind (moves_rows _ _ _) fun _ => Decode.moves_pure _

end KeyTable

namespace ClassicMap

variable {ε : Type} {s : Session}

def survey (data : ByteArray) (order : ByteOrder) : List ChunkHead → ClassicMap → ClassicMap
  | [], map => map
  | head :: rest, map =>
    if head.tag = .imap then
      match Decode.outcome InitialMap.read (head.cursor data order) with
      | .ok initial => survey data order rest { map with initial := some initial }
      | .error _ => map
    else if head.tag = .mmap then
      match Decode.outcome (MemoryMap.read head.length) (head.cursor data order) with
      | .ok memory => survey data order rest { map with memory := some memory }
      | .error _ => map
    else if head.tag = .keys then
      match Decode.outcome (KeyTable.read head.length) (head.cursor data order) with
      | .ok keys => survey data order rest { map with keys := some keys }
      | .error _ => survey data order rest map
    else survey data order rest map

section

variable {data : ByteArray} {order : ByteOrder} {head : ChunkHead} {rest : List ChunkHead}
  {map : ClassicMap}

theorem survey_imap {initial : InitialMap} (htag : head.tag = .imap)
    (hread : Decode.outcome InitialMap.read (head.cursor data order) = .ok initial) :
    survey data order (head :: rest) map =
      survey data order rest { map with initial := some initial } := by
  rw [survey, if_pos htag, hread]

theorem survey_mmap {memory : MemoryMap} (htag : head.tag = .mmap)
    (hread : Decode.outcome (MemoryMap.read head.length) (head.cursor data order) = .ok memory) :
    survey data order (head :: rest) map =
      survey data order rest { map with memory := some memory } := by
  rw [survey, htag, if_neg (by decide), if_pos rfl, hread]

theorem survey_keys {keys : KeyTable} (htag : head.tag = .keys)
    (hread : Decode.outcome (KeyTable.read head.length) (head.cursor data order) = .ok keys) :
    survey data order (head :: rest) map =
      survey data order rest { map with keys := some keys } := by
  rw [survey, htag, if_neg (by decide), if_neg (by decide), if_pos rfl, hread]

theorem survey_other (himap : head.tag ≠ .imap) (hmmap : head.tag ≠ .mmap)
    (hkeys : head.tag ≠ .keys) :
    survey data order (head :: rest) map = survey data order rest map := by
  rw [survey, if_neg himap, if_neg hmmap, if_neg hkeys]

end

theorem yields_walk (heads : List ChunkHead) (map : ClassicMap) (s : Session) :
    Step.Yields (walk heads map : Step ε _) s
      (survey s.cursor.data s.cursor.order heads map) := by
  induction heads generalizing map s with
  | nil => exact Step.yields_pure map
  | cons head rest ih =>
    let u : Session := { s with cursor := head.cursor s.cursor.data s.cursor.order }
    have hu : s.Keeps u := ⟨head.body, s.notes, rfl⟩
    -- what is left of the walk, after any quiet steps
    have hrest (map' : ClassicMap) {t v : Session} (ht : u.Keeps t) (hv : t.Keeps v) :
        Step.Yields (walk rest map' : Step ε _) v
          (survey s.cursor.data s.cursor.order rest map') := by
      obtain ⟨pos, notes, rfl⟩ := (hu.trans ht).trans hv
      exact ih map' _
    unfold walk survey
    refine Step.yields_of_ok (t := u) (Step.attempt_ok rfl) hu ?_
    by_cases himap : head.tag = .imap
    · rw [if_pos himap, if_pos himap]
      refine Step.yields_bind (Step.yields_attempt InitialMap.moves_read) fun t ht => ?_
      cases Decode.outcome InitialMap.read (head.cursor s.cursor.data s.cursor.order) with
      | ok initial => exact Step.yields_bind (Step.yields_note _) fun v hv => hrest _ ht hv
      | error e => exact Step.yields_bind (Step.yields_note _) fun v hv => Step.yields_pure map
    rw [if_neg himap, if_neg himap]
    by_cases hmmap : head.tag = .mmap
    · rw [if_pos hmmap, if_pos hmmap]
      refine Step.yields_bind (Step.yields_attempt (MemoryMap.moves_read _)) fun t ht => ?_
      cases Decode.outcome (MemoryMap.read head.length)
        (head.cursor s.cursor.data s.cursor.order) with
      | ok memory => exact Step.yields_bind (Step.yields_noteAll _) fun v hv => hrest _ ht hv
      | error e => exact Step.yields_bind (Step.yields_note _) fun v hv => Step.yields_pure map
    rw [if_neg hmmap, if_neg hmmap]
    by_cases hkeys : head.tag = .keys
    · rw [if_pos hkeys, if_pos hkeys]
      refine Step.yields_bind (Step.yields_attempt (KeyTable.moves_read _)) fun t ht => ?_
      cases Decode.outcome (KeyTable.read head.length)
        (head.cursor s.cursor.data s.cursor.order) with
      | ok keys => exact Step.yields_bind (Step.yields_noteAll _) fun v hv => hrest _ ht hv
      | error e => exact Step.yields_bind (Step.yields_note _) fun v hv => hrest _ ht hv
    rw [if_neg hkeys, if_neg hkeys]
    exact hrest map (.refl u) (.refl u)

def probe (data : ByteArray) (order : ByteOrder) (candidates : List Nat) : Option MemoryMap :=
  (ChunkHead.firstUnder? data order .mmap candidates).bind fun head =>
    (Decode.outcome (MemoryMap.read head.length) (head.cursor data order)).toOption

theorem yields_memoryAmong (offset : Nat) (candidates : List Nat) (s : Session) :
    Step.Yields (memoryAmong offset candidates : Step ε _) s
      (probe s.cursor.data s.cursor.order candidates) := by
  induction candidates generalizing s with
  | nil => exact Step.yields_bind (Step.yields_note _) fun t ht => Step.yields_pure none
  | cons candidate rest ih =>
    have hrest {t : Session} (ht : s.Keeps t) :
        Step.Yields (memoryAmong offset rest : Step ε _) t
          (probe s.cursor.data s.cursor.order rest) := by
      obtain ⟨pos, notes, rfl⟩ := ht
      exact ih _
    unfold memoryAmong probe
    cases hat : ChunkHead.at? s.cursor.data s.cursor.order candidate with
    | none =>
      rw [ChunkHead.firstUnder?_of_none (ChunkHead.under?_of_cut hat)]
      obtain ⟨e, he⟩ := ChunkHead.seek_read_error (c := s.cursor) hat
      have hattempt := Step.yields_attempt (ε := ε) (s := s) (ChunkHead.moves_seek_read candidate)
      rw [he] at hattempt
      exact Step.yields_bind hattempt fun t ht => hrest ht
    | some head =>
      have hkeeps : s.Keeps { s with cursor := head.cursor s.cursor.data s.cursor.order } :=
        ⟨head.body, s.notes, rfl⟩
      refine Step.yields_of_ok (Step.attempt_ok (ChunkHead.seek_read_eq hat)) hkeeps ?_
      by_cases htag : head.tag = .mmap
      · rw [ChunkHead.firstUnder?_of_some (ChunkHead.under?_of_eq hat htag), Option.bind_some]
        dsimp only
        rw [if_pos htag]
        refine Step.yields_of_ok rfl ⟨head.body, _, rfl⟩ ?_
        refine Step.yields_bind (Step.yields_attempt (MemoryMap.moves_read _)) fun t ht => ?_
        cases Decode.outcome (MemoryMap.read head.length)
          (head.cursor s.cursor.data s.cursor.order) with
        | ok memory =>
          exact Step.yields_bind (Step.yields_noteAll _) fun u hu => Step.yields_pure _
        | error e => exact Step.yields_pure none
      · rw [ChunkHead.firstUnder?_of_none (ChunkHead.under?_of_ne hat htag)]
        dsimp only
        rw [if_neg htag]
        exact hrest hkeeps

/-- The memory map that a walk met, or else the first one at a position that its initial map may
mean. -/
def memoryFound (data : ByteArray) (order : ByteOrder) (offset start : Nat) (walked : ClassicMap) :
    Option MemoryMap :=
  match walked.memory, walked.initial with
  | none, some initial =>
    let place := initial.mapOffset.toNat
    probe data order [place, further offset place, further start place].eraseDups
  | memory, _ => memory

theorem yields_memoryOf (walked : ClassicMap) (start : Nat) (s : Session) :
    Step.Yields (walked.memoryOf start : Step ε _) s
      (walked.memoryFound s.cursor.data s.cursor.order s.offset start) := by
  unfold memoryOf memoryFound
  cases walked.memory with
  | some memory => exact Step.yields_pure _
  | none =>
    cases walked.initial with
    | none => exact Step.yields_pure _
    | some initial =>
      refine Step.yields_of_ok rfl (.refl s) (Step.yields_restoring ?_)
      exact yields_memoryAmong _ _ s

def found (data : ByteArray) (order : ByteOrder) (offset : Nat) (block : Block) : ClassicMap :=
  let walked := survey data order (chunkChain data order (min block.stop data.size) block.start) {}
  { walked with memory := walked.memoryFound data order offset block.start }

def rows (map : ClassicMap) : List Entry := map.memory.elim [] (·.entries)

def links (map : ClassicMap) : List Link := map.keys.elim [] (·.links)

def registered (map : ClassicMap) (resources : Container) : Container :=
  map.links.foldl Container.link (map.rows.foldl Container.insert resources)

theorem registerAll_eq (entries : List Entry) (s : Session) :
    ∃ t, (Step.registerAll entries : Step ε Unit) s = .ok () t ∧
      Session.Keeps { s with resources := entries.foldl Container.insert s.resources } t := by
  induction entries generalizing s with
  | nil => exact ⟨s, rfl, .refl s⟩
  | cons e rest ih =>
    let u : Session := { s with
      resources := s.resources.insert e, notes := s.notes ++ s.resources.insertNotes e }
    have hregister : (Step.register e : Step ε Unit) s = .ok () u := rfl
    obtain ⟨t, ht, pos, notes, hkeeps⟩ := ih u
    refine ⟨t, ?_, pos, notes, hkeeps⟩
    rw [Step.registerAll, bind_ok hregister, ht]

theorem yields_readTables (block : Block) (s : Session) :
    Step.Yields (readTables block : Step ε _) s
      (found s.cursor.data s.cursor.order s.offset block) := by
  refine Step.yields_of_ok rfl (.refl s) ?_
  refine Step.yields_bind (yields_walk _ _ s) fun t ht => ?_
  obtain ⟨pos, notes, rfl⟩ := ht
  exact Step.yields_bind (yields_memoryOf _ block.start _) fun _ _ => Step.yields_pure _

/-- Reading the map of a block registers what is found there, and nothing else is changed. -/
theorem read_eq (block : Block) (s : Session) :
    let map := found s.cursor.data s.cursor.order s.offset block
    ∃ t, (read block : Step ε _) s =
        .ok (map, { block with format := map.versions block.format }) t ∧
      Session.Keeps { s with resources := map.registered s.resources } t := by
  intro map
  obtain ⟨t, htables, pos, notes, rfl⟩ := yields_readTables (ε := ε) block s
  obtain ⟨u, hregister, pos', notes', rfl⟩ := registerAll_eq (ε := ε) map.rows
    { s with cursor := { s.cursor with pos }, notes }
  refine ⟨_, ?_, pos', notes', rfl⟩
  unfold read
  rw [bind_ok htables]
  exact bind_ok hregister

end ClassicMap
end Shockwave
