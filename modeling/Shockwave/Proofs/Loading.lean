import Shockwave.Cast.Scripts
import Shockwave.Movie.Scopes
import Shockwave.Proofs.Survey

/-!
What loading a resource gives, as a function of the stream, and the steps that are built on it. A
load never fails and never changes what is registered, so neither does the search for scripts and
scopes.
-/
namespace Shockwave

def ChunkHead.body? (head : ChunkHead) (data : ByteArray) : Option ByteArray :=
  if head.body + head.length ≤ data.size then
    some (data.extract head.body (head.body + head.length))
  else none

theorem ChunkHead.outcome_bytes {head : ChunkHead} {data : ByteArray} (order : ByteOrder)
    (h : head.body ≤ data.size) :
    (Decode.outcome (Decode.bytes head.length) (head.cursor data order)).toOption =
      head.body? data := by
  unfold ChunkHead.body? Decode.outcome Decode.bytes
  by_cases hfits : head.body + head.length ≤ data.size
  · rw [if_pos hfits, bind_ok (Decode.require_ok hfits), Decode.take_fits hfits]
    rfl
  · rw [if_neg hfits, bind_error (Decode.require_error (by simp only [ChunkHead.cursor]; omega))]
    rfl

theorem ChunkHead.body_le_of_at? {data : ByteArray} {order : ByteOrder} {pos : Nat}
    {head : ChunkHead} (h : at? data order pos = some head) : head.body ≤ data.size := by
  unfold at? at h
  split at h
  next hfits =>
    cases h
    exact hfits
  next => contradiction

def Cursor.stretch? (c : Cursor) (start width : Nat) : Option ByteArray :=
  if start + width ≤ c.data.size then some (c.data.extract start (start + width)) else none

theorem Decode.outcome_seek_bytes (c : Cursor) (start width : Nat) :
    (Decode.outcome (do Decode.seek start; Decode.bytes width) c).toOption =
      c.stretch? start width := by
  unfold Cursor.stretch? Decode.outcome Decode.bytes
  by_cases hseek : start ≤ c.data.size
  · rw [bind_ok (Decode.seek_ok hseek)]
    by_cases hfits : start + width ≤ c.data.size
    · rw [if_pos hfits, bind_ok (Decode.require_ok hfits), Decode.take_fits hfits]
      rfl
    · rw [if_neg hfits, bind_error (Decode.require_error (by dsimp only; omega))]
      rfl
  · rw [if_neg (by omega), bind_error (Decode.seek_error (by omega))]
    rfl

namespace Payload

variable {ε : Type}

def probe (data : ByteArray) (order : ByteOrder) (tag : Tag) (candidates : List Nat) :
    Option ByteArray :=
  (ChunkHead.firstUnder? data order tag candidates).bind (·.body? data)

theorem seek_require_read_eq {c : Cursor} {pos : Nat} {head : ChunkHead}
    (h : ChunkHead.at? c.data c.order pos = some head) :
    (do Decode.seek pos; Decode.require 8; ChunkHead.read) c =
      .ok (head.tag, head.length) (head.cursor c.data c.order) := by
  rw [← ChunkHead.seek_read_eq h]
  unfold ChunkHead.at? at h
  split at h
  next hfits =>
    rw [bind_ok (Decode.seek_ok (by omega)), bind_ok (Decode.seek_ok (by omega)),
      bind_ok (Decode.require_ok hfits)]
  next => contradiction

theorem seek_require_read_error {c : Cursor} {pos : Nat}
    (h : ChunkHead.at? c.data c.order pos = none) :
    ∃ e, Decode.outcome (do Decode.seek pos; Decode.require 8; ChunkHead.read) c = .error e := by
  unfold ChunkHead.at? at h
  split at h
  next => contradiction
  next hcut =>
    unfold Decode.outcome
    by_cases hseek : pos ≤ c.data.size
    · rw [bind_ok (Decode.seek_ok hseek),
        bind_error (Decode.require_error (by dsimp only; omega))]
      exact ⟨_, rfl⟩
    · rw [bind_error (Decode.seek_error (by omega))]
      exact ⟨_, rfl⟩

theorem moves_seek_require_read (pos : Nat) :
    Decode.Moves (do Decode.seek pos; Decode.require 8; ChunkHead.read) :=
  Decode.moves_bind (Decode.moves_seek pos) fun _ =>
    Decode.moves_bind (Decode.moves_require 8) fun _ => ChunkHead.moves_read

theorem yields_amongChunks (e : Entry) (candidates : List Nat) (s : Session) :
    Step.Yields (amongChunks e candidates : Step ε _) s
      (probe s.cursor.data s.cursor.order e.tag candidates) := by
  induction candidates generalizing s with
  | nil => exact Step.yields_bind (Step.yields_note _) fun t ht => Step.yields_pure none
  | cons candidate rest ih =>
    have hrest {t : Session} (ht : s.Keeps t) :
        Step.Yields (amongChunks e rest : Step ε _) t
          (probe s.cursor.data s.cursor.order e.tag rest) := by
      obtain ⟨pos, notes, rfl⟩ := ht
      exact ih _
    unfold amongChunks probe
    cases hat : ChunkHead.at? s.cursor.data s.cursor.order candidate with
    | none =>
      rw [ChunkHead.firstUnder?_of_none (ChunkHead.under?_of_cut hat)]
      obtain ⟨cause, hcause⟩ := seek_require_read_error (c := s.cursor) hat
      have hattempt := Step.yields_attempt (ε := ε) (s := s) (moves_seek_require_read candidate)
      rw [hcause] at hattempt
      exact Step.yields_bind hattempt fun t ht => hrest ht
    | some head =>
      have hkeeps : s.Keeps { s with cursor := head.cursor s.cursor.data s.cursor.order } :=
        ⟨head.body, s.notes, rfl⟩
      refine Step.yields_of_ok (Step.attempt_ok (seek_require_read_eq hat)) hkeeps ?_
      by_cases htag : head.tag = e.tag
      · rw [ChunkHead.firstUnder?_of_some (ChunkHead.under?_of_eq hat htag), Option.bind_some]
        dsimp only
        rw [if_neg (by simpa using htag),
          ← ChunkHead.outcome_bytes s.cursor.order (ChunkHead.body_le_of_at? hat)]
        refine Step.yields_bind (Step.yields_attempt (Decode.moves_bytes _)) fun t ht => ?_
        cases Decode.outcome (Decode.bytes head.length)
          (head.cursor s.cursor.data s.cursor.order) with
        | ok bytes => exact Step.yields_pure _
        | error cause =>
          exact Step.yields_bind (Step.yields_note _) fun u hu => Step.yields_pure none
      · rw [ChunkHead.firstUnder?_of_none (ChunkHead.under?_of_ne hat htag)]
        dsimp only
        rw [if_pos (by simpa using htag)]
        refine Step.yields_bind (Step.yields_note _) fun t ht => hrest (hkeeps.trans ht)

/-- The bytes of a classic resource, for a container at an offset. -/
def bodyOf (data : ByteArray) (order : ByteOrder) (offset : Nat) (e : Entry) : Option ByteArray :=
  probe data order e.tag [e.offset.toNat, further offset e.offset.toNat].eraseDups

theorem yields_classic (e : Entry) (s : Session) :
    Step.Yields (classic e : Step ε _) s
      (bodyOf s.cursor.data s.cursor.order s.offset e) :=
  Step.yields_of_ok rfl (.refl s) (Step.yields_restoring (yields_amongChunks e _ s))

def storedOf (s : Session) (archive : Archive) (e : Entry) (offset : Int32) : Option ByteArray :=
  if offset < 0 then s.resources.segment? e.id
  else s.cursor.stretch? (further archive.bodyOffset offset.toInt.toNat) e.size.toNat

/-- Stored bytes without their compression, unless it is one that cannot be undone. -/
def expanded (compressions : Registry) (fullSize compression : Nat) (bytes : ByteArray) :
    Option ByteArray :=
  if compressions.kind? compression = some .zlib then
    (Inflate.inflate bytes (some fullSize)).toOption
  else some bytes

def archivedOf (s : Session) (archive : Archive) (e : Entry) : Option ByteArray :=
  match e.storage with
  | .chunk => none
  | .archived offset fullSize compression =>
    if e.size = 0 ∧ fullSize = 0 then some .empty
    else (storedOf s archive e offset).bind
      (expanded s.compressions fullSize.toNat compression.toNat)

def content (s : Session) (e : Entry) : Option ByteArray :=
  match s.archive with
  | some archive => archivedOf s archive e
  | none => bodyOf s.cursor.data s.cursor.order s.offset e

theorem yields_stored (archive : Archive) (e : Entry) (offset : Int32) (s : Session) :
    Step.Yields (stored archive e offset : Step ε _) s (storedOf s archive e offset) := by
  unfold stored storedOf
  split
  · refine Step.yields_of_ok rfl (.refl s) ?_
    cases s.resources.segment? e.id with
    | some bytes => exact Step.yields_pure _
    | none => exact Step.yields_bind (Step.yields_note _) fun t ht => Step.yields_pure none
  · dsimp only
    rw [← Decode.outcome_seek_bytes]
    have hread := Step.yields_attempt (ε := ε) (s := s)
      (Decode.moves_bind (Decode.moves_seek (further archive.bodyOffset offset.toInt.toNat))
        fun _ => Decode.moves_bytes e.size.toNat)
    refine Step.yields_bind (Step.yields_restoring hread) fun t ht => ?_
    cases Decode.outcome _ s.cursor with
    | ok bytes => exact Step.yields_pure _
    | error cause => exact Step.yields_bind (Step.yields_note _) fun u hu => Step.yields_pure none

theorem yields_expand (e : Entry) (fullSize compression : Nat) (bytes : ByteArray) (s : Session) :
    Step.Yields (expand @Inflate.inflate e fullSize compression bytes : Step ε _) s
      (expanded s.compressions fullSize compression bytes) := by
  unfold expanded
  refine Step.yields_of_ok rfl (.refl s) ?_
  split
  next hkind =>
    rw [if_pos hkind]
    cases Inflate.inflate bytes (some fullSize) with
    | error cause => exact Step.yields_bind (Step.yields_note _) fun t ht => Step.yields_pure none
    | ok data =>
      dsimp only
      split
      · exact Step.yields_bind (Step.yields_note _) fun t ht => Step.yields_pure (some data)
      · exact Step.yields_pure (some data)
  next hkind =>
    rw [if_neg (by rw [hkind]; decide)]
    exact Step.yields_pure (some bytes)
  next hkind _ =>
    rw [if_neg hkind]
    exact Step.yields_bind (Step.yields_note _) fun t ht => Step.yields_pure (some bytes)

theorem yields_archived (archive : Archive) (e : Entry) (s : Session) :
    Step.Yields (archived @Inflate.inflate archive e : Step ε _) s (archivedOf s archive e) := by
  unfold archived archivedOf
  cases e.storage with
  | chunk => exact Step.yields_bind (Step.yields_note _) fun t ht => Step.yields_pure none
  | archived offset fullSize compression =>
    dsimp only
    split
    · exact Step.yields_pure _
    · refine Step.yields_bind (yields_stored archive e offset s) fun t ht => ?_
      obtain ⟨pos, notes, rfl⟩ := ht
      cases storedOf s archive e offset with
      | none => exact Step.yields_pure none
      | some bytes => exact yields_expand e _ _ bytes _

theorem yields_load (e : Entry) (s : Session) :
    Step.Yields (load e : Step ε _) s (content s e) := by
  unfold content
  refine Step.yields_of_ok rfl (.refl s) ?_
  cases s.archive with
  | some archive => exact yields_archived archive e s
  | none => exact yields_classic e s

theorem yields_loadId (id : Int32) (s : Session) :
    Step.Yields (loadId id : Step ε _) s ((s.resources.find? id).bind (content s)) := by
  refine Step.yields_of_ok rfl (.refl s) ?_
  dsimp only
  cases s.resources.find? id with
  | none => exact Step.yields_pure none
  | some e => exact yields_load e s

theorem content_of_classic {s : Session} (h : s.archive = none) :
    content s = bodyOf s.cursor.data s.cursor.order s.offset := by
  funext e
  unfold content
  rw [h]

theorem quiet_load (e : Entry) : Step.Quiet (load e : Step ε _) :=
  fun s => ⟨_, yields_load e s⟩

theorem quiet_loadId (id : Int32) : Step.Quiet (loadId id : Step ε _) :=
  fun s => ⟨_, yields_loadId id s⟩

end Payload

namespace ScriptEntry

variable {ε : Type}

def bytesOf? (s : Session) (e : Entry) : Option ByteArray :=
  (Payload.content s e).filter fun bytes => bytes.size ≠ 0

theorem yields_loadSome (e : Entry) (s : Session) :
    Step.Yields (loadSome e : Step ε _) s (bytesOf? s e) :=
  Step.yields_bind (Payload.yields_load e s) fun _ _ => Step.yields_pure _

theorem quiet_loadSome (e : Entry) : Step.Quiet (loadSome e : Step ε _) :=
  fun s => ⟨_, yields_loadSome e s⟩

def ownerOf? (s : Session) (e : Entry) : Option (Int32 × Owner) :=
  (bytesOf? s e).bind fun bytes =>
    ((Decode.run Member.read bytes).toOption.filter (·.isScript)).bind fun m =>
      (scriptOf? s.resources e.id m).map fun id =>
        (id, { memberId := e.id, format := m.format, info := m.info })

theorem yields_ownerOf (e : Entry) (s : Session) :
    Step.Yields (ownerOf e : Step ε _) s (ownerOf? s e) := by
  unfold ownerOf?
  refine Step.yields_bind (yields_loadSome e s) fun t ht => ?_
  cases bytesOf? s e with
  | none => exact Step.yields_pure none
  | some bytes =>
    rw [Option.bind_some]
    dsimp only
    cases Decode.run Member.read bytes with
    | error cause => exact Step.yields_bind (Step.yields_note _) fun u hu => Step.yields_pure none
    | ok m =>
      obtain ⟨pos, notes, rfl⟩ := ht
      cases hscript : m.isScript with
      | false =>
        simp only [Except.toOption, Option.filter, hscript]
        exact Step.yields_pure none
      | true =>
        simp only [Except.toOption, Option.filter, hscript, if_true, Option.bind_some]
        refine Step.yields_of_ok rfl (.refl _) ?_
        dsimp only
        cases scriptOf? s.resources e.id m with
        | none => exact Step.yields_bind (Step.yields_note _) fun u hu => Step.yields_pure none
        | some id => exact Step.yields_pure _

theorem yields_owners (entries : List Entry) (s : Session) :
    Step.Yields (owners entries : Step ε _) s (entries.filterMap (ownerOf? s)) := by
  induction entries generalizing s with
  | nil => exact Step.yields_pure []
  | cons e rest ih =>
    refine Step.yields_bind (yields_ownerOf e s) fun t ht => ?_
    obtain ⟨pos, notes, rfl⟩ := ht
    refine Step.yields_bind (ih _) fun u hu => ?_
    have hcons : (e :: rest).filterMap (ownerOf? s) =
        (ownerOf? s e).toList ++ rest.filterMap (ownerOf? s) := by
      rw [List.filterMap_cons]
      cases ownerOf? s e <;> rfl
    rw [hcons]
    exact Step.yields_pure _

def owner? (s : Session) (id : Int32) : Option Owner :=
  (((castEntries s.resources).filterMap (ownerOf? s)).find? (·.1 == id)).map (·.2)

/-- A script with its owner. The text of the owner's info block is decoded on demand. -/
def credited (archiveVersion : UInt32) (decodeText : Bool) (owner : Option Owner) (id : Int32)
    (bytes : ByteArray) : ScriptEntry :=
  let detected := if decodeText then owner.bind fun o => ScriptInfo.detect? o.info archiveVersion
    else none
  { id, memberId := owner.map (·.memberId), format := owner.elim .unknown (·.format)
    info := detected.map (·.1), ambiguous := detected.any (·.2), bytes }

def found (archiveVersion : UInt32) (decodeText : Bool) (s : Session) : List ScriptEntry :=
  (s.resources.withTag .script).filterMap fun e =>
    (bytesOf? s e).map (credited archiveVersion decodeText (owner? s e.id) e.id)

theorem yields_ofEntry (archiveVersion : UInt32) (decodeText : Bool)
    (owners : List (Int32 × Owner)) (e : Entry) (s : Session) :
    Step.Yields (ofEntry archiveVersion decodeText owners e : Step ε _) s
      ((bytesOf? s e).map
        (credited archiveVersion decodeText ((owners.find? (·.1 == e.id)).map (·.2)) e.id)) := by
  refine Step.yields_bind (yields_loadSome e s) fun t ht => ?_
  cases bytesOf? s e with
  | none => exact Step.yields_bind (Step.yields_note _) fun u hu => Step.yields_pure none
  | some bytes => exact Step.yields_bind (Step.yields_noteAll _) fun u hu => Step.yields_pure _

theorem yields_ofEntries (archiveVersion : UInt32) (decodeText : Bool)
    (owners : List (Int32 × Owner)) (entries : List Entry) (s : Session) :
    Step.Yields (ofEntries archiveVersion decodeText owners entries : Step ε _) s
      (entries.filterMap fun e => (bytesOf? s e).map
        (credited archiveVersion decodeText ((owners.find? (·.1 == e.id)).map (·.2)) e.id)) := by
  induction entries generalizing s with
  | nil => exact Step.yields_pure []
  | cons e rest ih =>
    refine Step.yields_bind (yields_ofEntry archiveVersion decodeText owners e s) fun t ht => ?_
    obtain ⟨pos, notes, rfl⟩ := ht
    refine Step.yields_bind (ih _) fun u hu => ?_
    rw [List.filterMap_cons]
    cases bytesOf? s e with
    | none => exact Step.yields_pure _
    | some bytes => exact Step.yields_pure _

theorem yields_collect (archiveVersion : UInt32) (decodeText : Bool) (s : Session) :
    Step.Yields (collect archiveVersion decodeText : Step ε _) s
      (found archiveVersion decodeText s) := by
  refine Step.yields_of_ok rfl (.refl s) ?_
  refine Step.yields_bind (yields_owners _ s) fun t ht => ?_
  obtain ⟨pos, notes, rfl⟩ := ht
  exact Step.yields_of_ok rfl (.refl _) (yields_ofEntries archiveVersion decodeText _ _ _)

theorem quiet_collect (archiveVersion : UInt32) (decodeText : Bool) :
    Step.Quiet (collect archiveVersion decodeText : Step ε _) :=
  fun s => ⟨_, yields_collect archiveVersion decodeText s⟩

end ScriptEntry

namespace Scope

variable {ε : Type}

theorem quiet_readNames (id : Int32) : Step.Quiet (readNames id : Step ε _) := by
  refine Step.quiet_bind (Payload.quiet_loadId id) fun result => ?_
  cases result with
  | none => exact Step.quiet_pure _
  | some bytes =>
    dsimp only
    split
    · exact Step.quiet_pure _
    · exact Step.quiet_bind (Step.quiet_note _) fun _ => Step.quiet_pure _

theorem quiet_namesFor (index : ScriptIndex) : Step.Quiet (namesFor index : Step ε _) := by
  refine Step.quiet_bind (Step.quiet_consult _) fun found => ?_
  cases found with
  | none => exact Step.quiet_pure _
  | some id => exact Step.quiet_bind (quiet_readNames id) fun _ => Step.quiet_pure _

theorem quiet_ofEntry (e : Entry) : Step.Quiet (ofEntry e : Step ε _) := by
  refine Step.quiet_bind (Payload.quiet_load e) fun result => ?_
  cases result with
  | none => exact Step.quiet_pure _
  | some bytes =>
    dsimp only
    split
    · exact Step.quiet_bind (Step.quiet_note _) fun _ => Step.quiet_pure _
    · refine Step.quiet_bind (Step.quiet_noteAll _) fun _ => ?_
      exact Step.quiet_bind (quiet_namesFor _) fun _ => Step.quiet_pure _

theorem quiet_ofEntries (entries : List Entry) : Step.Quiet (ofEntries entries : Step ε _) := by
  induction entries with
  | nil => exact Step.quiet_pure _
  | cons e rest ih =>
    exact Step.quiet_bind (quiet_ofEntry e) fun _ => Step.quiet_bind ih fun _ => Step.quiet_pure _

theorem quiet_ofNamesAlone : Step.Quiet (ofNamesAlone : Step ε _) := by
  refine Step.quiet_bind Step.quiet_get fun s => ?_
  cases s.resources.firstWithTag? .names with
  | none => exact Step.quiet_pure _
  | some e =>
    refine Step.quiet_bind (quiet_readNames e.id) fun result => ?_
    cases result with
    | none => exact Step.quiet_pure _
    | some names => exact Step.quiet_bind (Step.quiet_note _) fun _ => Step.quiet_pure _

theorem quiet_collect : Step.Quiet (collect : Step ε _) := by
  refine Step.quiet_bind Step.quiet_get fun s => ?_
  refine Step.quiet_bind (quiet_ofEntries _) fun scopes => ?_
  cases scopes with
  | nil => exact quiet_ofNamesAlone
  | cons scope rest => exact Step.quiet_pure _

end Scope
end Shockwave
