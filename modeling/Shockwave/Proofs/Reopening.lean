import Shockwave.Proofs.ArchiveReading
import Shockwave.Proofs.Finding

/-!
A session can be used again. Opening a movie clears what was registered, and the search for the
container sets the cursor, so of an earlier use only the notes are left. No step looks at them: each
commutes with putting earlier notes in front.
-/
namespace Shockwave

section

variable {ε σ α β : Type} {f : σ → σ}

def onState (f : σ → σ) : EStateM.Result ε σ α → EStateM.Result ε σ α
  | .ok a s => .ok a (f s)
  | .error e s => .error e (f s)

/-- A change of the state may as well be made after the step. -/
def Commutes (f : σ → σ) (step : EStateM ε σ α) : Prop := ∀ s, step (f s) = onState f (step s)

theorem commutes_pure (a : α) : Commutes f (pure a : EStateM ε σ α) := fun _ => rfl

theorem commutes_throw (e : ε) : Commutes f (throw e : EStateM ε σ α) := fun _ => rfl

theorem commutes_modify {g : σ → σ} (h : ∀ s, g (f s) = f (g s)) :
    Commutes f (modify g : EStateM ε σ PUnit) := by
  intro s
  exact congrArg (EStateM.Result.ok PUnit.unit) (h s)

theorem commutes_bind {step : EStateM ε σ α} {rest : α → EStateM ε σ β} (hstep : Commutes f step)
    (hrest : ∀ a, Commutes f (rest a)) : Commutes f (step >>= rest) := by
  intro s
  have hf := hstep s
  cases h : step s with
  | ok a t =>
    rw [h] at hf
    rw [bind_ok hf, bind_ok h, hrest a t]
  | error e t =>
    rw [h] at hf
    rw [bind_error hf, bind_error h]
    rfl

/-- What is done with the state that was looked up has to be the same after the change. -/
theorem commutes_get_bind {rest : σ → EStateM ε σ α} (hsame : ∀ s, rest (f s) = rest s)
    (hrest : ∀ s, Commutes f (rest s)) : Commutes f (get >>= rest) := by
  intro s
  rw [get_bind, get_bind, hsame s, hrest s s]

theorem commutes_ite {condition : Prop} [Decidable condition] {yes no : EStateM ε σ α}
    (hyes : Commutes f yes) (hno : Commutes f no) : Commutes f (if condition then yes else no) := by
  split
  · exact hyes
  · exact hno

end

def Session.recalling (earlier : List Note) (s : Session) : Session :=
  { s with notes := earlier ++ s.notes }

namespace Step

variable {ε α β : Type}

def Blind (step : Step ε α) : Prop := ∀ earlier, Commutes (Session.recalling earlier) step

theorem blind_pure (a : α) : Blind (pure a : Step ε α) := fun _ => commutes_pure a

theorem blind_throw (e : ε) : Blind (throw e : Step ε α) := fun _ => commutes_throw e

theorem blind_bind {step : Step ε α} {rest : α → Step ε β} (hstep : Blind step)
    (hrest : ∀ a, Blind (rest a)) : Blind (step >>= rest) :=
  fun earlier => commutes_bind (hstep earlier) fun a => hrest a earlier

theorem blind_ite {condition : Prop} [Decidable condition] {yes no : Step ε α} (hyes : Blind yes)
    (hno : Blind no) : Blind (if condition then yes else no) :=
  fun earlier => commutes_ite (hyes earlier) (hno earlier)

theorem blind_get_bind {rest : Session → Step ε α}
    (hsame : ∀ earlier s, rest (s.recalling earlier) = rest s) (hrest : ∀ s, Blind (rest s)) :
    Blind (get >>= rest) :=
  fun earlier => commutes_get_bind (hsame earlier) fun s => hrest s earlier

theorem blind_consult (ask : Container → α) : Blind (consult ask : Step ε α) :=
  blind_get_bind (fun _ _ => rfl) fun _ => blind_pure _

theorem blind_modify {g : Session → Session}
    (h : ∀ earlier s, g (s.recalling earlier) = (g s).recalling earlier) :
    Blind (modify g : Step ε PUnit) :=
  fun earlier => commutes_modify (h earlier)

theorem blind_noteAll (ns : List Note) : Blind (noteAll ns : Step ε Unit) := by
  refine blind_modify fun earlier s => ?_
  simp only [Session.recalling, List.append_assoc]

theorem blind_note (n : Note) : Blind (note n : Step ε Unit) := blind_noteAll [n]

theorem blind_attempt (read : Decode α) : Blind (attempt read : Step ε _) := by
  intro earlier s
  unfold attempt Session.recalling
  dsimp only
  cases read s.cursor <;> rfl

theorem blind_readOr (failure : ReadError → ε) (read : Decode α) : Blind (readOr failure read) := by
  refine blind_bind (blind_attempt read) fun result => ?_
  cases result with
  | ok a => exact blind_pure a
  | error e => exact blind_throw _

theorem blind_restoring {step : Step ε α} (h : Blind step) : Blind (restoring step) := by
  intro earlier s
  unfold restoring
  rw [h earlier s]
  cases step s <;> rfl

theorem blind_register (e : Entry) : Blind (register e : Step ε Unit) := by
  refine blind_get_bind (fun _ _ => rfl) fun s => ?_
  exact blind_bind (blind_noteAll _) fun _ => blind_modify fun _ _ => rfl

theorem blind_registerAll (entries : List Entry) : Blind (registerAll entries : Step ε Unit) := by
  induction entries with
  | nil => exact blind_pure ()
  | cons e rest ih => exact blind_bind (blind_register e) fun _ => ih

theorem blind_linkAll (links : List Link) : Blind (linkAll links : Step ε Unit) :=
  blind_modify fun _ _ => rfl

theorem blind_describe (d : Descriptor) : Blind (describe d : Step ε Unit) := by
  refine blind_get_bind (fun _ _ => rfl) fun s => ?_
  exact blind_bind (blind_noteAll _) fun _ => blind_modify fun _ _ => rfl

end Step

namespace ClassicMap

variable {ε : Type}

theorem blind_walk (heads : List ChunkHead) (map : ClassicMap) :
    Step.Blind (walk heads map : Step ε _) := by
  induction heads generalizing map with
  | nil => exact Step.blind_pure map
  | cons head rest ih =>
    refine Step.blind_bind (Step.blind_attempt _) fun _ => Step.blind_ite ?_ <|
      Step.blind_ite ?_ <| Step.blind_ite ?_ (ih map)
    · refine Step.blind_bind (Step.blind_attempt _) fun result => ?_
      cases result with
      | ok initial => exact Step.blind_bind (Step.blind_note _) fun _ => ih _
      | error e => exact Step.blind_bind (Step.blind_note _) fun _ => Step.blind_pure _
    · refine Step.blind_bind (Step.blind_attempt _) fun result => ?_
      cases result with
      | ok memory => exact Step.blind_bind (Step.blind_noteAll _) fun _ => ih _
      | error e => exact Step.blind_bind (Step.blind_note _) fun _ => Step.blind_pure _
    · refine Step.blind_bind (Step.blind_attempt _) fun result => ?_
      cases result with
      | ok keys => exact Step.blind_bind (Step.blind_noteAll _) fun _ => ih _
      | error e => exact Step.blind_bind (Step.blind_note _) fun _ => ih _

theorem blind_memoryAmong (offset : Nat) (candidates : List Nat) :
    Step.Blind (memoryAmong offset candidates : Step ε _) := by
  induction candidates with
  | nil => exact Step.blind_bind (Step.blind_note _) fun _ => Step.blind_pure none
  | cons candidate rest ih =>
    refine Step.blind_bind (Step.blind_attempt _) fun result => ?_
    cases result with
    | error e => exact ih
    | ok head =>
      refine Step.blind_ite ?_ ih
      refine Step.blind_bind (Step.blind_note _) fun _ => ?_
      refine Step.blind_bind (Step.blind_attempt _) fun result => ?_
      cases result with
      | ok memory => exact Step.blind_bind (Step.blind_noteAll _) fun _ => Step.blind_pure _
      | error e => exact Step.blind_pure none

theorem blind_memoryOf (walked : ClassicMap) (start : Nat) :
    Step.Blind (memoryOf walked start : Step ε _) := by
  unfold memoryOf
  split
  · refine Step.blind_get_bind (fun _ _ => rfl) fun s => ?_
    exact Step.blind_restoring (blind_memoryAmong _ _)
  · exact Step.blind_pure _

theorem blind_readTables (block : Block) : Step.Blind (readTables block : Step ε _) := by
  refine Step.blind_get_bind (fun _ _ => rfl) fun s => ?_
  refine Step.blind_bind (blind_walk _ _) fun walked => ?_
  exact Step.blind_bind (blind_memoryOf walked _) fun memory => Step.blind_pure _

theorem blind_read (block : Block) : Step.Blind (read block : Step ε _) := by
  refine Step.blind_bind (blind_readTables block) fun map => ?_
  refine Step.blind_bind (Step.blind_registerAll _) fun _ => ?_
  exact Step.blind_bind (Step.blind_linkAll _) fun _ => Step.blind_pure _

end ClassicMap

namespace Archive

theorem blind_readAs {α : Type} (read : Decode α) : Step.Blind (readAs read) :=
  Step.blind_readOr _ read

theorem blind_require {α : Type} (outcome : Except ReadError α) :
    Step.Blind (require outcome) := by
  cases outcome with
  | ok a => exact Step.blind_pure a
  | error e => exact Step.blind_throw _

theorem blind_expect (tag : Tag) : Step.Blind (expect tag) :=
  Step.blind_bind (blind_readAs _) fun _ => Step.blind_ite (Step.blind_throw _) (Step.blind_pure ())

theorem blind_describeAll (readName : NameReader) (index : Nat) (c : Cursor)
    (identifiers : List ByteArray) : Step.Blind (describeAll readName index c identifiers) := by
  induction identifiers generalizing index c with
  | nil => exact Step.blind_ite (Step.blind_pure ()) (Step.blind_note _)
  | cons identifier rest ih =>
    unfold describeAll
    split
    · exact Step.blind_throw _
    · have hrest (c : Cursor) (d : Descriptor) :
          Step.Blind (do Step.describe d; describeAll readName (index + 1) c rest) :=
        Step.blind_bind (Step.blind_describe d) fun _ => ih (index + 1) c
      exact Step.blind_ite (Step.blind_bind (Step.blind_note _) fun _ => hrest _ _) (hrest _ _)

theorem blind_readDescriptors (readName : NameReader) (data : ByteArray) (order : ByteOrder) :
    Step.Blind (readDescriptors readName data order) := by
  unfold readDescriptors
  split
  · exact Step.blind_throw _
  · exact blind_describeAll readName 0 _ _

theorem blind_registerRows (c : Cursor) (count : Nat) : Step.Blind (registerRows c count) := by
  induction count generalizing c with
  | zero => exact Step.blind_pure ()
  | succ count ih =>
    unfold registerRows
    split
    · exact Step.blind_throw _
    · exact Step.blind_bind (Step.blind_register _) fun _ => ih _

theorem blind_readRows (data : ByteArray) (order : ByteOrder) :
    Step.Blind (readRows data order) := by
  unfold readRows
  split
  · exact Step.blind_throw _
  · exact Step.blind_bind (Step.blind_note _) fun _ => blind_registerRows _ _

theorem blind_readSegments (data : ByteArray) (order : ByteOrder) :
    Step.Blind (readSegments data order) := by
  refine Step.blind_get_bind (fun _ _ => rfl) fun s => ?_
  exact Step.blind_bind (Step.blind_modify fun _ _ => rfl) fun _ => Step.blind_noteAll _

theorem blind_readMapBody : Step.Blind readMapBody := by
  refine Step.blind_bind (blind_readAs _) fun length => ?_
  refine Step.blind_get_bind (fun _ _ => rfl) fun s => ?_
  refine Step.blind_bind (blind_readAs _) fun mode => ?_
  refine Step.blind_bind (blind_readAs _) fun fullLength => ?_
  refine Step.blind_get_bind (fun _ _ => rfl) fun t => ?_
  refine Step.blind_bind (blind_readAs _) fun stored => ?_
  have hend (rows : ByteArray) : Step.Blind (do
      if rows.size ≠ fullLength.toNat then
        Step.note (.archiveLength fullLength.toNat rows.size)
      return rows : Step Halt ByteArray) :=
    Step.blind_ite (Step.blind_bind (Step.blind_note _) fun _ => Step.blind_pure _)
      (Step.blind_pure _)
  exact Step.blind_ite (Step.blind_bind (Step.blind_pure _) hend)
    (Step.blind_bind (blind_require _) hend)

theorem blind_readSchemePart (order : ByteOrder) : Step.Blind (readSchemePart order) := by
  refine Step.blind_bind (blind_expect _) fun _ => ?_
  refine Step.blind_bind (blind_readAs _) fun _ => ?_
  exact Step.blind_bind (blind_readAs _) fun _ => blind_readDescriptors _ _ _

theorem blind_readMapPart (order : ByteOrder) : Step.Blind (readMapPart order) :=
  Step.blind_bind (blind_expect _) fun _ => Step.blind_bind blind_readMapBody fun _ =>
    blind_readRows _ _

theorem blind_readSegmentPart (version : UInt32) (versionText : Option String)
    (order : ByteOrder) : Step.Blind (readSegmentPart version versionText order) := by
  refine Step.blind_bind (blind_expect _) fun _ => ?_
  refine Step.blind_bind (blind_readAs _) fun _ => ?_
  refine Step.blind_get_bind (fun _ _ => rfl) fun s => ?_
  refine Step.blind_get_bind (fun _ _ => rfl) fun t => ?_
  split
  · exact Step.blind_throw _
  · refine Step.blind_bind (blind_readAs _) fun stored => ?_
    refine Step.blind_bind (blind_require _) fun segment => ?_
    exact Step.blind_bind (blind_readSegments _ _) fun _ => Step.blind_pure _

theorem blind_readTables (version : UInt32) (versionText : Option String) :
    Step.Blind (readTables version versionText) := by
  rw [readTables]
  refine Step.blind_get_bind (fun _ _ => rfl) fun s => ?_
  refine Step.blind_bind (blind_readSchemePart _) fun _ => ?_
  exact Step.blind_bind (blind_readMapPart _) fun _ => blind_readSegmentPart _ _ _

def Opening.recalling (earlier : List Note) (o : Opening) : Opening :=
  { o with session := o.session.recalling earlier }

section

variable {α : Type} {earlier : List Note}

theorem commutes_inSession {step : Step Halt α} (h : Step.Blind step) :
    Commutes (Opening.recalling earlier) (inSession step) := by
  intro o
  have hstep := h earlier o.session
  unfold inSession Opening.recalling
  dsimp only
  rw [hstep]
  cases step o.session <;> rfl

theorem commutes_readVersions (version : UInt32) :
    Commutes (Opening.recalling earlier) (readVersions version) := by
  have hnumber : Commutes (Opening.recalling earlier) (inSession (readAs Decode.varint)) :=
    commutes_inSession (blind_readAs _)
  refine commutes_ite ?_ (commutes_pure ())
  refine commutes_bind hnumber fun _ => ?_
  refine commutes_bind (commutes_modify fun _ => rfl) fun _ => ?_
  exact commutes_bind hnumber fun _ => commutes_modify fun _ => rfl

theorem commutes_readVersionText (version : UInt32) :
    Commutes (Opening.recalling earlier) (readVersionText version) := by
  refine commutes_ite ?_ (commutes_pure none)
  rw [map_eq_pure_bind]
  exact commutes_bind (commutes_inSession (blind_readAs _)) fun _ => commutes_pure _

theorem commutes_closeVersion (start length : Nat) :
    Commutes (Opening.recalling earlier) (closeVersion start length) := by
  refine commutes_get_bind (fun _ => rfl) fun o => commutes_ite ?_ (commutes_pure ())
  refine commutes_bind (commutes_inSession (Step.blind_note _)) fun _ => ?_
  exact commutes_inSession (blind_readAs _)

theorem commutes_readVersion : Commutes (Opening.recalling earlier) readVersion := by
  rw [readVersion_eq_steps]
  refine commutes_bind (commutes_inSession (blind_expect _)) fun _ => ?_
  refine commutes_bind (commutes_inSession (blind_readAs _)) fun length => ?_
  refine commutes_get_bind (fun _ => rfl) fun o => ?_
  refine commutes_bind (commutes_inSession (blind_readAs _)) fun version => ?_
  refine commutes_bind (commutes_readVersions version) fun _ => ?_
  refine commutes_bind (commutes_readVersionText version) fun text => ?_
  exact commutes_bind (commutes_closeVersion _ _) fun _ => commutes_pure _

end

theorem commutes_readWhole (earlier : List Note) (start : Nat) :
    Commutes (Opening.recalling earlier) (readWhole start) := by
  refine commutes_bind (commutes_inSession (blind_readAs _)) fun _ => ?_
  exact commutes_bind commutes_readVersion fun _ => commutes_inSession (blind_readTables _ _)

theorem blind_read {ε : Type} (block : Block) : Step.Blind (read block : Step ε _) := by
  intro earlier s
  have hwhole := commutes_readWhole earlier block.start { session := s, block }
  rw [read_eq_whole, read_eq_whole]
  unfold Opening.recalling at hwhole
  rw [hwhole]
  cases readWhole block.start { session := s, block } <;> rfl

end Archive

namespace Payload

variable {ε : Type}

theorem blind_amongChunks (e : Entry) (candidates : List Nat) :
    Step.Blind (amongChunks e candidates : Step ε _) := by
  induction candidates with
  | nil => exact Step.blind_bind (Step.blind_note _) fun _ => Step.blind_pure none
  | cons candidate rest ih =>
    refine Step.blind_bind (Step.blind_attempt _) fun result => ?_
    cases result with
    | error cause => exact ih
    | ok head =>
      refine Step.blind_ite (Step.blind_bind (Step.blind_note _) fun _ => ih) ?_
      refine Step.blind_bind (Step.blind_attempt _) fun result => ?_
      cases result with
      | ok bytes => exact Step.blind_pure _
      | error cause => exact Step.blind_bind (Step.blind_note _) fun _ => Step.blind_pure none

theorem blind_classic (e : Entry) : Step.Blind (classic e : Step ε _) := by
  refine Step.blind_get_bind (fun _ _ => rfl) fun s => ?_
  exact Step.blind_restoring (blind_amongChunks e _)

theorem blind_stored (archive : Archive) (e : Entry) (offset : Int32) :
    Step.Blind (stored archive e offset : Step ε _) := by
  refine Step.blind_ite ?_ ?_
  · refine Step.blind_get_bind (fun _ _ => rfl) fun s => ?_
    cases s.resources.segment? e.id with
    | some bytes => exact Step.blind_pure _
    | none => exact Step.blind_bind (Step.blind_note _) fun _ => Step.blind_pure _
  · refine Step.blind_bind (Step.blind_restoring (Step.blind_attempt _)) fun result => ?_
    cases result with
    | ok bytes => exact Step.blind_pure _
    | error cause => exact Step.blind_bind (Step.blind_note _) fun _ => Step.blind_pure _

theorem blind_expand (inflate : Expansion) (e : Entry) (fullSize compression : Nat)
    (bytes : ByteArray) : Step.Blind (expand inflate e fullSize compression bytes : Step ε _) := by
  refine Step.blind_get_bind (fun _ _ => rfl) fun s => ?_
  split
  · split
    · exact Step.blind_ite (Step.blind_bind (Step.blind_note _) fun _ => Step.blind_pure _)
        (Step.blind_pure _)
    · exact Step.blind_bind (Step.blind_note _) fun _ => Step.blind_pure _
  · exact Step.blind_pure _
  · exact Step.blind_bind (Step.blind_note _) fun _ => Step.blind_pure _

theorem blind_archived (inflate : Expansion) (archive : Archive) (e : Entry) :
    Step.Blind (archived inflate archive e : Step ε _) := by
  unfold archived
  split
  · exact Step.blind_bind (Step.blind_note _) fun _ => Step.blind_pure _
  · refine Step.blind_ite (Step.blind_pure _) ?_
    refine Step.blind_bind (blind_stored archive e _) fun result => ?_
    cases result with
    | none => exact Step.blind_pure _
    | some bytes => exact blind_expand inflate e _ _ bytes

theorem blind_load (e : Entry) : Step.Blind (load e : Step ε _) := by
  refine Step.blind_get_bind (fun _ _ => rfl) fun s => ?_
  cases s.archive with
  | none => exact blind_classic e
  | some archive => exact blind_archived _ archive e

theorem blind_loadId (id : Int32) : Step.Blind (loadId id : Step ε _) := by
  refine Step.blind_bind (Step.blind_consult _) fun found => ?_
  cases found with
  | none => exact Step.blind_pure _
  | some e => exact blind_load e

end Payload

namespace ScriptEntry

variable {ε : Type}

theorem blind_loadSome (e : Entry) : Step.Blind (loadSome e : Step ε _) :=
  Step.blind_bind (Payload.blind_load e) fun _ => Step.blind_pure _

theorem blind_ownerOf (e : Entry) : Step.Blind (ownerOf e : Step ε _) := by
  refine Step.blind_bind (blind_loadSome e) fun result => ?_
  cases result with
  | none => exact Step.blind_pure _
  | some bytes =>
    dsimp only
    split
    · exact Step.blind_bind (Step.blind_note _) fun _ => Step.blind_pure _
    · refine Step.blind_ite (Step.blind_pure _) ?_
      refine Step.blind_bind (Step.blind_consult _) fun found => ?_
      split
      · exact Step.blind_bind (Step.blind_note _) fun _ => Step.blind_pure _
      · exact Step.blind_pure _

theorem blind_owners (entries : List Entry) : Step.Blind (owners entries : Step ε _) := by
  induction entries with
  | nil => exact Step.blind_pure _
  | cons e rest ih =>
    exact Step.blind_bind (blind_ownerOf e) fun _ => Step.blind_bind ih fun _ => Step.blind_pure _

theorem blind_ofEntry (archiveVersion : UInt32) (decodeText : Bool) (owners : List (Int32 × Owner))
    (e : Entry) : Step.Blind (ofEntry archiveVersion decodeText owners e : Step ε _) := by
  refine Step.blind_bind (blind_loadSome e) fun result => ?_
  cases result with
  | none => exact Step.blind_bind (Step.blind_note _) fun _ => Step.blind_pure _
  | some bytes => exact Step.blind_bind (Step.blind_noteAll _) fun _ => Step.blind_pure _

theorem blind_ofEntries (archiveVersion : UInt32) (decodeText : Bool)
    (owners : List (Int32 × Owner)) (entries : List Entry) :
    Step.Blind (ofEntries archiveVersion decodeText owners entries : Step ε _) := by
  induction entries with
  | nil => exact Step.blind_pure _
  | cons e rest ih =>
    refine Step.blind_bind (blind_ofEntry archiveVersion decodeText owners e) fun _ => ?_
    exact Step.blind_bind ih fun _ => Step.blind_pure _

theorem blind_collect (archiveVersion : UInt32) (decodeText : Bool) :
    Step.Blind (collect archiveVersion decodeText : Step ε _) := by
  refine Step.blind_get_bind (fun _ _ => rfl) fun _ => ?_
  refine Step.blind_bind (blind_owners _) fun _ => ?_
  exact Step.blind_get_bind (fun _ _ => rfl) fun _ => blind_ofEntries archiveVersion decodeText _ _

end ScriptEntry

namespace Scope

variable {ε : Type}

theorem blind_readNames (id : Int32) : Step.Blind (readNames id : Step ε _) := by
  refine Step.blind_bind (Payload.blind_loadId id) fun result => ?_
  cases result with
  | none => exact Step.blind_pure _
  | some bytes =>
    dsimp only
    split
    · exact Step.blind_pure _
    · exact Step.blind_bind (Step.blind_note _) fun _ => Step.blind_pure _

theorem blind_namesFor (index : ScriptIndex) : Step.Blind (namesFor index : Step ε _) := by
  refine Step.blind_bind (Step.blind_consult _) fun found => ?_
  cases found with
  | none => exact Step.blind_pure _
  | some id => exact Step.blind_bind (blind_readNames id) fun _ => Step.blind_pure _

theorem blind_ofEntry (e : Entry) : Step.Blind (ofEntry e : Step ε _) := by
  refine Step.blind_bind (Payload.blind_load e) fun result => ?_
  cases result with
  | none => exact Step.blind_pure _
  | some bytes =>
    dsimp only
    split
    · exact Step.blind_bind (Step.blind_note _) fun _ => Step.blind_pure _
    · refine Step.blind_bind (Step.blind_noteAll _) fun _ => ?_
      exact Step.blind_bind (blind_namesFor _) fun _ => Step.blind_pure _

theorem blind_ofEntries (entries : List Entry) : Step.Blind (ofEntries entries : Step ε _) := by
  induction entries with
  | nil => exact Step.blind_pure _
  | cons e rest ih =>
    exact Step.blind_bind (blind_ofEntry e) fun _ => Step.blind_bind ih fun _ => Step.blind_pure _

theorem blind_ofNamesAlone : Step.Blind (ofNamesAlone : Step ε _) := by
  refine Step.blind_get_bind (fun _ _ => rfl) fun s => ?_
  cases s.resources.firstWithTag? .names with
  | none => exact Step.blind_pure _
  | some e =>
    refine Step.blind_bind (blind_readNames e.id) fun result => ?_
    cases result with
    | none => exact Step.blind_pure _
    | some names => exact Step.blind_bind (Step.blind_note _) fun _ => Step.blind_pure _

theorem blind_collect : Step.Blind (collect : Step ε _) := by
  refine Step.blind_get_bind (fun _ _ => rfl) fun s => ?_
  refine Step.blind_bind (blind_ofEntries _) fun scopes => ?_
  cases scopes with
  | nil => exact blind_ofNamesAlone
  | cons scope rest => exact Step.blind_pure _

end Scope

namespace Movie

theorem blind_readMap (block : Block) : Step.Blind (readMap block) := by
  refine Step.blind_ite ?_ ?_
  · refine Step.blind_bind (Archive.blind_read block) fun result => ?_
    obtain ⟨outcome, versioned⟩ := result
    cases outcome with
    | error halt => exact Step.blind_throw halt
    | ok archive =>
      exact Step.blind_bind (Step.blind_modify fun _ _ => rfl) fun _ => Step.blind_pure _
  · exact Step.blind_bind (ClassicMap.blind_read block) fun _ => Step.blind_pure _

theorem blind_readRest (options : Options) (offset : Nat) (fileName : String) (block : Block) :
    Step.Blind (readRest options offset fileName block) := by
  refine Step.blind_get_bind (fun _ _ => rfl) fun s => ?_
  refine Step.blind_bind (Step.blind_note _) fun _ => ?_
  refine Step.blind_bind (ScriptEntry.blind_collect _ _) fun scripts => ?_
  refine Step.blind_bind Scope.blind_collect fun scopes => ?_
  exact Step.blind_get_bind (fun _ _ => rfl) fun t => Step.blind_pure _

theorem blind_readOn (options : Options) (offset : Nat) (header : Block) :
    Step.Blind (readOn options offset header) := by
  refine Step.blind_get_bind (fun _ _ => rfl) fun s => ?_
  refine Step.blind_bind (Step.blind_note _) fun _ => ?_
  exact Step.blind_bind (blind_readMap header) fun block => blind_readRest _ _ _ block

/-- What a run leaves: the movie and the session, or why there is no movie. -/
def settled : EStateM.Result Halt Session Movie → Except Halt (Movie × Session)
  | .ok movie s => .ok (movie, s)
  | .error halt _ => .error halt

theorem settled_onState (earlier : List Note) (result : EStateM.Result Halt Session Movie) :
    settled (onState (Session.recalling earlier) result) =
      (settled result).map (Prod.map id (Session.recalling earlier)) := by
  cases result <;> rfl

/-- Whatever a session was used for, opening the movie in its stream gives what a new session gives.
If there is a movie, the sessions also end alike, but for the notes from before. -/
theorem readFrom_reopened (options : Options) (s : Session) :
    settled (readFrom options s) =
      (settled (readFrom options (.ofBytes s.fileName s.cursor.data))).map
        (Prod.map id (Session.recalling s.notes)) := by
  generalize hnew : Session.ofBytes s.fileName s.cursor.data = new
  have hdata : new.cursor.data = s.cursor.data := by rw [← hnew]; rfl
  rcases Nat.lt_or_ge s.cursor.data.size headerSize with hsmall | hsize
  · rw [readFrom_of_small hsmall, readFrom_of_small (hdata ▸ hsmall)]
    rfl
  cases hfound : container? options.search s.cursor.data with
  | none =>
    rw [readFrom_of_absent hsize hfound, readFrom_of_absent (hdata ▸ hsize) (hdata ▸ hfound)]
    rfl
  | some offset =>
    obtain ⟨order, horder⟩ := exists_magicOrder?_of_isMagicAt (isMagicAt_of_container? hfound)
    rcases Nat.lt_or_ge s.cursor.data.size (offset + 12) with hcut | hfits
    · obtain ⟨t, hused⟩ := readFrom_of_cut hsize hfound hcut
      obtain ⟨u, hfresh⟩ := readFrom_of_cut (hdata ▸ hsize) (hdata ▸ hfound) (hdata ▸ hcut)
      rw [hused, hfresh]
      rfl
    · obtain ⟨declaredSize, codec, hheader⟩ := Holds.exists_header horder hfits
      rw [readFrom_of_header hsize hfound hheader,
        readFrom_of_header (hdata ▸ hsize) (hdata ▸ hfound) (hdata ▸ hheader),
        List.append_assoc, ← hnew, ← settled_onState]
      -- from the header on the two runs differ by the earlier notes alone
      exact congrArg settled
        (blind_readOn options offset (headerBlock offset order declaredSize codec) s.notes
          (opened s.fileName s.cursor.data offset order
            (findingNotes s.cursor.data ++ headerNotes codec)))

end Movie
end Shockwave
