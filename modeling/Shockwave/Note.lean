import Shockwave.Cast.ScriptInfo
import Shockwave.Compression.Descriptor
import Shockwave.Text.Hex

/-!
Notes on what was met while a movie was read. They change no result; each has a level and a text.
-/
namespace Shockwave

inductive Level where
  | debug
  | warning
  deriving DecidableEq, Repr

inductive Note where
  | projectorOffset (marker : Tag) (offset : Nat)
  | projectorWithoutMovie
  | unknownCodec (codec : Tag)
  | containerFound (file : String) (offset : Nat) (codec : Tag) (size : UInt32)
  | movieMapped (file label : String) (archiveVersion : UInt32) (resources : Nat)
  | initialMap (mapVersion archiveVersion offset : UInt32)
  | initialMapCut (pos : Nat) (cause : ReadError)
  | memoryMapUnreadable (pos : Nat) (cause : ReadError)
  | keyTableUnreadable (pos : Nat) (cause : ReadError)
  | memoryRowsCut (declared read : Nat)
  | keyRowsCut (declared read : Nat)
  | memoryMapFound (offset : Nat)
  | memoryMapAbsent (offset : Nat)
  | entryTwice (id : Int32) (tag : Tag)
  | versionLength (declared read : Nat)
  | descriptor (index : Nat) (kind : Compression) (name : String)
  | descriptorTwice (index : Nat)
  | descriptorUnnamed (index : Nat)
  | descriptorsFollowed (bytes : Nat)
  | archiveLength (expected got : Nat)
  | archiveRows (count : UInt32)
  | segmentIdCut (cause : ReadError)
  | segmentUnmapped (id : Int32)
  | segmentCut (id : Int32) (cause : ReadError)
  | chunkMismatch (id : Int32) (tag : Tag) (offset : Nat)
  | payloadCut (id : Int32) (tag : Tag) (cause : ReadError)
  | payloadAbsent (id : Int32) (tag : Tag) (offset : UInt32)
  | notArchived (id : Int32)
  | segmentAbsent (id : Int32)
  | inflatedLength (id : Int32) (expected got : Nat)
  | inflateFailed (id : Int32) (cause : ReadError)
  | noTransform (id : Int32) (compression : Nat) (kind : Option Compression)
  | memberUnreadable (id : Int32) (cause : ReadError)
  | memberWithoutScript (id : Int32)
  | scriptEmpty (id : Int32)
  | infoAmbiguous (layout : InfoLayout)
  | indexUnreadable (tag : Tag) (id : Int32) (cause : ReadError)
  | indexRowsCut (declared read : Nat)
  | namesUnreadable (id : Int32) (cause : ReadError)
  | namesAlone (id : Int32)
  | scriptUnreadable (id : Int32) (cause : ReadError)
  | argumentsShort (wanted available : Nat)
  | literalAbsent (index count : Nat)
  | noCounterpart (op : UInt8) (pos : Nat)
  deriving DecidableEq, Repr

namespace Note

def level : Note → Level
  | .projectorWithoutMovie | .unknownCodec _ | .initialMapCut .. | .memoryMapUnreadable ..
  | .keyTableUnreadable .. | .memoryRowsCut .. | .keyRowsCut .. | .memoryMapAbsent _
  | .entryTwice .. | .descriptorTwice _ | .descriptorUnnamed _ | .descriptorsFollowed _
  | .archiveLength .. | .segmentIdCut _ | .segmentUnmapped _ | .segmentCut .. | .payloadCut ..
  | .payloadAbsent .. | .notArchived _ | .segmentAbsent _ | .inflatedLength .. | .inflateFailed ..
  | .memberUnreadable .. | .indexUnreadable .. | .namesUnreadable .. | .scriptUnreadable .. => .warning
  | _ => .debug

/-- A scheme as an optional value is written. -/
def schemeText : Option Compression → String
  | some kind => "Some(" ++ kind.name ++ ")"
  | none => "None"

def message : Note → String
  | .projectorOffset marker offset => s!"Projector {marker.text} points at movie offset {offset}"
  | .projectorWithoutMovie => "Projector header has no valid movie offset, scanning for magic"
  | .unknownCodec codec => s!"Unknown movie codec '{codec.text}'"
  | .containerFound file offset codec size =>
    s!"{file}: container at {offset}, codec {codec.text}, {size} payload bytes"
  | .movieMapped file label archiveVersion resources =>
    s!"{file}: {label} ({Hex.number archiveVersion.toNat}), {resources} resources"
  | .initialMap mapVersion archiveVersion offset =>
    s!"imap: map version {mapVersion} archive version {Hex.number archiveVersion.toNat} mmap at {offset}"
  | .initialMapCut pos cause => s!"imap at {pos} is truncated: {cause.message}"
  | .memoryMapUnreadable pos cause => s!"mmap at {pos} is unreadable: {cause.message}"
  | .keyTableUnreadable pos cause => s!"KEY* at {pos} is unreadable: {cause.message}"
  | .memoryRowsCut declared read =>
    s!"mmap declares {declared} rows but only {read} fit in the chunk"
  | .keyRowsCut declared read => s!"KEY* declares {declared} rows but only {read} fit"
  | .memoryMapFound offset => s!"mmap found through imap at {offset}"
  | .memoryMapAbsent offset => s!"imap points at {offset} but no mmap chunk is there"
  | .entryTwice id tag =>
    s!"Resource {id.toInt} ('{tag.text}') registered twice, keeping the latest row"
  | .versionLength declared read => s!"Fver declares {declared} bytes but {read} were read"
  | .descriptor index kind name => s!"Compression {index}: {kind.name} \"{name}\""
  | .descriptorTwice index => s!"Compression index {index} registered twice"
  | .descriptorUnnamed index => s!"Fcdr: descriptor {index} has no name"
  | .descriptorsFollowed bytes => s!"Fcdr: {bytes} trailing bytes"
  | .archiveLength expected got => s!"ABMP: expected uncompressed length {expected} but got {got}"
  | .archiveRows count => s!"ABMP: {count} resources"
  | .segmentIdCut cause => s!"ILS: truncated record id: {cause.message}"
  | .segmentUnmapped id => s!"ILS: resource {id.toInt} is not in the map"
  | .segmentCut id cause => s!"ILS: resource {id.toInt} is truncated: {cause.message}"
  | .chunkMismatch id tag offset =>
    s!"Resource {id.toInt} ('{tag.text}'): no matching chunk at {offset}"
  | .payloadCut id tag cause => s!"Resource {id.toInt} ('{tag.text}') is truncated: {cause.message}"
  | .payloadAbsent id tag offset =>
    s!"Resource {id.toInt} ('{tag.text}') could not be located at offset {offset}"
  | .notArchived id => s!"Resource {id.toInt} has no Afterburner location"
  | .segmentAbsent id => s!"Resource {id.toInt} is inline but missing from the ILS"
  | .inflatedLength id expected got =>
    s!"Resource {id.toInt}: expected {expected} bytes after inflate but got {got}"
  | .inflateFailed id cause => s!"Resource {id.toInt}: inflate failed: {cause.message}"
  | .noTransform id compression kind =>
    s!"Resource {id.toInt}: no transform for compression {compression} ({schemeText kind})"
  | .memberUnreadable id cause => s!"Cast member {id.toInt} is unreadable: {cause.message}"
  | .memberWithoutScript id => s!"Script member {id.toInt} has no Lscr"
  | .scriptEmpty id => s!"Lscr {id.toInt} has no payload, skipping"
  | .infoAmbiguous layout => s!"Script info decodes under both layouts, using {layout.name}"
  | .indexUnreadable tag id cause => s!"{tag.text} {id.toInt} is unreadable: {cause.message}"
  | .indexRowsCut declared read => s!"Lctx lists {declared} scripts but only {read} are present"
  | .namesUnreadable id cause => s!"Lnam {id.toInt} is unreadable: {cause.message}"
  | .namesAlone id => s!"No script context, using Lnam {id.toInt} alone"
  | .scriptUnreadable id cause => s!"Lscr {id.toInt} could not be parsed: {cause.message}"
  | .argumentsShort wanted available =>
    s!"Argument list of {wanted} with {available} values on the stack"
  | .literalAbsent index count => s!"Literal {index} is out of range ({count} literals)"
  | .noCounterpart op pos => s!"No translation for opcode {Hex.byte op} at {pos}"

end Note

/-- What there is to say about a detected layout. -/
def ScriptInfo.notes (detected : ScriptInfo × Bool) : List Note :=
  if detected.2 then [.infoAmbiguous detected.1.layout] else []

end Shockwave
