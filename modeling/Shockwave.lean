import Shockwave.Bytes.Cursor
import Shockwave.Bytes.Order
import Shockwave.Bytes.Source
import Shockwave.Cast.Member
import Shockwave.Cast.ScriptInfo
import Shockwave.Cast.Scripts
import Shockwave.Compression.Descriptor
import Shockwave.Compression.Identifier
import Shockwave.Compression.Registry
import Shockwave.Inflate.Bits
import Shockwave.Inflate.Block
import Shockwave.Inflate.Code
import Shockwave.Inflate.Zlib
import Shockwave.Lingo.Datum
import Shockwave.Lingo.Decompile
import Shockwave.Lingo.Node
import Shockwave.Lingo.Opcode
import Shockwave.Lingo.Scope
import Shockwave.Lingo.SourceText
import Shockwave.Map.Archived
import Shockwave.Map.Classic
import Shockwave.Map.InitialMap
import Shockwave.Map.KeyTable
import Shockwave.Map.MemoryMap
import Shockwave.Movie.Format
import Shockwave.Movie.Header
import Shockwave.Movie.Read
import Shockwave.Movie.Scopes
import Shockwave.Note
import Shockwave.Number.Binary64
import Shockwave.Number.Decimal
import Shockwave.Proofs.Layout
import Shockwave.Proofs.Quiet
import Shockwave.Proofs.Stream
import Shockwave.Proofs.Survey
import Shockwave.Resource.Container
import Shockwave.Resource.Entry
import Shockwave.Script.Compiled
import Shockwave.Script.Handler
import Shockwave.Script.Index
import Shockwave.Script.Instruction
import Shockwave.Script.Literal
import Shockwave.Script.Names
import Shockwave.Session.Payload
import Shockwave.Session.State
import Shockwave.Tag
import Shockwave.Text.Hex
import Shockwave.Text.Latin1
import Shockwave.Text.Printable
import Shockwave.Text.Quoted
import Shockwave.Proofs.Tiling
import Shockwave.Proofs.Loading
import Shockwave.Proofs.Probing
import Shockwave.Proofs.Opening
import Shockwave.Proofs.RoundTrip
import Shockwave.Proofs.Embedding
import Shockwave.Proofs.Alignment
import Shockwave.Proofs.Grammar
import Shockwave.Proofs.Parsing
import Shockwave.Proofs.Scanning
import Shockwave.Proofs.Printing
import Shockwave.Proofs.Barrier
import Shockwave.Proofs.StraightLine
import Shockwave.Proofs.Calls
import Shockwave.Proofs.Varint
import Shockwave.Proofs.ArchiveLayout
import Shockwave.Proofs.Segments
import Shockwave.Proofs.LimitedReads
import Shockwave.Proofs.LimitedInflation
import Shockwave.Proofs.ArchiveTables
import Shockwave.Proofs.ArchiveReading
import Shockwave.Proofs.ArchiveRoundTrip
import Shockwave.Proofs.PlainStream
import Shockwave.Proofs.Finding
import Shockwave.Proofs.Reopening
import Shockwave.Proofs.Ranges
import Shockwave.Proofs.CheckedScripts
import Shockwave.Proofs.CheckedMovies
import Shockwave.Proofs.Failures
import Shockwave.Proofs.Breaking
import Shockwave.Proofs.ScriptLayout
import Shockwave.Proofs.ScriptReading
import Shockwave.Proofs.Ownership
import Shockwave.Proofs.Whereabouts
import Shockwave.Proofs.Walking
import Shockwave.Proofs.RowTables
import Shockwave.Proofs.Bodies
import Shockwave.Proofs.InfoBlocks
import Shockwave.Proofs.CodeSpans
import Shockwave.Proofs.CodeBytes
import Shockwave.Proofs.Shapes
import Shockwave.Proofs.Lines
import Shockwave.Proofs.LineBreaks
import Shockwave.Proofs.StringLiterals
import Shockwave.Proofs.Words
import Shockwave.Proofs.Lumps
import Shockwave.Proofs.Phrases
import Shockwave.Proofs.Comments
import Shockwave.Proofs.Outlines
import Shockwave.Proofs.Operands
import Shockwave.Proofs.Histories
import Shockwave.Proofs.Slots
import Shockwave.Proofs.FailedReads
import Shockwave.Proofs.ArchivedBodies
import Shockwave.Proofs.NameTables
import Shockwave.Proofs.SevenBits
