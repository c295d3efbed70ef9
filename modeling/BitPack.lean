import BitPack.Batch
import BitPack.BitList
import BitPack.BitText
import BitPack.Bits
import BitPack.Bytes
import BitPack.Chunking
import BitPack.CommandLine.Commands
import BitPack.CommandLine.Grammar
import BitPack.CommandLine.Run
import BitPack.CommandLine.Usage
import BitPack.Decimal
import BitPack.Error
import BitPack.Event
import BitPack.FieldError
import BitPack.FieldLibrary
import BitPack.Json
import BitPack.Json.Parser
import BitPack.Main
import BitPack.Params
import BitPack.Params.Fields
import BitPack.Params.IntegerText
import BitPack.Params.Reading
import BitPack.Proofs.Arguments
import BitPack.Proofs.AtomicWrites
import BitPack.Proofs.BlockZigzag
import BitPack.Proofs.Checks
import BitPack.Proofs.ChunkCounts
import BitPack.Proofs.CommandFailures
import BitPack.Proofs.CommandRoundTrip
import BitPack.Proofs.Commands
import BitPack.Proofs.CutCodes
import BitPack.Proofs.CutSequences
import BitPack.Proofs.DecodingLoop
import BitPack.Proofs.FaithfulSink
import BitPack.Proofs.FaithfulSource
import BitPack.Proofs.FieldCode
import BitPack.Proofs.Fields
import BitPack.Proofs.Handover
import BitPack.Proofs.HexText
import BitPack.Proofs.JsonText
import BitPack.Proofs.ListReader
import BitPack.Proofs.ListWriter
import BitPack.Proofs.NumeralText
import BitPack.Proofs.Packing
import BitPack.Proofs.PlainZigzag
import BitPack.Proofs.PrefixFree
import BitPack.Proofs.RawCalls
import BitPack.Proofs.RawReads
import BitPack.Proofs.ReadFailures
import BitPack.Proofs.ReaderAhead
import BitPack.Proofs.Redundancy
import BitPack.Proofs.Replay
import BitPack.Proofs.Runs
import BitPack.Proofs.SequenceFailures
import BitPack.Proofs.Sequences
import BitPack.Proofs.Sessions
import BitPack.Proofs.Simulation
import BitPack.Proofs.Sizes
import BitPack.Proofs.SoftEnd
import BitPack.Proofs.Spelling
import BitPack.Proofs.Stopping
import BitPack.Proofs.StoredParams
import BitPack.Proofs.TextConversions
import BitPack.Proofs.TrailingZeros
import BitPack.Proofs.UncheckedWords
import BitPack.Proofs.Widening
import BitPack.Proofs.WordSizes
import BitPack.Proofs.WriterContents
import BitPack.Proofs.WrittenOptions
import BitPack.Proofs.Zigzag
import BitPack.Reader
import BitPack.Segment
import BitPack.Session
import BitPack.Sink
import BitPack.Sizing
import BitPack.Source
import BitPack.Text.Blank
import BitPack.Text.Digit
import BitPack.Text.Hex
import BitPack.Text.HexDigit
import BitPack.Text.Numeral
import BitPack.Text.Printable
import BitPack.Text.Quoted
import BitPack.Width
import BitPack.Writer
import BitPack.Zigzag
