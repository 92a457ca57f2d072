import Cil.Attributes
import Cil.Cursor
import Cil.Declaration.Basic
import Cil.Declaration.Script
import Cil.Decode.Body
import Cil.Decode.Instruction
import Cil.Decode.Progress
import Cil.Encoding
import Cil.Error
import Cil.Instruction
import Cil.Listing
import Cil.Log
import Cil.Number.Binary
import Cil.Number.Shortest
import Cil.Opcode.Basic
import Cil.Opcode.Table
import Cil.Output.Script
import Cil.Output.Writer
import Cil.Proofs.Body
import Cil.Proofs.ControlFlow
import Cil.Proofs.ErrorOrder
import Cil.Proofs.Instruction
import Cil.Proofs.Layout
import Cil.Proofs.LittleEndian
import Cil.Proofs.OffsetSet
import Cil.Proofs.OpcodeTable
import Cil.Proofs.Reading
import Cil.Proofs.RoundTrip
import Cil.Proofs.WellFormed
import Cil.Reference.Basic
import Cil.Reference.Text
import Cil.Resolver
import Cil.Scalar
import Cil.Text
import Cil.Proofs.Relocation
import Cil.Proofs.Concatenation
import Cil.Proofs.Truncation
import Cil.Proofs.Numeral
import Cil.Proofs.OneLine
import Cil.Proofs.ListingBytes
import Cil.Proofs.Resolution
import Cil.Proofs.ScriptText
import Cil.Proofs.DeclarationText
import Cil.Proofs.Refusal
import Cil.Proofs.Indentation
import Cil.Proofs.Composition
import Cil.Proofs.BoundedSink
import Cil.Proofs.CursorHistory
import Cil.Proofs.TypeNotation
import Cil.Proofs.MethodNotation
import Cil.Proofs.ListingLayout
import Cil.Proofs.PartialListing
import Cil.Proofs.DecimalLayout
import Cil.Proofs.LineModel
import Cil.Proofs.QuotedText
import Cil.Proofs.ReadingAt
import Cil.Proofs.FailurePosition
import Cil.Proofs.BranchTargets
import Cil.Proofs.WordArithmetic
import Cil.Proofs.Registration
import Cil.Proofs.BlobText
