import Cil.Decode.Body
import Cil.Number.Shortest
import Cil.Output.Script
import Cil.Reference.Text

/-! Listings: one line an instruction, with offset, mnemonic and operand. A body is disassembled by
decoding it and printing the listing. -/
namespace Cil

/-- The text of an operand, if it has any. Only a field reference has no printed form. -/
def Operand.text : Operand → Except Error (Option String)
  | none => .ok Option.none
  | int8 v => .ok (Text.integer v.toInt)
  | uint8 v => .ok (Nat.repr v.toNat)
  | int16 v => .ok (Text.integer v.toInt)
  | uint16 v => .ok (Nat.repr v.toNat)
  | int32 v => .ok (Text.integer v.toInt)
  | int64 v => .ok (Text.integer v.toInt)
  | float32 v => .ok v.text
  | float64 v => .ok v.text
  | target offset => .ok (Nat.repr offset)
  | switch offsets => .ok ("(" ++ Text.commaSeparated (offsets.map Nat.repr) ++ ")")
  | string v => .ok (Text.quote v)
  | member v => v.text.map some
  | signature blob => .ok (Text.blob blob)

/-- What an attempt to print a field reference leaves in the log. -/
def FieldRef.notes (f : FieldRef) : List LogRecord := [.fieldReference f.name, .refused .field]

def MemberRef.notes : MemberRef → List LogRecord
  | field f => f.notes
  | _ => []

def Operand.notes : Operand → List LogRecord
  | member v => v.notes
  | _ => []

/-- The line of an instruction, its offset filled up to `width` digits. -/
def Instruction.line (width : Nat) (i : Instruction) : Except Error String := do
  let start := Text.decimal width i.offset ++ ": " ++ i.mnemonic
  match ← i.operand.text with
  | some operand => return start ++ " " ++ operand
  | none => return start

structure ListingOptions where
  /-- Whether an empty line follows each instruction that interrupts straight execution. -/
  separateJumps : Bool
  deriving DecidableEq, Repr

namespace ListingOptions

def separated : ListingOptions := ⟨true⟩

def compact : ListingOptions := ⟨false⟩

end ListingOptions

/-- Whether an instruction interrupts straight execution. Calls come back, so they do not. -/
def Flow.interrupts : Flow → Bool
  | .next | .call => false
  | _ => true

namespace Listing

/-- The number of digits of the largest offset. -/
def offsetWidth (body : List Instruction) : Nat :=
  (Nat.toDigits 10 ((body.map (·.offset)).foldl max 0)).length

/-- The line of one instruction and the empty line after it, if any. -/
def instructionSteps (options : ListingOptions) (width : Nat) (i : Instruction) : List Step :=
  match i.line width with
  | .ok text =>
    .line text :: if options.separateJumps && i.flow.interrupts then [.endLine] else []
  | .error e => i.operand.notes.map .note ++ [.fail e]

def steps (options : ListingOptions) (body : List Instruction) : List Step :=
  body.flatMap (instructionSteps options (offsetWidth body))

/-- A listing on its own, flushed at the end. -/
def script (options : ListingOptions) (body : List Instruction) : List Step :=
  steps options body ++ [.flush]

def text (options : ListingOptions) (body : List Instruction) : Except Error String :=
  Script.text (script options body)

end Listing

section Disassembly

variable (options : ListingOptions) (r : Resolver) (bytes : List UInt8)

def disassemble : Except Error String := do
  let body ← decode r bytes
  Listing.text options body

/-- Disassembles into a sink. Nothing is written unless the whole body decodes. -/
def disassembleTo {σ : Type} [ByteSink σ] (sink : σ) : Except Error Unit × σ :=
  match decode r bytes with
  | .ok body => Script.writeTo (Listing.script options body) sink
  | .error e => (.error e, sink)

/-- What disassembling leaves in the log. -/
def disassembleLog {σ : Type} [ByteSink σ] (sink : σ) : List LogRecord :=
  decodeLog r bytes ++
    match decode r bytes with
    | .ok body => Script.log (Listing.script options body) sink
    | .error _ => []

end Disassembly

end Cil
