import Cil.Cursor
import Cil.Instruction
import Cil.Resolver

/-! Decoding one instruction.

A step that fails leaves the cursor where its last successful read left it. Every error of an
instruction carries the offset at which the instruction starts. -/
namespace Cil

namespace Decode

variable {α β : Type}

/-- Reads a value of the instruction that starts at `offset`. -/
def fetch (s : Scalar) (offset : Nat) : DecodeM s.Value := Cursor.readOr (.truncated offset) s

def recognize (offset : Nat) (value : UInt16) : Option Opcode → DecodeM Opcode
  | some o => return o
  | none => throw (.unknownOpcode offset value)

def readOpcode (offset : Nat) : DecodeM Opcode := do
  let first ← fetch .u8 offset
  if first = extendedMark then
    let second ← fetch .u8 offset
    recognize offset (Opcode.extendedValue second) (Opcode.ofSecondByte? second)
  else
    recognize offset first.toUInt16 (Opcode.ofByte? first)

/-- The offset `base + displacement`, unless it lies before the body. -/
def branchTarget (offset base : Nat) (displacement : Int) : DecodeM Nat :=
  let target := base + displacement
  if target < 0 then throw (.invalidTarget offset target) else return target.toNat

/-- Reads the targets of `count` cases, each relative to `base`. -/
def readCases (offset base : Nat) : (count : Nat) → DecodeM (List Nat)
  | 0 => return []
  | count + 1 => do
    let displacement ← fetch .i32 offset
    let target ← branchTarget offset base displacement.toInt
    return target :: (← readCases offset base count)

/-- Reads a jump table. It has to be there in full before any case is looked at. -/
def readSwitch (offset : Nat) : DecodeM (List Nat) := do
  let count ← fetch .u32 offset
  let c ← get
  let tableSize := 4 * count.toNat
  if c.remaining < tableSize then throw (.truncated offset)
  else readCases offset (c.pos + tableSize) count.toNat

/-- Reads a token and looks it up. -/
def readToken (offset : Nat) (lookup : Token → Except ResolutionError α) : DecodeM α := do
  let token : Token := ⟨← fetch .u32 offset⟩
  match lookup token with
  | .ok a => return a
  | .error source => throw (.unresolvedToken offset token source)

def readBranch (offset : Nat) (displacement : Int) : DecodeM Operand := do
  return .target (← branchTarget offset (← get).pos displacement)

def readOperand (r : Resolver) (offset : Nat) : OperandKind → DecodeM Operand
  | .none => return .none
  | .int8 => return .int8 (← fetch .i8 offset)
  | .uint8 => return .uint8 (← fetch .u8 offset)
  | .int16 => return .int16 (← fetch .i16 offset)
  | .localIndex => return .uint16 (← fetch .u16 offset)
  | .int32 => return .int32 (← fetch .i32 offset)
  | .int64 => return .int64 (← fetch .i64 offset)
  | .float32 => return .float32 (← fetch .f32 offset)
  | .float64 => return .float64 (← fetch .f64 offset)
  | .shortBranch => do
    let displacement ← fetch .i8 offset
    readBranch offset displacement.toInt
  | .longBranch => do
    let displacement ← fetch .i32 offset
    readBranch offset displacement.toInt
  | .switch => return .switch (← readSwitch offset)
  | .type | .method | .field | .tok => return .member (← readToken offset r.member)
  | .string => return .string (← readToken offset r.string)
  | .signature => return .signature (← readToken offset r.signature)

/-- Decodes the instruction at the cursor. Its branch targets are not checked yet. -/
def instruction (r : Resolver) : DecodeM Instruction := do
  let offset := (← get).pos
  let opcode ← readOpcode offset
  let operand ← readOperand r offset opcode.operand
  return ⟨offset, (← get).pos - offset, opcode, operand⟩

end Decode

end Cil
