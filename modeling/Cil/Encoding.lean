import Cil.Instruction
import Cil.Resolver
import Cil.Scalar

/-! Instructions with their tokens still in place, and the bytes they are encoded in. -/
namespace Cil

/-- An operand as it is encoded, except that branches name the offset they lead to. -/
inductive RawOperand where
  | none
  | int8 (value : Int8)
  | uint8 (value : UInt8)
  | int16 (value : Int16)
  | uint16 (value : UInt16)
  | int32 (value : Int32)
  | int64 (value : Int64)
  | float32 (value : Binary32)
  | float64 (value : Binary64)
  | target (offset : Nat)
  | switch (offsets : List Nat)
  | token (token : Token)
  deriving DecidableEq, Repr

structure RawInstruction where
  opcode : Opcode
  operand : RawOperand
  deriving DecidableEq, Repr

/-- The one or two bytes of an opcode. -/
def Opcode.bytes (o : Opcode) : List UInt8 :=
  if o.isExtended then [extendedMark, o.value.toUInt8] else [o.value.toUInt8]

namespace RawOperand

/-- Whether the operand has the shape that its opcode prescribes. -/
def hasShape : RawOperand → OperandKind → Bool
  | none, .none | int8 _, .int8 | uint8 _, .uint8 | int16 _, .int16 | uint16 _, .localIndex
  | int32 _, .int32 | int64 _, .int64 | float32 _, .float32 | float64 _, .float64
  | target _, .shortBranch | target _, .longBranch | switch _, .switch
  | token _, .type | token _, .method | token _, .field | token _, .tok
  | token _, .string | token _, .signature => true
  | _, _ => false

/-- The number of bytes of an operand of the given kind. -/
def size (kind : OperandKind) : RawOperand → Nat
  | switch offsets => 4 + 4 * offsets.length
  | _ => kind.size?.getD 0

/-- The bytes of an operand of the given kind. Displacements count from `next`, the offset after
the instruction. -/
def bytes (kind : OperandKind) (next : Nat) : RawOperand → List UInt8
  | none => []
  | int8 v => Scalar.i8.toBytes v
  | uint8 v => Scalar.u8.toBytes v
  | int16 v => Scalar.i16.toBytes v
  | uint16 v => Scalar.u16.toBytes v
  | int32 v => Scalar.i32.toBytes v
  | int64 v => Scalar.i64.toBytes v
  | float32 v => Scalar.f32.toBytes v
  | float64 v => Scalar.f64.toBytes v
  | target offset =>
    match kind with
    | .shortBranch => Scalar.i8.toBytes (Int8.ofInt (offset - next))
    | _ => Scalar.i32.toBytes (Int32.ofInt (offset - next))
  | switch offsets =>
    Scalar.u32.toBytes (UInt32.ofNat offsets.length) ++
      offsets.flatMap fun (offset : Nat) => Scalar.i32.toBytes (Int32.ofInt (offset - next))
  | token t => Scalar.u32.toBytes t.raw

/-- Replaces a token by what it refers to, in the lookup that belongs to the kind. -/
def resolve (r : Resolver) (kind : OperandKind) : RawOperand → Except ResolutionError Operand
  | none => .ok .none
  | int8 v => .ok (.int8 v)
  | uint8 v => .ok (.uint8 v)
  | int16 v => .ok (.int16 v)
  | uint16 v => .ok (.uint16 v)
  | int32 v => .ok (.int32 v)
  | int64 v => .ok (.int64 v)
  | float32 v => .ok (.float32 v)
  | float64 v => .ok (.float64 v)
  | target offset => .ok (.target offset)
  | switch offsets => .ok (.switch offsets)
  | token t =>
    match kind with
    | .string => (r.string t).map .string
    | .signature => (r.signature t).map .signature
    | _ => (r.member t).map .member

end RawOperand

namespace RawInstruction

def size (i : RawInstruction) : Nat := i.opcode.size + i.operand.size i.opcode.operand

/-- The bytes of an instruction that starts at `offset`. -/
def bytesAt (offset : Nat) (i : RawInstruction) : List UInt8 :=
  i.opcode.bytes ++ i.operand.bytes i.opcode.operand (offset + i.size)

/-- The instruction that starts at `offset`, its token replaced by what it refers to. -/
def resolveAt (r : Resolver) (offset : Nat) (i : RawInstruction) :
    Except ResolutionError Instruction := do
  return ⟨offset, i.size, i.opcode, ← i.operand.resolve r i.opcode.operand⟩

end RawInstruction

/-- The bytes of a body laid out back to back from `offset` on. -/
def encodeFrom : (offset : Nat) → List RawInstruction → List UInt8
  | _, [] => []
  | offset, i :: body => i.bytesAt offset ++ encodeFrom (offset + i.size) body

/-- The instructions of a body laid out back to back from `offset` on. -/
def resolveFrom (r : Resolver) :
    (offset : Nat) → List RawInstruction → Except ResolutionError (List Instruction)
  | _, [] => .ok []
  | offset, i :: body => do
    return (← i.resolveAt r offset) :: (← resolveFrom r (offset + i.size) body)

/-- The bytes of a whole body. -/
def encode (body : List RawInstruction) : List UInt8 := encodeFrom 0 body

end Cil
