import Cil.Number.Binary
import Cil.Opcode.Table
import Cil.Reference.Basic

/-! Decoded instructions. -/
namespace Cil

/-- An operand after decoding: branch displacements have become offsets in the body and tokens
what they refer to. -/
inductive Operand where
  | none
  | int8 (value : Int8)
  | uint8 (value : UInt8)
  | int16 (value : Int16)
  | uint16 (value : UInt16)
  | int32 (value : Int32)
  | int64 (value : Int64)
  | float32 (value : Binary32)
  | float64 (value : Binary64)
  | target (offset : Nat)
  | switch (offsets : List Nat)
  | string (value : String)
  | member (value : MemberRef)
  | signature (blob : List UInt8)
  deriving DecidableEq, Repr

namespace Operand

def isNone : Operand → Bool
  | none => true
  | _ => false

/-- The offsets that control may be transferred to. -/
def targets : Operand → List Nat
  | target offset => [offset]
  | switch offsets => offsets
  | _ => []

/-- Whether two operands denote the same value; floating-point numbers compare as numbers. -/
def sameValue : Operand → Operand → Bool
  | float32 x, float32 y => x.value.sameNumber y.value
  | float64 x, float64 y => x.value.sameNumber y.value
  | a, b => a == b

end Operand

/-- An instruction at an offset of a body, taking up `size` bytes there. -/
structure Instruction where
  offset : Nat
  size : Nat
  opcode : Opcode
  operand : Operand
  deriving DecidableEq, Repr

namespace Instruction

def mnemonic (i : Instruction) : String := i.opcode.name

def flow (i : Instruction) : Flow := i.opcode.flow

/-- The offset just after the instruction. -/
def nextOffset (i : Instruction) : Nat := i.offset + i.size

def branchTargets (i : Instruction) : List Nat := i.operand.targets

/-- Whether control never reaches the instruction after this one. -/
def isTerminal (i : Instruction) : Bool :=
  match i.flow with
  | .branch | .returns | .throws => true
  | _ => false

def sameValue (i j : Instruction) : Bool :=
  i.offset == j.offset && i.size == j.size && i.opcode == j.opcode &&
    i.operand.sameValue j.operand

end Instruction

end Cil
