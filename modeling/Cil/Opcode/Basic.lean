/-! Opcodes of the Common Intermediate Language: their operands and their effect on control flow. -/
namespace Cil

/-- The shape of the operand that follows an opcode. -/
inductive OperandKind where
  | none
  | int8
  | uint8
  | int16
  | int32
  | int64
  | float32
  | float64
  | shortBranch
  | longBranch
  | switch
  | type
  | method
  | field
  | tok
  | signature
  | string
  | localIndex
  deriving DecidableEq, Repr

namespace OperandKind

def all : List OperandKind :=
  [none, int8, uint8, int16, int32, int64, float32, float64, shortBranch, longBranch, switch,
    type, method, field, tok, signature, string, localIndex]

/-- The encoded size in bytes. A jump table has none: its size depends on its number of cases. -/
def size? : OperandKind → Option Nat
  | none => some 0
  | int8 | uint8 | shortBranch => some 1
  | int16 | localIndex => some 2
  | int32 | float32 | longBranch | type | method | field | tok | signature | string => some 4
  | int64 | float64 => some 8
  | switch => Option.none

end OperandKind

/-- What an opcode does to the flow of control. -/
inductive Flow where
  | next
  | branch
  | conditional
  | call
  | returns
  | throws
  | modifier
  | breakpoint
  deriving DecidableEq, Repr

def Flow.all : List Flow :=
  [.next, .branch, .conditional, .call, .returns, .throws, .modifier, .breakpoint]

/-- The first byte of every two-byte opcode. -/
def extendedMark : UInt8 := 0xFE

/-- A one-byte opcode has its byte as value, a two-byte one `0xFE00` plus its second byte. -/
structure Opcode where
  name : String
  value : UInt16
  operand : OperandKind
  flow : Flow
  deriving DecidableEq, Repr

namespace Opcode

def isExtended (o : Opcode) : Bool := 0xFF < o.value

/-- The number of bytes of the opcode itself. -/
def size (o : Opcode) : Nat := if o.isExtended then 2 else 1

/-- Whether the opcode only modifies the instruction after it. -/
def isModifier (o : Opcode) : Bool := o.flow = .modifier

end Opcode

end Cil
