import Cil.Number.Binary

/-! Fixed-width values as little-endian bytes. -/
namespace Cil

/-- The number with the given base-256 digits, lowest first. -/
def littleEndian : List UInt8 → Nat
  | [] => 0
  | b :: bs => b.toNat + 256 * littleEndian bs

/-- The lowest `width` base-256 digits of a number, lowest first. -/
def littleEndianBytes : (width : Nat) → Nat → List UInt8
  | 0, _ => []
  | width + 1, n => UInt8.ofNat n :: littleEndianBytes width (n / 256)

/-- The fixed-width types that a body contains. -/
inductive Scalar where
  | u8
  | i8
  | u16
  | i16
  | u32
  | i32
  | u64
  | i64
  | f32
  | f64
  deriving DecidableEq, Repr

namespace Scalar

abbrev Value : Scalar → Type
  | u8 => UInt8
  | i8 => Int8
  | u16 => UInt16
  | i16 => Int16
  | u32 => UInt32
  | i32 => Int32
  | u64 => UInt64
  | i64 => Int64
  | f32 => Binary32
  | f64 => Binary64

/-- The number of bytes of a value. -/
def width : Scalar → Nat
  | u8 | i8 => 1
  | u16 | i16 => 2
  | u32 | i32 | f32 => 4
  | u64 | i64 | f64 => 8

/-- The value with the given bit pattern; signed types read it as two's complement. -/
def ofPattern : (s : Scalar) → Nat → s.Value
  | u8, n => UInt8.ofNat n
  | i8, n => (UInt8.ofNat n).toInt8
  | u16, n => UInt16.ofNat n
  | i16, n => (UInt16.ofNat n).toInt16
  | u32, n => UInt32.ofNat n
  | i32, n => (UInt32.ofNat n).toInt32
  | u64, n => UInt64.ofNat n
  | i64, n => (UInt64.ofNat n).toInt64
  | f32, n => ⟨UInt32.ofNat n⟩
  | f64, n => ⟨UInt64.ofNat n⟩

/-- The bit pattern of a value. -/
def toPattern : (s : Scalar) → s.Value → Nat
  | u8, v => UInt8.toNat v
  | i8, v => (Int8.toUInt8 v).toNat
  | u16, v => UInt16.toNat v
  | i16, v => (Int16.toUInt16 v).toNat
  | u32, v => UInt32.toNat v
  | i32, v => (Int32.toUInt32 v).toNat
  | u64, v => UInt64.toNat v
  | i64, v => (Int64.toUInt64 v).toNat
  | f32, v => (Binary32.bits v).toNat
  | f64, v => (Binary64.bits v).toNat

def ofBytes (s : Scalar) (bytes : List UInt8) : s.Value := s.ofPattern (littleEndian bytes)

def toBytes (s : Scalar) (v : s.Value) : List UInt8 := littleEndianBytes s.width (s.toPattern v)

end Scalar

end Cil
