/-! Binary floating-point numbers, kept as the bit patterns that bodies contain. -/
namespace Cil

/-- A binary floating-point format, given by the widths of its two fields. -/
structure BinaryFormat where
  fractionBits : Nat
  exponentBits : Nat
  deriving DecidableEq, Repr

/-- The number `mantissa * 2 ^ exponent`. The next smaller number of the format is nearer than the
next larger one if `narrowBelow` holds. -/
structure Magnitude where
  mantissa : Nat
  exponent : Int
  narrowBelow : Bool
  deriving DecidableEq, Repr

inductive BinaryValue where
  | nan
  | infinite (negative : Bool)
  | finite (negative : Bool) (magnitude : Magnitude)
  deriving DecidableEq, Repr

/-- Equality of numbers: nothing equals a NaN, and the two zeros are equal. -/
def BinaryValue.sameNumber : BinaryValue → BinaryValue → Bool
  | infinite s, infinite t => s == t
  | finite s m, finite t n => m == n && (s == t || m.mantissa == 0)
  | _, _ => false

namespace BinaryFormat

def single : BinaryFormat := ⟨23, 8⟩

def double : BinaryFormat := ⟨52, 11⟩

/-- Reads a bit pattern: sign, biased exponent and fraction, from the highest bit down. -/
def value (f : BinaryFormat) (bits : Nat) : BinaryValue :=
  let hidden := Nat.pow 2 f.fractionBits
  let fraction := bits % hidden
  let biased := bits / hidden % Nat.pow 2 f.exponentBits
  let negative := bits.testBit (f.fractionBits + f.exponentBits)
  let lowest : Int := 2 - Nat.pow 2 (f.exponentBits - 1) - f.fractionBits
  if biased + 1 = Nat.pow 2 f.exponentBits then
    if fraction = 0 then .infinite negative else .nan
  else if biased = 0 then
    .finite negative ⟨fraction, lowest, false⟩
  else
    .finite negative
      ⟨hidden + fraction, lowest + biased - 1, fraction == 0 && 1 < biased⟩

end BinaryFormat

/-- A single-precision number as its bit pattern. -/
structure Binary32 where
  bits : UInt32
  deriving DecidableEq, Repr

def Binary32.value (x : Binary32) : BinaryValue := BinaryFormat.single.value x.bits.toNat

/-- A double-precision number as its bit pattern. -/
structure Binary64 where
  bits : UInt64
  deriving DecidableEq, Repr

def Binary64.value (x : Binary64) : BinaryValue := BinaryFormat.double.value x.bits.toNat

end Cil
