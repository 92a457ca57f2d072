import Cil.Number.Binary
import Cil.Text

/-! The shortest decimal that reads back as a given binary number.

The reals that round to `m * 2 ^ q` form an interval around it. On the grid of decimals with one
digit, two digits and so on, the first grid with a point in the interval gives the digits. Of two
points in the interval the nearer one is taken, and the upper one if both are equally near. -/
namespace Cil

/-- The decimal number `±lead.fraction * 10 ^ exponent`, with its digits as characters. -/
structure Scientific where
  negative : Bool
  lead : Char
  fraction : List Char
  exponent : Int
  deriving DecidableEq, Repr

namespace Scientific

def digits (x : Scientific) : List Char := x.lead :: x.fraction

def sign (x : Scientific) : List Char := if x.negative then ['-'] else []

/-- Digits with a point after the first `n` of them, if any follow. -/
def pointed (n : Nat) (digits : List Char) : List Char :=
  if n < digits.length then digits.take n ++ '.' :: digits.drop n else digits

/-- One digit before the point, then `E`, a sign and at least two digits of exponent. -/
def exponential (x : Scientific) : String :=
  String.ofList (x.sign ++ pointed 1 x.digits ++ ['E', if x.exponent < 0 then '-' else '+']) ++
    Text.decimal 2 x.exponent.natAbs

/-- All digits in their places, filled up with zeros as far as the units or the point. -/
def positional (x : Scientific) : String :=
  String.ofList <| x.sign ++
    if x.exponent < 0 then
      '0' :: '.' :: (List.replicate (x.exponent.natAbs - 1) '0' ++ x.digits)
    else
      let places := x.exponent.natAbs + 1
      pointed places x.digits ++ List.replicate (places - x.digits.length) '0'

/-- Positional from four zeros after the point up to `places` digits before it, exponential
beyond. -/
def text (places : Nat) (x : Scientific) : String :=
  if places ≤ x.exponent ∨ x.exponent < -4 then x.exponential else x.positional

end Scientific

end Cil

namespace Cil.Magnitude

/-- `x / y` for the value and the two ends of the interval, all with the denominator `y`. The ends
themselves round to the value exactly if its mantissa is even. -/
structure Interval where
  low : Nat
  mid : Nat
  high : Nat
  denominator : Nat
  closed : Bool
  deriving Repr

/-- The interval of reals that round to `m`, in quarters of the gap above it. -/
def interval (m : Magnitude) : Interval :=
  let scale := Nat.pow 2 (m.exponent - 2).toNat
  { low := (4 * m.mantissa - if m.narrowBelow then 1 else 2) * scale
    mid := 4 * m.mantissa * scale
    high := (4 * m.mantissa + 2) * scale
    denominator := Nat.pow 2 (2 - m.exponent).toNat
    closed := m.mantissa % 2 = 0 }

namespace Interval

/-- The exponent `e` with `10 ^ e ≤ mid / denominator < 10 ^ (e + 1)`, for a positive value. -/
def decimalExponent (i : Interval) : Int :=
  if i.denominator ≤ i.mid then
    (Nat.toDigits 10 (i.mid / i.denominator)).length - 1
  else
    -((Nat.toDigits 10 ((i.denominator - 1) / i.mid)).length : Int)

/-- Whether `k * 10 ^ e` lies in the interval. -/
def contains (i : Interval) (k : Nat) (e : Int) : Bool :=
  let x := k * Nat.pow 10 e.toNat * i.denominator
  let unit := Nat.pow 10 (-e).toNat
  if i.closed then i.low * unit ≤ x && x ≤ i.high * unit
  else i.low * unit < x && x < i.high * unit

/-- The last multiple of `10 ^ e` up to the value. -/
def floor (i : Interval) (e : Int) : Nat :=
  i.mid * Nat.pow 10 (-e).toNat / (i.denominator * Nat.pow 10 e.toNat)

/-- Whether the value lies below the middle between `k * 10 ^ e` and the next multiple. -/
def belowMiddle (i : Interval) (k : Nat) (e : Int) : Bool :=
  2 * i.mid * Nat.pow 10 (-e).toNat < (2 * k + 1) * Nat.pow 10 e.toNat * i.denominator

/-- The multiple of `10 ^ e` nearest to the value among its two neighbours in the interval. -/
def nearest? (i : Interval) (e : Int) : Option Nat :=
  let k := i.floor e
  match i.contains k e, i.contains (k + 1) e with
  | true, true => some (if i.belowMiddle k e then k else k + 1)
  | true, false => some k
  | false, true => some (k + 1)
  | false, false => none

/-- Tries the grids from `10 ^ e` down, `steps` of them at most; the last one is cut off. -/
def search (i : Interval) : (steps : Nat) → (e : Int) → Nat × Int
  | 0, e => (i.floor e, e)
  | steps + 1, e =>
    match i.nearest? e with
    | some k => (k, e)
    | none => search i steps (e - 1)

end Interval

/-- The number of digits that suffices for every number of both formats. -/
def enoughDigits : Nat := 17

/-- The shortest decimal that reads back as `m`, in scientific form. -/
def shortest (negative : Bool) (m : Magnitude) : Scientific :=
  if m.mantissa = 0 then ⟨negative, '0', [], 0⟩
  else
    let i := m.interval
    let (k, e) := i.search enoughDigits i.decimalExponent
    let digits := Nat.toDigits 10 k
    let significant := (digits.reverse.dropWhile (· = '0')).reverse
    ⟨negative, significant.headD '0', significant.tail, e + digits.length - 1⟩

end Cil.Magnitude

namespace Cil

/-- The text of a floating-point literal; `places` bounds the digits written before the point. -/
def BinaryValue.text (places : Nat) : BinaryValue → String
  | nan => "NaN"
  | infinite true => "-Infinity"
  | infinite false => "Infinity"
  | finite negative magnitude => (magnitude.shortest negative).text places

/-- Single-precision literals are positional below `10 ^ 7`. -/
def Binary32.text (x : Binary32) : String := x.value.text 7

/-- Double-precision literals are positional below `10 ^ 15`. -/
def Binary64.text (x : Binary64) : String := x.value.text 15

end Cil
