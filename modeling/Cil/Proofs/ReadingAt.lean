import Mathlib
import Cil.Proofs.LittleEndian

/-! Reading values at an offset: when a read succeeds and what it gives, with offsets of any size and
with offsets of 64 bits, and what many reads in a row give. -/
namespace Cil

variable {s : Scalar} {bytes rest : List UInt8} {offset n : Nat}

theorem littleEndian_eq_sum (bytes : List UInt8) :
    littleEndian bytes = ∑ i ∈ Finset.range bytes.length, (bytes.getD i 0).toNat * 256 ^ i := by
  induction bytes with
  | nil => rfl
  | cons b bytes ih =>
    have hstep : ∀ i ∈ Finset.range bytes.length,
        256 * ((bytes.getD i 0).toNat * 256 ^ i) =
          ((b :: bytes).getD (i + 1) 0).toNat * 256 ^ (i + 1) := by
      intro i _
      rw [List.getD_cons_succ, Nat.pow_succ']
      ring
    rw [littleEndian, ih, List.length_cons, Finset.sum_range_succ', Finset.mul_sum,
      Finset.sum_congr rfl hstep, List.getD_cons_zero]
    ring

namespace Scalar

/-- Whether the values of a type can be negative. -/
def isSigned : Scalar → Bool
  | i8 | i16 | i32 | i64 => true
  | u8 | u16 | u32 | u64 | f32 | f64 => false

/-- The number that a value is. A floating-point value counts as its bit pattern. -/
def number : (s : Scalar) → s.Value → Int
  | u8, v => UInt8.toNat v
  | i8, v => Int8.toInt v
  | u16, v => UInt16.toNat v
  | i16, v => Int16.toInt v
  | u32, v => UInt32.toNat v
  | i32, v => Int32.toInt v
  | u64, v => UInt64.toNat v
  | i64, v => Int64.toInt v
  | f32, v => (Binary32.bits v).toNat
  | f64, v => (Binary64.bits v).toNat

/-- The number that a bit pattern stands for. In a signed type the upper half of the patterns stands
for the negative numbers. -/
def numberOf (s : Scalar) (pattern : Nat) : Int :=
  if s.isSigned = true ∧ 256 ^ s.width ≤ 2 * pattern then pattern - 256 ^ s.width else pattern

theorem number_of_unsigned (h : s.isSigned = false) (v : s.Value) :
    s.number v = s.toPattern v := by
  cases s with
  | i8 | i16 | i32 | i64 => cases h
  | _ => rfl

theorem toInt_ofNat_of_lt {w : Nat} (h : n < 2 ^ w) :
    (BitVec.ofNat w n).toInt = if 2 ^ w ≤ 2 * n then (n : Int) - 2 ^ w else n := by
  rw [BitVec.toInt_eq_toNat_cond, BitVec.toNat_ofNat, Nat.mod_eq_of_lt h]
  by_cases hlow : 2 * n < 2 ^ w
  · rw [if_pos hlow, if_neg (by omega)]
  · rw [if_neg hlow, if_pos (by omega)]
    simp

theorem number_ofPattern (h : n < 256 ^ s.width) : s.number (s.ofPattern n) = s.numberOf n := by
  cases hsign : s.isSigned with
  | false =>
    rw [number_of_unsigned hsign, toPattern_ofPattern h, numberOf, hsign, if_neg (by simp)]
  | true =>
    cases s with
    | i8 => exact (toInt_ofNat_of_lt (w := 8) h).trans (by simp [numberOf, isSigned, width])
    | i16 => exact (toInt_ofNat_of_lt (w := 16) h).trans (by simp [numberOf, isSigned, width])
    | i32 => exact (toInt_ofNat_of_lt (w := 32) h).trans (by simp [numberOf, isSigned, width])
    | i64 => exact (toInt_ofNat_of_lt (w := 64) h).trans (by simp [numberOf, isSigned, width])
    | _ => cases hsign

theorem number_ofBytes (h : bytes.length = s.width) :
    s.number (s.ofBytes bytes) =
      s.numberOf (∑ i ∈ Finset.range s.width, (bytes.getD i 0).toNat * 256 ^ i) := by
  have hlt := littleEndian_lt bytes
  rw [h] at hlt
  rw [ofBytes, number_ofPattern hlt, littleEndian_eq_sum, h]

theorem width_pos (s : Scalar) : 0 < s.width := by
  cases s <;> decide

theorem width_le (s : Scalar) : s.width ≤ 8 := by
  cases s <;> decide

theorem length_take_drop (h : offset + n ≤ bytes.length) :
    ((bytes.drop offset).take n).length = n := by
  rw [List.length_take, List.length_drop]
  omega

/-- Reading from a cursor is reading at its position. -/
theorem read?_startingAt_of_le (h : offset + s.width ≤ bytes.length) :
    (Cursor.startingAt bytes offset).read? s =
      some (s.ofBytes ((bytes.drop offset).take s.width),
        Cursor.startingAt bytes (offset + s.width)) := by
  simp only [Cursor.read?, Cursor.startingAt, if_pos (length_take_drop h), List.drop_drop]

theorem read?_startingAt_of_lt (h : bytes.length < offset + s.width) :
    (Cursor.startingAt bytes offset).read? s = none := by
  have hwidth := s.width_pos
  rw [Cursor.read?_eq_none_iff]
  simp only [Cursor.remaining, Cursor.startingAt, List.length_drop]
  omega

theorem readAt_of_le (h : offset + s.width ≤ bytes.length) :
    s.readAt bytes offset =
      (.ok (s.ofBytes ((bytes.drop offset).take s.width)), offset + s.width) := by
  have hread := Cursor.readOr_eq_ok_iff (e := .outOfBounds) |>.mpr (read?_startingAt_of_le h)
  simp only [readAt, Cursor.readValue, hread]
  rfl

theorem readAt_of_lt (h : bytes.length < offset + s.width) :
    s.readAt bytes offset = (.error .outOfBounds, offset) := by
  have hread := Cursor.readOr_eq_error_iff (e := .outOfBounds) |>.mpr
    ⟨read?_startingAt_of_lt h, rfl, rfl⟩
  simp only [readAt, Cursor.readValue, hread]

theorem readAt_of_drop {v : s.Value} (h : bytes.drop offset = s.toBytes v ++ rest) :
    s.readAt bytes offset = (.ok v, offset + s.width) := by
  have hlength := congrArg List.length h
  rw [List.length_drop, List.length_append, length_toBytes] at hlength
  have hwidth := s.width_pos
  have htake : (s.toBytes v ++ rest).take s.width = s.toBytes v := List.take_left' (length_toBytes v)
  rw [readAt_of_le (by omega), h, htake, ofBytes_toBytes]

/-- A value is read at an offset exactly if its bytes stand there. -/
theorem readAt_eq_ok_iff {v : s.Value} :
    (s.readAt bytes offset).1 = .ok v ↔ ∃ rest, bytes.drop offset = s.toBytes v ++ rest := by
  constructor
  · intro h
    by_cases hfits : offset + s.width ≤ bytes.length
    · rw [readAt_of_le hfits, Except.ok.injEq] at h
      refine ⟨(bytes.drop offset).drop s.width, ?_⟩
      rw [← h, toBytes_ofBytes (length_take_drop hfits), List.take_append_drop]
    · rw [readAt_of_lt (by omega)] at h
      cases h
  · rintro ⟨rest, hdrop⟩
    rw [readAt_of_drop hdrop]

/-- Reads the value at an offset of 64 bits. The end of the value is computed in 64 bits too, so it
may come out before its start. -/
def readAtWord (s : Scalar) (bytes : List UInt8) (offset : UInt64) :
    Except Error s.Value × UInt64 :=
  let stop := offset + UInt64.ofNat s.width
  if stop < offset then (.error .outOfBounds, offset)
  else if bytes.length < stop.toNat then (.error .outOfBounds, offset)
  else (.ok (s.ofBytes ((bytes.drop offset.toNat).take s.width)), stop)

/-- The check for an end before the start makes reading in 64 bits exact. -/
theorem readAtWord_eq (s : Scalar) (hbytes : bytes.length < 2 ^ 64) (offset : UInt64) :
    (s.readAtWord bytes offset).1 = (s.readAt bytes offset.toNat).1 ∧
      (s.readAtWord bytes offset).2.toNat = (s.readAt bytes offset.toNat).2 := by
  have hwidth := s.width_pos
  have hwidth' := s.width_le
  have hoffset := offset.toNat_lt
  have hstop : (offset + UInt64.ofNat s.width).toNat = (offset.toNat + s.width) % 2 ^ 64 := by
    rw [UInt64.toNat_add, UInt64.toNat_ofNat', Nat.mod_eq_of_lt (by omega : s.width < 2 ^ 64)]
  by_cases hwrap : offset.toNat + s.width < 2 ^ 64
  · rw [Nat.mod_eq_of_lt hwrap] at hstop
    have hforward : ¬ offset + UInt64.ofNat s.width < offset := by
      rw [UInt64.lt_iff_toNat_lt]
      omega
    by_cases hfits : offset.toNat + s.width ≤ bytes.length
    · rw [readAt_of_le hfits, readAtWord]
      simp only [if_neg hforward, hstop, if_neg (Nat.not_lt.mpr hfits), and_self]
    · rw [readAt_of_lt (by omega), readAtWord]
      simp only [if_neg hforward, hstop, if_pos (Nat.lt_of_not_le hfits), and_self]
  · have hback : offset + UInt64.ofNat s.width < offset := by
      rw [UInt64.lt_iff_toNat_lt]
      omega
    rw [readAt_of_lt (by omega), readAtWord]
    simp only [if_pos hback, and_self]

/-- Reads one value of each of the given types, one behind the other. -/
def readAll (bytes : List UInt8) :
    (types : List Scalar) → (offset : Nat) → Except Error (List (Σ s : Scalar, s.Value)) × Nat
  | [], offset => (.ok [], offset)
  | s :: types, offset =>
    match s.readAt bytes offset with
    | (.error e, next) => (.error e, next)
    | (.ok v, next) =>
      let later := readAll bytes types next
      (later.1.map (⟨s, v⟩ :: ·), later.2)

/-- The bytes of values of any types, one behind the other. -/
def allBytes (values : List (Σ s : Scalar, s.Value)) : List UInt8 :=
  values.flatMap fun v => v.1.toBytes v.2

theorem readAll_of_drop (values : List (Σ s : Scalar, s.Value))
    (h : bytes.drop offset = allBytes values ++ rest) :
    readAll bytes (values.map (·.1)) offset =
      (.ok values, offset + (allBytes values).length) := by
  induction values generalizing offset with
  | nil => rfl
  | cons v values ih =>
    obtain ⟨s, v⟩ := v
    have hfirst : bytes.drop offset = s.toBytes v ++ (allBytes values ++ rest) := by
      rw [h, allBytes, List.flatMap_cons, List.append_assoc, allBytes]
    have hlater : bytes.drop (offset + s.width) = allBytes values ++ rest := by
      rw [← List.drop_drop, hfirst, List.drop_left' (length_toBytes v)]
    have hlength : (allBytes (⟨s, v⟩ :: values)).length = s.width + (allBytes values).length := by
      rw [allBytes, List.flatMap_cons, List.length_append, length_toBytes, allBytes]
    rw [List.map_cons, readAll, readAt_of_drop hfirst]
    simp only [ih hlater, hlength, Nat.add_assoc]
    rfl

/-- A read succeeds exactly if the value ends inside the bytes. It then gives the number that the
bytes make up, the lowest one first, and moves the offset behind them; a read that fails leaves the
offset where it was. Computing in 64 bits changes nothing, nor does reading from a cursor. So values
are read back, in order, from their bytes in a row. -/
theorem reads_little_endian :
    (∀ (s : Scalar) (bytes : List UInt8) (offset : Nat),
      (offset + s.width ≤ bytes.length →
        ∃ v, s.readAt bytes offset = (.ok v, offset + s.width) ∧
          s.number v = s.numberOf
            (∑ i ∈ Finset.range s.width, (bytes.getD (offset + i) 0).toNat * 256 ^ i) ∧
          (Cursor.startingAt bytes offset).read? s =
            some (v, Cursor.startingAt bytes (offset + s.width))) ∧
      (bytes.length < offset + s.width →
        s.readAt bytes offset = (.error .outOfBounds, offset) ∧
          (Cursor.startingAt bytes offset).read? s = none)) ∧
    (∀ (s : Scalar) (bytes : List UInt8) (offset : UInt64), bytes.length < 2 ^ 64 →
      (s.readAtWord bytes offset).1 = (s.readAt bytes offset.toNat).1 ∧
        (s.readAtWord bytes offset).2.toNat = (s.readAt bytes offset.toNat).2) ∧
    ∀ values : List (Σ s : Scalar, s.Value),
      readAll (allBytes values) (values.map (·.1)) 0 = (.ok values, (allBytes values).length) := by
  refine ⟨?_, fun s bytes offset hbytes => readAtWord_eq s hbytes offset, ?_⟩
  · intro s bytes offset
    refine ⟨?_, fun h => ⟨readAt_of_lt h, read?_startingAt_of_lt h⟩⟩
    intro h
    refine ⟨_, readAt_of_le h, ?_, read?_startingAt_of_le h⟩
    rw [number_ofBytes (length_take_drop h)]
    congr 1
    apply Finset.sum_congr rfl
    intro i hi
    have hi := Finset.mem_range.mp hi
    simp only [List.getD_eq_getElem?_getD, List.getElem?_take_of_lt hi, List.getElem?_drop]
  · intro values
    have hall : (allBytes values).drop 0 = allBytes values ++ [] := by
      rw [List.drop_zero, List.append_nil]
    rw [readAll_of_drop values hall, Nat.zero_add]

/-- A negative number behind another byte, the last offset there is, and values of four types in a
row. -/
theorem reads_little_endian_mixed :
    let bytes : List UInt8 := [0x00, 0xFE, 0xFF]
    let last : UInt64 := 0xFFFFFFFFFFFFFFFF
    let values : List (Σ s : Scalar, s.Value) :=
      [⟨i16, -2⟩, ⟨u8, 7⟩, ⟨f32, ⟨0x3FC00000⟩⟩, ⟨i64, -1⟩]
    (∃ v, i16.readAt bytes 1 = (.ok v, 3) ∧ i16.number v = -2) ∧
      i16.readAt bytes 2 = (.error .outOfBounds, 2) ∧
      (u16.readAtWord bytes last).1 = .error .outOfBounds ∧
      readAll (allBytes values) [i16, u8, f32, i64] 0 = (.ok values, 15) := by
  intro bytes last values
  obtain ⟨hread, hword, hall⟩ := reads_little_endian
  refine ⟨?_, ((hread i16 bytes 2).2 (by decide)).1, ?_, hall values⟩
  · obtain ⟨v, hv, hnumber, -⟩ := (hread i16 bytes 1).1 (by decide)
    exact ⟨v, hv, hnumber.trans (by decide)⟩
  · rw [(hword u16 bytes last (by decide)).1, ((hread u16 bytes last.toNat).2 (by decide)).1]

end Scalar

end Cil
