import Mathlib
import Cil.Cursor

/-! Values and their bytes determine each other, and a read succeeds exactly on those bytes. -/
namespace Cil

variable {s : Scalar} {c c' : Cursor}

@[simp]
theorem length_littleEndianBytes (width n : Nat) : (littleEndianBytes width n).length = width := by
  induction width generalizing n with
  | zero => rfl
  | succ width ih => simp [littleEndianBytes, ih]

theorem littleEndian_littleEndianBytes (width n : Nat) :
    littleEndian (littleEndianBytes width n) = n % 256 ^ width := by
  induction width generalizing n with
  | zero => simp [littleEndianBytes, littleEndian, Nat.mod_one]
  | succ width ih =>
    have hlow : (UInt8.ofNat n).toNat = n % 256 := by simp
    rw [littleEndianBytes, littleEndian, ih, hlow, Nat.pow_succ', Nat.mod_mul]

theorem littleEndian_lt (bytes : List UInt8) : littleEndian bytes < 256 ^ bytes.length := by
  induction bytes with
  | nil => simp [littleEndian]
  | cons b bytes ih =>
    have hb := b.toNat_lt
    rw [littleEndian, List.length_cons, Nat.pow_succ']
    omega

theorem littleEndianBytes_littleEndian (bytes : List UInt8) :
    littleEndianBytes bytes.length (littleEndian bytes) = bytes := by
  induction bytes with
  | nil => rfl
  | cons b bytes ih =>
    have hb := b.toNat_lt
    have hlow : UInt8.ofNat (b.toNat + 256 * littleEndian bytes) = b := by
      apply UInt8.toNat_inj.mp
      rw [UInt8.toNat_ofNat']
      omega
    have hhigh : (b.toNat + 256 * littleEndian bytes) / 256 = littleEndian bytes := by omega
    rw [littleEndian, List.length_cons, littleEndianBytes, hlow, hhigh, ih]

namespace Scalar

theorem toPattern_lt (v : s.Value) : s.toPattern v < 256 ^ s.width := by
  cases s with
  | u8 => exact UInt8.toNat_lt v
  | i8 => exact UInt8.toNat_lt _
  | u16 => exact UInt16.toNat_lt v
  | i16 => exact UInt16.toNat_lt _
  | u32 => exact UInt32.toNat_lt v
  | i32 | f32 => exact UInt32.toNat_lt _
  | u64 => exact UInt64.toNat_lt v
  | i64 | f64 => exact UInt64.toNat_lt _

theorem ofPattern_toPattern (v : s.Value) : s.ofPattern (s.toPattern v) = v := by
  cases s <;> simp [ofPattern, toPattern]

theorem toPattern_ofPattern {n : Nat} (h : n < 256 ^ s.width) :
    s.toPattern (s.ofPattern n) = n := by
  cases s <;> simp only [width] at h <;> simp [ofPattern, toPattern] <;> omega

@[simp]
theorem length_toBytes (v : s.Value) : (s.toBytes v).length = s.width :=
  length_littleEndianBytes _ _

theorem ofBytes_toBytes (v : s.Value) : s.ofBytes (s.toBytes v) = v := by
  have h := littleEndian_littleEndianBytes s.width (s.toPattern v)
  rw [Nat.mod_eq_of_lt (toPattern_lt v)] at h
  rw [ofBytes, toBytes, h, ofPattern_toPattern]

theorem toBytes_ofBytes {bytes : List UInt8} (h : bytes.length = s.width) :
    s.toBytes (s.ofBytes bytes) = bytes := by
  have hlt := littleEndian_lt bytes
  rw [h] at hlt
  rw [ofBytes, toBytes, toPattern_ofPattern hlt, ← h, littleEndianBytes_littleEndian]

end Scalar

namespace Cursor

theorem read?_eq_some_iff {v : s.Value} : c.read? s = some (v, c') ↔
    c.rest = s.toBytes v ++ c'.rest ∧ c'.pos = c.pos + s.width := by
  simp only [read?]
  constructor
  · intro h
    split at h
    next hw =>
      obtain ⟨rfl, rfl⟩ := Prod.mk.inj (Option.some.inj h)
      rw [Scalar.toBytes_ofBytes hw]
      exact ⟨(List.take_append_drop _ _).symm, rfl⟩
    next => cases h
  · rintro ⟨hrest, hpos⟩
    obtain ⟨pos, rest⟩ := c'
    subst hpos
    have hfront : c.rest.take s.width = s.toBytes v := by simp [hrest]
    have hback : c.rest.drop s.width = rest := by simp [hrest]
    rw [hfront, hback, if_pos (Scalar.length_toBytes v), Scalar.ofBytes_toBytes]

theorem read?_eq_none_iff : c.read? s = none ↔ c.remaining < s.width := by
  simp only [read?, remaining]
  split
  next hw =>
    rw [List.length_take] at hw
    simp only [reduceCtorEq, false_iff]
    omega
  next hw =>
    rw [List.length_take] at hw
    simp only [true_iff]
    omega

end Cursor

end Cil
