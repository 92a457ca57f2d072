import Mathlib
import Cil.Decode.Body

/-! The packed words hold a set: an offset is found exactly if it was inserted below the bound. -/
namespace Cil.OffsetSet

variable {s : OffsetSet} {m n bound : Nat}

/-- There is a word for every offset below the bound. -/
def Covers (s : OffsetSet) : Prop := s.words.size = (s.bound + 63) / 64

theorem covers_empty (bound : Nat) : Covers (empty bound) := by
  simp [Covers, empty]

@[simp]
theorem bound_insert (s : OffsetSet) (m : Nat) : (s.insert m).bound = s.bound := by
  unfold insert
  split <;> rfl

theorem covers_insert (h : Covers s) (m : Nat) : Covers (s.insert m) := by
  unfold insert
  split
  · simpa [Covers] using h
  · exact h

theorem Covers.word_lt (h : Covers s) (hn : n < s.bound) : n / 64 < s.words.size := by
  rw [h]
  omega

theorem toNat_bit (n : Nat) : (bit n).toNat = 2 ^ (n % 64) := by
  have hlt : n % 64 < 64 := Nat.mod_lt _ (by decide)
  have hpow : 2 ^ (n % 64) < 2 ^ 64 := Nat.pow_lt_pow_right (by decide) hlt
  simpa [bit, Nat.shiftLeft_eq] using hpow

theorem and_bit_ne_zero (word : UInt64) (n : Nat) :
    (word &&& bit n != 0) = word.toNat.testBit (n % 64) := by
  have hzero : word &&& bit n = 0 ↔ word.toNat &&& 2 ^ (n % 64) = 0 := by
    rw [← UInt64.toNat_inj, UInt64.toNat_and, toNat_bit]
    rfl
  rw [Nat.and_two_pow] at hzero
  cases hbit : word.toNat.testBit (n % 64) <;> simp_all

theorem testBit_or_bit (word : UInt64) (m n : Nat) :
    (word ||| bit m).toNat.testBit (n % 64) = true ↔
      word.toNat.testBit (n % 64) = true ∨ m % 64 = n % 64 := by
  rw [UInt64.toNat_or, toNat_bit, Nat.testBit_or, Nat.testBit_two_pow, Bool.or_eq_true,
    decide_eq_true_eq]

theorem contains_natCast_iff (s : OffsetSet) (n : Nat) : s.contains (n : Int) = true ↔
    n < s.bound ∧ ∃ word, s.words[n / 64]? = some word ∧ word.toNat.testBit (n % 64) = true := by
  cases hword : s.words[n / 64]? <;> simp [contains, and_bit_ne_zero, hword]

theorem contains_empty (bound n : Nat) : (empty bound).contains (n : Int) = false := by
  rw [← Bool.not_eq_true, contains_natCast_iff]
  rintro ⟨_, word, hword, hbit⟩
  simp only [empty, Array.getElem?_replicate] at hword
  split at hword
  · cases hword
    simp at hbit
  · cases hword

/-- What one insertion changes. -/
theorem contains_insert_iff (h : Covers s) : (s.insert m).contains (n : Int) = true ↔
    s.contains (n : Int) = true ∨ n < s.bound ∧ n = m := by
  rw [contains_natCast_iff, contains_natCast_iff, bound_insert, ← and_or_left]
  refine and_congr_right fun hn => ?_
  have hword := Array.getElem?_eq_getElem (h.word_lt hn)
  unfold insert
  split
  next hm =>
    rw [Array.getElem?_modify, hword]
    by_cases hw : m / 64 = n / 64
    · have heq : m % 64 = n % 64 ↔ n = m := by omega
      simp only [hw, if_true, Option.map_some, Option.some.injEq,
        exists_eq_left', testBit_or_bit, heq]
    · have hne : n ≠ m := by
        intro he
        exact hw (by rw [he])
      simp [hw, hne]
  next hm =>
    have hne : n ≠ m := by omega
    simp [hword, hne]

theorem contains_foldl_iff (h : Covers s) (offsets : List Nat) :
    (offsets.foldl insert s).contains (n : Int) = true ↔
      s.contains (n : Int) = true ∨ n < s.bound ∧ n ∈ offsets := by
  induction offsets generalizing s with
  | nil => simp
  | cons m offsets ih =>
    rw [List.foldl_cons, ih (covers_insert h m), contains_insert_iff h, bound_insert,
      List.mem_cons, or_assoc, ← and_or_left]

theorem contains_ofList_iff (bound : Nat) (offsets : List Nat) (n : Nat) :
    (ofList bound offsets).contains (n : Int) = true ↔ n < bound ∧ n ∈ offsets := by
  rw [ofList, contains_foldl_iff (covers_empty bound), contains_empty]
  simp [empty]

theorem covers_foldl (h : Covers s) (offsets : List Nat) : Covers (offsets.foldl insert s) := by
  induction offsets generalizing s with
  | nil => exact h
  | cons m offsets ih => exact ih (covers_insert h m)

@[simp]
theorem bound_foldl (s : OffsetSet) (offsets : List Nat) :
    (offsets.foldl insert s).bound = s.bound := by
  induction offsets generalizing s with
  | nil => rfl
  | cons m offsets ih => rw [List.foldl_cons, ih, bound_insert]

/-- An insertion below the bound finds its word and sets one bit of it. -/
theorem Covers.exists_word (h : Covers s) (hn : n < s.bound) : ∃ word,
    s.words[n / 64]? = some word ∧ (s.insert n).words[n / 64]? = some (word ||| bit n) := by
  have hword := Array.getElem?_eq_getElem (h.word_lt hn)
  refine ⟨_, hword, ?_⟩
  rw [insert, if_pos hn, Array.getElem?_modify, if_pos rfl, hword, Option.map_some]

/-- After any insertions, in any order and with repetitions, the set has exactly those of the
inserted offsets that are below its bound. Looking up the word of an offset below the bound always
succeeds, whether the offset is then inserted or asked for. -/
theorem ofList_holds_inserted (bound : Nat) (offsets : List Nat) :
    (∀ t : Int, (ofList bound offsets).contains t = true ↔
      0 ≤ t ∧ t < bound ∧ ∃ offset ∈ offsets, t = (offset : Nat)) ∧
    ∀ offset < bound, ∃ word, (ofList bound offsets).words[offset / 64]? = some word ∧
      ((ofList bound offsets).insert offset).words[offset / 64]? = some (word ||| bit offset) := by
  constructor
  · intro t
    cases t with
    | ofNat n =>
      rw [Int.ofNat_eq_natCast, contains_ofList_iff]
      simp
    | negSucc n =>
      have hneg : Int.negSucc n < 0 := Int.negSucc_lt_zero n
      simp only [contains, Bool.false_eq_true, false_iff]
      omega
  · intro offset hlt
    have hcovers : Covers (ofList bound offsets) := covers_foldl (covers_empty bound) offsets
    exact hcovers.exists_word (by simpa [ofList, empty] using hlt)

/-- Offsets on both sides of the end of a word, one of them twice and one beyond the bound. -/
theorem ofList_holds_inserted_twoWords :
    let s := ofList 66 [64, 0, 63, 64, 130]
    s.contains 63 = true ∧ s.contains 64 = true ∧ ¬ s.contains 65 = true ∧
      ¬ s.contains 130 = true ∧ ¬ s.contains (-1) = true ∧
      ∃ word, s.words[65 / 64]? = some word ∧
        (s.insert 65).words[65 / 64]? = some (word ||| bit 65) := by
  obtain ⟨hcontains, hword⟩ := ofList_holds_inserted 66 [64, 0, 63, 64, 130]
  refine ⟨(hcontains _).mpr (by decide), (hcontains _).mpr (by decide), ?_, ?_, ?_,
    hword 65 (by decide)⟩
  · exact mt (hcontains _).mp (by decide)
  · exact mt (hcontains _).mp (by decide)
  · exact mt (hcontains _).mp (by decide)

end Cil.OffsetSet
