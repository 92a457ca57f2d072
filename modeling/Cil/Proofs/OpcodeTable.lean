import Mathlib
import Cil.Encoding

/-! The opcode table as a code: every row is found by its own bytes and by no others. -/
namespace Cil.Opcode

variable {o : Opcode} {b : UInt8}

/-- Values ascend, so no two rows share one. -/
theorem table_ascending : (table.map fun o => o.value.toNat).Pairwise (· < ·) :=
  List.isChain_iff_pairwise.mp (by decide +kernel)

theorem value_cases (h : o ∈ table) :
    o.isExtended = false ∧ o.value.toUInt8 ≠ extendedMark ∧ o.value = o.value.toUInt8.toUInt16 ∨
      o.isExtended = true ∧ o.value = extendedValue o.value.toUInt8 := by
  revert o
  decide +kernel

/-- A row is encoded as one byte other than the mark, or as the mark and one more byte. -/
theorem bytes_cases (h : o ∈ table) :
    (∃ b, b ≠ extendedMark ∧ o.bytes = [b] ∧ o.value = b.toUInt16) ∨
      ∃ b, o.bytes = [extendedMark, b] ∧ o.value = extendedValue b := by
  unfold bytes
  rcases value_cases h with ⟨hext, hne, hvalue⟩ | ⟨hext, hvalue⟩
  · exact Or.inl ⟨_, hne, by simp [hext], hvalue⟩
  · exact Or.inr ⟨_, by simp [hext], hvalue⟩

/-- Branches and jump tables are the operands of exactly the opcodes that transfer control within
the body. -/
theorem operand_branches_iff (h : o ∈ table) :
    o.operand = .shortBranch ∨ o.operand = .longBranch ∨ o.operand = .switch ↔
      o.flow = .branch ∨ o.flow = .conditional := by
  revert o
  decide +kernel

theorem ofValue?_eq_some_iff {v : UInt16} : ofValue? v = some o ↔ o ∈ table ∧ o.value = v := by
  unfold ofValue?
  constructor
  · intro h
    exact ⟨List.mem_of_find?_eq_some h, by simpa using List.find?_some h⟩
  · rintro ⟨hmem, rfl⟩
    obtain ⟨front, back, heq⟩ := List.append_of_mem hmem
    refine List.find?_eq_some_iff_append.mpr ⟨by simp, front, back, heq, ?_⟩
    intro p hp
    have hsorted := table_ascending
    rw [heq, List.map_append, List.pairwise_append] at hsorted
    have hlt := hsorted.2.2 _ (List.mem_map_of_mem hp) o.value.toNat (by simp)
    have hne : p.value ≠ o.value := by
      intro he
      rw [he] at hlt
      omega
    simp [hne]

@[simp]
theorem length_bytes (o : Opcode) : o.bytes.length = o.size := by
  unfold bytes size
  split <;> rfl

theorem size_pos (o : Opcode) : 0 < o.size := by
  unfold size
  split <;> decide

theorem toUInt8_extendedValue (b : UInt8) : (extendedValue b).toUInt8 = b := by
  have hmark : (0xFE00 : UInt16).toUInt8 = 0 := rfl
  rw [extendedValue, UInt16.toUInt8_or, hmark, UInt8.toUInt8_toUInt16, UInt8.zero_or]

theorem extendedValue_ne (a b : UInt8) : extendedValue a ≠ b.toUInt16 := by
  intro h
  have hle : 0xFE00 ≤ (extendedValue a).toNat := by
    rw [extendedValue, UInt16.toNat_or]
    exact Nat.left_le_or
  have hlt := b.toNat_lt
  rw [h, UInt8.toNat_toUInt16] at hle
  omega

/-- A single byte finds the row that consists of it. The mark finds none. -/
theorem ofByte?_eq_some_iff : ofByte? b = some o ↔ o ∈ table ∧ o.bytes = [b] := by
  rw [ofByte?, ofValue?_eq_some_iff]
  refine and_congr_right fun hmem => ?_
  rcases bytes_cases hmem with ⟨a, _, hbytes, hvalue⟩ | ⟨a, hbytes, hvalue⟩
  · rw [hbytes, hvalue]
    simp [UInt8.toUInt16_inj]
  · rw [hbytes, hvalue]
    simp [extendedValue_ne]

/-- The byte after the mark finds the row that consists of the two. -/
theorem ofSecondByte?_eq_some_iff :
    ofSecondByte? b = some o ↔ o ∈ table ∧ o.bytes = [extendedMark, b] := by
  rw [ofSecondByte?, ofValue?_eq_some_iff]
  refine and_congr_right fun hmem => ?_
  rcases bytes_cases hmem with ⟨a, _, hbytes, hvalue⟩ | ⟨a, hbytes, hvalue⟩
  · rw [hbytes, hvalue]
    simp [(extendedValue_ne b a).symm]
  · rw [hbytes, hvalue]
    have hinj : extendedValue a = extendedValue b ↔ a = b := by
      constructor
      · intro he
        rw [← toUInt8_extendedValue a, he, toUInt8_extendedValue]
      · intro he
        rw [he]
    simp [hinj]

theorem mem_toUTF8 {s : String} {c : Char} (hc : c ∈ s.toList)
    (hb : b ∈ String.utf8EncodeChar c) : b ∈ s.toUTF8.data.toList := by
  have hbytes : s.toUTF8 = s.toList.utf8Encode := by
    rw [String.toUTF8_eq_toByteArray, ← String.toByteArray_ofList, String.ofList_toList]
  rw [hbytes, List.utf8Encode]
  simpa using ⟨c, hc, hb⟩

/-- A mnemonic is a single word. -/
theorem name_isWord (h : o ∈ table) : ' ' ∉ o.name.toList ∧ '\n' ∉ o.name.toList := by
  have hvisible : ∀ o ∈ table, (o.name.toUTF8.data.toList.all fun b => 32 < b) = true := by
    decide +kernel
  have hbytes := List.all_eq_true.mp (hvisible o h)
  constructor
  · intro hc
    exact absurd (hbytes 32 (mem_toUTF8 hc (by decide))) (by decide)
  · intro hc
    exact absurd (hbytes 10 (mem_toUTF8 hc (by decide))) (by decide)

/-- No two rows share a mnemonic. Comparing the names as numbers keeps this fast to check. -/
theorem eq_of_name_eq {o p : Opcode} (ho : o ∈ table) (hp : p ∈ table) (h : o.name = p.name) :
    o = p := by
  have hnodup : (table.map fun o => littleEndian o.name.toUTF8.data.toList).Nodup := by
    decide +kernel
  exact List.inj_on_of_nodup_map hnodup ho hp (by rw [h])

end Cil.Opcode
