import Mathlib
import Cil.Decode.Instruction
import Cil.Proofs.WellFormed

/-! What each reading step does on the bytes it expects and on too few of them. -/
namespace Cil

theorem Scalar.exists_toBytes {s : Scalar} {bytes : List UInt8} (h : s.width ≤ bytes.length) :
    ∃ v rest, bytes = s.toBytes v ++ rest := by
  refine ⟨s.ofBytes (bytes.take s.width), bytes.drop s.width, ?_⟩
  rw [toBytes_ofBytes (by simpa using h), List.take_append_drop]

theorem Scalar.toBytes_u8 (b : UInt8) : Scalar.u8.toBytes b = [b] := by
  simp [toBytes, littleEndianBytes, toPattern, width]

theorem Scalar.drop_toBytes {s : Scalar} {n : Nat} (h : s.width = n) (v : s.Value)
    (rest : List UInt8) : (s.toBytes v ++ rest).drop n = rest := by
  rw [← h, ← length_toBytes v, List.drop_left]

namespace Decode

variable {α : Type} {r : Resolver} {s : Scalar}
  {k pos base : Nat} {b : UInt8} {o : Opcode} {rest : List UInt8}

theorem get_eq (c : Cursor) : (get : DecodeM Cursor) c = .ok c c := rfl

theorem fetch_toBytes (v : s.Value) (k pos : Nat) (rest : List UInt8) :
    fetch s k ⟨pos, s.toBytes v ++ rest⟩ = .ok v ⟨pos + s.width, rest⟩ := by
  rw [fetch, Cursor.readOr_eq_ok_iff, Cursor.read?_eq_some_iff]
  exact ⟨rfl, rfl⟩

theorem fetch_short (h : rest.length < s.width) (k pos : Nat) :
    fetch s k ⟨pos, rest⟩ = .error (.truncated k) ⟨pos, rest⟩ := by
  rw [fetch, Cursor.readOr_eq_error_iff, Cursor.read?_eq_none_iff]
  exact ⟨h, rfl, rfl⟩

theorem fetch_byte (b : UInt8) (k pos : Nat) (rest : List UInt8) :
    fetch .u8 k ⟨pos, b :: rest⟩ = .ok b ⟨pos + 1, rest⟩ := by
  have h := fetch_toBytes (s := .u8) b k pos rest
  rwa [Scalar.toBytes_u8] at h

theorem readOpcode_nil (k pos : Nat) :
    readOpcode k ⟨pos, []⟩ = .error (.truncated k) ⟨pos, []⟩ :=
  bind_of_error (fetch_short (by decide) k pos)

theorem readOpcode_byte (h : b ≠ extendedMark) (k pos : Nat) (rest : List UInt8) :
    readOpcode k ⟨pos, b :: rest⟩ =
      recognize k b.toUInt16 (Opcode.ofByte? b) ⟨pos + 1, rest⟩ := by
  rw [readOpcode, bind_of_ok (fetch_byte b k pos rest), if_neg h]

theorem readOpcode_mark (k pos : Nat) :
    readOpcode k ⟨pos, [extendedMark]⟩ = .error (.truncated k) ⟨pos + 1, []⟩ := by
  rw [readOpcode, bind_of_ok (fetch_byte extendedMark k pos []), if_pos rfl]
  exact bind_of_error (fetch_short (by decide) k _)

theorem readOpcode_pair (b : UInt8) (k pos : Nat) (rest : List UInt8) :
    readOpcode k ⟨pos, extendedMark :: b :: rest⟩ =
      recognize k (Opcode.extendedValue b) (Opcode.ofSecondByte? b) ⟨pos + 2, rest⟩ := by
  rw [readOpcode, bind_of_ok (fetch_byte extendedMark k pos _), if_pos rfl]
  exact bind_of_ok (fetch_byte b k _ rest)

theorem readOpcode_bytes (h : o ∈ Opcode.table) (k pos : Nat) (rest : List UInt8) :
    readOpcode k ⟨pos, o.bytes ++ rest⟩ = .ok o ⟨pos + o.size, rest⟩ := by
  have hsize := o.length_bytes
  rcases Opcode.bytes_cases h with ⟨b, hne, hbytes, _⟩ | ⟨b, hbytes, _⟩
  · rw [← hsize, hbytes, List.singleton_append, readOpcode_byte hne,
      Opcode.ofByte?_eq_some_iff.mpr ⟨h, hbytes⟩]
    rfl
  · rw [← hsize, hbytes, List.cons_append, List.singleton_append, readOpcode_pair,
      Opcode.ofSecondByte?_eq_some_iff.mpr ⟨h, hbytes⟩]
    rfl

theorem branchTarget_of_nonneg {displacement : Int} (h : 0 ≤ base + displacement) (k : Nat)
    (c : Cursor) : branchTarget k base displacement c = .ok (base + displacement).toNat c := by
  rw [branchTarget, if_neg (by omega)]
  rfl

theorem branchTarget_of_neg {displacement : Int} (h : base + displacement < 0) (k : Nat)
    (c : Cursor) : branchTarget k base displacement c =
      .error (.invalidTarget k (base + displacement)) c := by
  rw [branchTarget, if_pos h]
  rfl

theorem readBranch_of_nonneg {displacement : Int} (h : 0 ≤ pos + displacement) (k : Nat)
    (rest : List UInt8) : readBranch k displacement ⟨pos, rest⟩ =
      .ok (.target (pos + displacement).toNat) ⟨pos, rest⟩ :=
  bind_of_ok (branchTarget_of_nonneg h k _)

theorem readBranch_of_neg {displacement : Int} (h : pos + displacement < 0) (k : Nat)
    (rest : List UInt8) : readBranch k displacement ⟨pos, rest⟩ =
      .error (.invalidTarget k (pos + displacement)) ⟨pos, rest⟩ := by
  rw [readBranch, bind_of_ok (get_eq _)]
  exact bind_of_error (branchTarget_of_neg h k _)

/-- The bytes of a table of displacements. -/
def tableBytes (ds : List Int32) : List UInt8 := ds.flatMap fun d => Scalar.i32.toBytes d

@[simp]
theorem length_tableBytes (ds : List Int32) : (tableBytes ds).length = 4 * ds.length := by
  simp only [tableBytes, List.length_flatMap, Scalar.length_toBytes, Scalar.width,
    List.map_const', List.sum_replicate, smul_eq_mul]
  omega

theorem exists_tableBytes {count : Nat} {bytes : List UInt8} (h : 4 * count ≤ bytes.length) :
    ∃ ds rest, ds.length = count ∧ bytes = tableBytes ds ++ rest := by
  induction count generalizing bytes with
  | zero => exact ⟨[], bytes, rfl, rfl⟩
  | succ count ih =>
    obtain ⟨d, rest, rfl⟩ : ∃ d rest, bytes = Scalar.i32.toBytes d ++ rest := by
      apply Scalar.exists_toBytes
      simp only [Scalar.width]
      omega
    have hrest : 4 * count ≤ rest.length := by
      rw [List.length_append, Scalar.length_toBytes] at h
      simp only [Scalar.width] at h
      omega
    obtain ⟨ds, rest', hlen, rfl⟩ := ih hrest
    exact ⟨d :: ds, rest', by rw [List.length_cons, hlen], by simp [tableBytes]⟩

/-- A case with a target in or after the body is passed, and reading goes on behind it. -/
theorem readCases_cons {d : Int32} (h : 0 ≤ base + d.toInt) (k pos count : Nat)
    (rest : List UInt8) :
    readCases k base (count + 1) ⟨pos, Scalar.i32.toBytes d ++ rest⟩ =
      (do return (base + d.toInt).toNat :: (← readCases k base count)) ⟨pos + 4, rest⟩ := by
  rw [readCases, bind_of_ok (fetch_toBytes (s := .i32) d k pos rest),
    bind_of_ok (branchTarget_of_nonneg h k _)]
  rfl

theorem readCases_tableBytes (ds : List Int32) (h : ∀ d ∈ ds, 0 ≤ base + d.toInt) (k pos : Nat)
    (rest : List UInt8) : readCases k base ds.length ⟨pos, tableBytes ds ++ rest⟩ =
      .ok (ds.map fun d => ((base : Int) + d.toInt).toNat) ⟨pos + 4 * ds.length, rest⟩ := by
  induction ds generalizing pos with
  | nil => rfl
  | cons d ds ih =>
    have htail := ih (fun d' hd' => h d' (List.mem_cons_of_mem d hd')) (pos + 4)
    have hpos : pos + 4 + 4 * ds.length = pos + 4 * (ds.length + 1) := by omega
    rw [List.length_cons, tableBytes, List.flatMap_cons, List.append_assoc,
      readCases_cons (h d List.mem_cons_self), ← tableBytes, bind_of_ok htail, hpos]
    rfl

/-- The first case with a target before the body ends the table. -/
theorem readCases_neg (ds : List Int32) {d : Int32} (h : ∀ d' ∈ ds, 0 ≤ base + d'.toInt)
    (hd : base + d.toInt < 0) (k pos count : Nat) (rest : List UInt8) :
    readCases k base (ds.length + (count + 1))
        ⟨pos, tableBytes ds ++ (Scalar.i32.toBytes d ++ rest)⟩ =
      .error (.invalidTarget k (base + d.toInt)) ⟨pos + 4 * (ds.length + 1), rest⟩ := by
  induction ds generalizing pos with
  | nil =>
    rw [List.length_nil, Nat.zero_add, readCases]
    change (fetch .i32 k >>= _) ⟨pos, Scalar.i32.toBytes d ++ rest⟩ = _
    rw [bind_of_ok (fetch_toBytes (s := .i32) d k pos rest)]
    exact bind_of_error (branchTarget_of_neg hd k _)
  | cons d' ds ih =>
    have htail := ih (fun d'' hd'' => h d'' (List.mem_cons_of_mem d' hd'')) (pos + 4)
    have hlen : (d' :: ds).length + (count + 1) = ds.length + (count + 1) + 1 := by
      rw [List.length_cons]
      omega
    have hpos : pos + 4 + 4 * (ds.length + 1) = pos + 4 * (ds.length + 1 + 1) := by omega
    rw [hlen, tableBytes, List.flatMap_cons, List.append_assoc,
      readCases_cons (h d' List.mem_cons_self), ← tableBytes, bind_of_error htail, hpos]
    rfl

theorem readSwitch_of_le {count : UInt32} (h : 4 * count.toNat ≤ rest.length) (k pos : Nat) :
    readSwitch k ⟨pos, Scalar.u32.toBytes count ++ rest⟩ =
      readCases k (pos + 4 + 4 * count.toNat) count.toNat ⟨pos + 4, rest⟩ := by
  rw [readSwitch, bind_of_ok (fetch_toBytes (s := .u32) count k pos rest)]
  change (if rest.length < 4 * count.toNat then _ else _ : DecodeM (List Nat)) _ = _
  rw [if_neg (by omega)]
  rfl

theorem readSwitch_of_lt {count : UInt32} (h : rest.length < 4 * count.toNat) (k pos : Nat) :
    readSwitch k ⟨pos, Scalar.u32.toBytes count ++ rest⟩ =
      .error (.truncated k) ⟨pos + 4, rest⟩ := by
  rw [readSwitch, bind_of_ok (fetch_toBytes (s := .u32) count k pos rest)]
  change (if rest.length < 4 * count.toNat then _ else _ : DecodeM (List Nat)) _ = _
  rw [if_pos h]
  rfl

theorem readToken_of_ok {lookup : Token → Except ResolutionError α} {t : Token} {a : α}
    (h : lookup t = .ok a) (k pos : Nat) (rest : List UInt8) :
    readToken k lookup ⟨pos, Scalar.u32.toBytes t.raw ++ rest⟩ = .ok a ⟨pos + 4, rest⟩ := by
  rw [readToken, bind_of_ok (fetch_toBytes (s := .u32) t.raw k pos rest)]
  simp only [h]
  rfl

theorem readToken_of_error {lookup : Token → Except ResolutionError α} {t : Token}
    {source : ResolutionError} (h : lookup t = .error source) (k pos : Nat) (rest : List UInt8) :
    readToken k lookup ⟨pos, Scalar.u32.toBytes t.raw ++ rest⟩ =
      .error (.unresolvedToken k t source) ⟨pos + 4, rest⟩ := by
  rw [readToken, bind_of_ok (fetch_toBytes (s := .u32) t.raw k pos rest)]
  simp only [h]
  rfl

end Decode

end Cil
