import Mathlib
import Cil.Proofs.Concatenation

/-! What is left of a body when its end is cut off. -/
namespace Cil.Decode

variable {r : Resolver} {k m p q next : Nat} {kind : OperandKind} {o : Opcode}
  {raw : RawInstruction} {bytes : List UInt8} {i : Instruction} {c d : Cursor}
  {body front back : List Instruction}

theorem operandFault_of_take {operand : RawOperand} (hshape : operand.hasShape kind = true)
    (hfits : operand.Fits kind next) (hm : m < operand.size kind) (r : Resolver) (k pos : Nat) :
    ∃ n, OperandFault r k kind pos ((operand.bytes kind next).take m) (.truncated k) n := by
  have hlength : ((operand.bytes kind next).take m).length ≤ m := List.length_take_le ..
  cases hsize : kind.size? with
  | some size =>
    rw [RawOperand.size_eq hshape, hsize, Option.getD_some] at hm
    exact ⟨0, .short hsize (by omega)⟩
  | none =>
    -- a jump table is cut in its count, or has fewer entries left than the count announces
    obtain rfl : kind = .switch := by cases kind <;> cases hsize; rfl
    by_cases hfour : m < 4
    · exact ⟨0, .shortCount rfl (by omega)⟩
    cases operand with
    | switch offsets =>
      have hcount : (UInt32.ofNat offsets.length).toNat = offsets.length := by
        rw [UInt32.toNat_ofNat']
        exact Nat.mod_eq_of_lt hfits.1
      have hwidth : (Scalar.u32.toBytes (UInt32.ofNat offsets.length)).length = 4 :=
        Scalar.length_toBytes _
      rw [RawOperand.bytes, List.take_append, List.take_of_length_le (by omega), hwidth]
      refine ⟨4, .shortTable rfl ?_⟩
      have htable := List.length_take_le (m - 4)
        (offsets.flatMap fun (offset : Nat) => Scalar.i32.toBytes (Int32.ofInt (offset - next)))
      simp only [RawOperand.size] at hm
      omega
    | _ => cases hshape

theorem fault_of_take_opcode (hmem : o ∈ Opcode.table) (hm : m < o.size) (r : Resolver) (k : Nat) :
    ∃ n, Fault r k (o.bytes.take m) (.truncated k) n := by
  rw [← o.length_bytes] at hm
  rcases Opcode.bytes_cases hmem with ⟨b, -, hbytes, -⟩ | ⟨b, hbytes, -⟩
  · rw [hbytes] at hm ⊢
    obtain rfl : m = 0 := by simpa using hm
    exact ⟨0, .nothing⟩
  · rw [hbytes] at hm ⊢
    obtain rfl | rfl : m = 0 ∨ m = 1 := by
      simp only [List.length_cons, List.length_nil] at hm
      omega
    · exact ⟨0, .nothing⟩
    · exact ⟨1, .loneMark⟩

/-- A proper front part of an instruction is cut short, wherever the cut is. Neither its token nor
its targets are looked at. -/
theorem fault_of_take (hwf : raw.WellFormed k) (hm : m < raw.size) (r : Resolver) :
    ∃ n, Fault r k ((raw.bytesAt k).take m) (.truncated k) n := by
  have hlength := raw.opcode.length_bytes
  rw [RawInstruction.bytesAt, List.take_append]
  by_cases hopcode : m < raw.opcode.size
  · have hnone : m - raw.opcode.bytes.length = 0 := by omega
    rw [hnone, List.take_zero, List.append_nil]
    exact fault_of_take_opcode hwf.mem_table hopcode r k
  · rw [List.take_of_length_le (by omega)]
    have hrest : m - raw.opcode.bytes.length < raw.operand.size raw.opcode.operand := by
      simp only [RawInstruction.size] at hm
      omega
    obtain ⟨n, hfault⟩ := operandFault_of_take hwf.hasShape hwf.fits hrest r k (k + raw.opcode.size)
    exact ⟨_, .operand hwf.mem_table hfault⟩

/-- A body up to one of its instructions: the bytes before it are run through whatever follows. -/
theorem Run.exists_before (h : Run r (Cursor.ofBytes bytes) (front ++ i :: back) d) :
    ∃ (passed : List UInt8) (raw : RawInstruction) (tail : List UInt8),
      bytes = passed ++ (raw.bytesAt i.offset ++ tail) ∧ passed.length = i.offset ∧
      raw.WellFormed i.offset ∧ raw.size = i.size ∧
      ∀ rest, Run r (Cursor.ofBytes (passed ++ rest)) front ⟨i.offset, rest⟩ := by
  obtain ⟨e, hfront, hback⟩ := run_append_iff.mp h
  obtain ⟨passed, hpassed, hpos, hexchange⟩ := hfront.exchange
  cases hback with
  | @cons _ after _ _ _ hi _ =>
    obtain ⟨raw, hwf, hres, hrest, -⟩ := instruction_eq_ok_iff.mp hi
    obtain ⟨a, -, rfl⟩ := RawInstruction.resolveAt_eq_ok_iff.mp hres
    have hbytes : bytes = passed ++ (raw.bytesAt e.pos ++ after.rest) := by
      rw [← hrest]
      exact hpassed
    have hlength : passed.length = e.pos := by
      rw [hpos]
      exact (Nat.zero_add _).symm
    exact ⟨passed, raw, after.rest, hbytes, hlength, hwf, rfl, hexchange⟩

theorem take_passed {passed chunk tail : List UInt8} (hle : passed.length ≤ k)
    (hk : k ≤ passed.length + chunk.length) :
    (passed ++ (chunk ++ tail)).take k = passed ++ chunk.take (k - passed.length) := by
  have hnone : k - passed.length - chunk.length = 0 := by omega
  rw [List.take_append, List.take_of_length_le hle, List.take_append, hnone, List.take_zero,
    List.append_nil]

theorem decode_take_inside (h : Run r (Cursor.ofBytes bytes) (front ++ i :: back) d)
    (hlt : i.offset < k) (hk : k < i.nextOffset) :
    decode r (bytes.take k) = .error (.truncated i.offset) := by
  obtain ⟨passed, raw, tail, rfl, hlength, hwf, hsize, hrun⟩ := h.exists_before
  have hchunk := hwf.length_bytesAt
  simp only [Instruction.nextOffset] at hk
  rw [take_passed (by omega) (by omega)]
  obtain ⟨n, hfault⟩ := fault_of_take hwf (m := k - passed.length) (by omega) r
  have hmore : (raw.bytesAt i.offset).take (k - passed.length) ≠ [] := by
    intro hnil
    have hlen := congrArg List.length hnil
    rw [List.length_take, List.length_nil] at hlen
    omega
  exact decode_of_error (stream_of_error (hrun _) hmore (instruction_of_fault hfault))

theorem run_take_start (h : Run r (Cursor.ofBytes bytes) (front ++ i :: back) d) :
    Run r (Cursor.ofBytes (bytes.take i.offset)) front ⟨i.offset, []⟩ := by
  obtain ⟨passed, raw, tail, rfl, hlength, -, -, hrun⟩ := h.exists_before
  rw [← hlength, List.take_left, hlength]
  have hrun := hrun []
  rwa [List.append_nil] at hrun

/-- Of the starts of a body, those before an instruction are the starts of what precedes it. -/
theorem Run.mem_starts_front_iff (h : Run r c (front ++ i :: back) d) {t : Nat}
    (ht : t ∈ starts (front ++ i :: back)) : t ∈ starts front ↔ t < i.offset := by
  obtain ⟨e, hfront, hback⟩ := run_append_iff.mp h
  have hoffset : i.offset = e.pos := hback.tiles.1
  constructor
  · intro hmem
    obtain ⟨j, hj, rfl⟩ := List.mem_map.mp hmem
    have hbounds := hfront.tiles.offset_bounds hj
    simp only [Instruction.nextOffset] at hbounds
    omega
  · intro hlt
    rw [starts, List.map_append, List.mem_append] at ht
    rcases ht with hmem | hmem
    · exact hmem
    · obtain ⟨j, hj, rfl⟩ := List.mem_map.mp hmem
      have hbounds := hback.tiles.offset_bounds hj
      omega

/-- `i` is the first instruction with a target at `k` or beyond, and `t` its first such target. -/
def FirstBeyond (k : Nat) (body : List Instruction) (i : Instruction) (t : Nat) : Prop :=
  (∃ before after, body = before ++ i :: after ∧
    ∀ j ∈ before, ∀ u ∈ j.branchTargets, u < k) ∧
  ∃ before after, i.branchTargets = before ++ t :: after ∧ (∀ u ∈ before, u < k) ∧ k ≤ t

theorem FirstStray.firstBeyond {t : Nat} (h : FirstStray body i t)
    (hstarts : ∀ j ∈ body, ∀ u ∈ j.branchTargets, u ∈ starts body ↔ u < k) :
    FirstBeyond k body i t := by
  obtain ⟨⟨before, after, hbody, hbefore⟩, before', after', htargets, hbefore', ht⟩ := h
  have hi : i ∈ body := by simp [hbody]
  refine ⟨⟨before, after, hbody, ?_⟩, before', after', htargets, ?_, ?_⟩
  · intro j hj u hu
    have hmem : j ∈ body := by simp [hbody, hj]
    exact (hstarts j hmem u hu).mp (hbefore j hj u hu)
  · intro u hu
    exact (hstarts i hi u (by simp [htargets, hu])).mp (hbefore' u hu)
  · have hnot := mt (hstarts i hi t (by simp [htargets])).mpr ht
    omega

/-- Every cut before the end of a body falls on one of its instructions. -/
theorem Tiles.exists_at (h : Tiles p q body) (hle : p ≤ k) (hlt : k < q) :
    ∃ (n : Nat) (i : Instruction), body[n]? = some i ∧ i.offset ≤ k ∧ k < i.nextOffset := by
  induction body generalizing p with
  | nil =>
    have heq : p = q := h
    omega
  | cons j body ih =>
    obtain ⟨hoffset, -, htail⟩ := h
    by_cases hk : k < j.nextOffset
    · exact ⟨0, j, rfl, by omega, hk⟩
    · obtain ⟨n, i, hi, hbounds⟩ := ih htail (by omega)
      exact ⟨n + 1, i, hi, hbounds⟩

/-- What precedes an instruction is a body of its own unless a branch leads out of it. -/
theorem decode_take_start (h : Run r (Cursor.ofBytes bytes) (front ++ i :: back) d)
    (hclosed : Closed (front ++ i :: back)) :
    ((∀ j ∈ front, ∀ t ∈ j.branchTargets, t < i.offset) →
      decode r (bytes.take i.offset) = .ok front) ∧
    (¬ (∀ j ∈ front, ∀ t ∈ j.branchTargets, t < i.offset) →
      ∃ j t, FirstBeyond i.offset front j t ∧
        decode r (bytes.take i.offset) = .error (.invalidTarget j.offset t)) := by
  have hrun := run_take_start h
  have hstarts : ∀ j ∈ front, ∀ t ∈ j.branchTargets, t ∈ starts front ↔ t < i.offset := by
    intro j hj t ht
    exact h.mem_starts_front_iff (hclosed j (List.mem_append_left _ hj) t ht)
  have hbelow : Closed front ↔ ∀ j ∈ front, ∀ t ∈ j.branchTargets, t < i.offset :=
    forall₂_congr fun j hj => forall₂_congr fun t ht => hstarts j hj t ht
  rw [← hbelow]
  constructor
  · intro hfront
    exact decode_eq_ok_iff.mpr ⟨_, hrun, hfront⟩
  · intro hfront
    have hlt := fun j => hrun.offset_lt (i := j)
    rw [← strayTarget?_eq_none_iff hlt] at hfront
    obtain ⟨e, he⟩ := Option.ne_none_iff_exists'.mp hfront
    obtain ⟨j, t, hstray, rfl⟩ := (strayTarget?_eq_some_iff hlt).mp he
    exact ⟨j, t, hstray.firstBeyond hstarts, decode_of_error (stream_of_stray hrun rfl he)⟩

/-- A body cut off at `k` is refused at the instruction that the cut falls into. If the cut falls
between two instructions, the front part decodes as before unless a branch leads out of it. -/
theorem decode_take (h : decode r bytes = .ok body) (hk : k < bytes.length) :
    (∃ (n : Nat) (i : Instruction), body[n]? = some i ∧ i.offset ≤ k ∧ k < i.nextOffset) ∧
    ∀ (n : Nat) (i : Instruction), body[n]? = some i →
      (i.offset < k → k < i.nextOffset →
        decode r (bytes.take k) = .error (.truncated i.offset)) ∧
      (i.offset = k →
        ((∀ j ∈ body.take n, ∀ t ∈ j.branchTargets, t < k) →
          decode r (bytes.take k) = .ok (body.take n)) ∧
        (¬ (∀ j ∈ body.take n, ∀ t ∈ j.branchTargets, t < k) →
          ∃ j t, FirstBeyond k (body.take n) j t ∧
            decode r (bytes.take k) = .error (.invalidTarget j.offset t))) := by
  obtain ⟨hrun, hclosed⟩ := decode_eq_ok_iff_run.mp h
  refine ⟨hrun.tiles.exists_at (Nat.zero_le k) hk, ?_⟩
  intro n i hi
  have hsplit : body.take n ++ i :: body.drop (n + 1) = body := by
    obtain ⟨hn, rfl⟩ := List.getElem?_eq_some_iff.mp hi
    rw [← List.drop_eq_getElem_cons, List.take_append_drop]
  rw [← hsplit] at hrun hclosed
  refine ⟨fun hlt hnext => decode_take_inside hrun hlt hnext, ?_⟩
  rintro rfl
  exact decode_take_start hrun hclosed

/-- The body of a loop, cut inside its jump table, before its return, and behind a branch whose
target is cut off. -/
theorem decode_take_loop : decode oneString loopBytes = .ok loopBody ∧
    decode oneString (loopBytes.take 13) = .error (.truncated 7) ∧
    decode oneString (loopBytes.take 16) = .ok (loopBody.take 3) ∧
    ∃ j t, FirstBeyond 2 (loopBody.take 1) j t ∧
      decode oneString (loopBytes.take 2) = .error (.invalidTarget j.offset t) := by
  have h : decode oneString loopBytes = .ok loopBody := by cbv
  refine ⟨h, ?_, ?_, ?_⟩
  · exact ((decode_take h (k := 13) (by decide)).2 2 _ rfl).1 (by decide) (by decide)
  · exact (((decode_take h (k := 16) (by decide)).2 3 _ rfl).2 rfl).1 (by decide)
  · exact (((decode_take h (k := 2) (by decide)).2 1 _ rfl).2 rfl).2 (by decide)

end Cil.Decode
