import Mathlib
import Cil.Decode.Body
import Cil.Proofs.Instruction
import Cil.Proofs.OffsetSet

/-! Decoding a body is a run of single instructions, as long as they decode, and a check of what
the run has found. -/
namespace Cil

theorem Cursor.length_ofBytes (bytes : List UInt8) : (ofBytes bytes).length = bytes.length :=
  Nat.zero_add _

namespace Decode

variable {r : Resolver} {c d d' : Cursor} {i : Instruction} {body : List Instruction} {e : Error}

/-- The instructions of `body` decode one after the other, from `c` up to `d`. -/
inductive Run (r : Resolver) : Cursor → List Instruction → Cursor → Prop
  | nil {c : Cursor} : Run r c [] c
  | cons {c d e : Cursor} {i : Instruction} {body : List Instruction}
    (hi : instruction r c = .ok i d) (hrun : Run r d body e) : Run r c (i :: body) e

theorem hasMore_eq_false_iff : c.hasMore = false ↔ c.rest = [] := by
  cases hrest : c.rest <;> simp [Cursor.hasMore, hrest]

theorem hasMore_eq_true_iff : c.hasMore = true ↔ c.rest ≠ [] := by
  rw [← Bool.not_eq_false, hasMore_eq_false_iff]

theorem rest_ne_nil_of_instruction (h : instruction r c = .ok i d) : c.rest ≠ [] := by
  intro hrest
  have hlt := remaining_instruction_lt h
  simp [Cursor.remaining, hrest] at hlt

theorem sweep_of_end (h : c.rest = []) : sweep r c = ⟨[], c, none⟩ := by
  rw [sweep, if_neg (by simp [hasMore_eq_false_iff.mpr h])]

theorem sweep_of_error (hmore : c.rest ≠ []) (h : instruction r c = .error e d) :
    sweep r c = ⟨[], d, some e⟩ := by
  rw [sweep, if_pos (hasMore_eq_true_iff.mpr hmore)]
  split
  next he =>
    rw [h] at he
    cases he
    rfl
  next he =>
    rw [h] at he
    cases he

theorem sweep_of_ok (h : instruction r c = .ok i d) :
    sweep r c = { sweep r d with instructions := i :: (sweep r d).instructions } := by
  rw [sweep, if_pos (hasMore_eq_true_iff.mpr (rest_ne_nil_of_instruction h))]
  split
  next he =>
    rw [h] at he
    cases he
  next he =>
    rw [h] at he
    cases he
    rfl

theorem Run.sweep (h : Run r c body d) :
    sweep r c = { sweep r d with instructions := body ++ (sweep r d).instructions } := by
  induction h with
  | nil => rfl
  | cons hi _ ih => rw [sweep_of_ok hi, ih, List.cons_append]

/-- Every run can be continued until the bytes are used up or do not decode. -/
theorem exists_run (r : Resolver) (c : Cursor) : ∃ body d, Run r c body d ∧
    (d.rest = [] ∨ d.rest ≠ [] ∧ ∃ e d', instruction r d = .error e d') := by
  by_cases hrest : c.rest = []
  · exact ⟨[], c, .nil, Or.inl hrest⟩
  · cases hi : instruction r c with
    | error e d' => exact ⟨[], c, .nil, Or.inr ⟨hrest, e, d', hi⟩⟩
    | ok i c' =>
      obtain ⟨body, d, hrun, hend⟩ := exists_run r c'
      exact ⟨i :: body, d, .cons hi hrun, hend⟩
termination_by c.remaining
decreasing_by exact remaining_instruction_lt hi

theorem stream_of_error (hrun : Run r c body d) (hmore : d.rest ≠ [])
    (h : instruction r d = .error e d') : stream r c = .error e d' := by
  simp only [stream, hrun.sweep, sweep_of_error hmore h]

theorem stream_of_stray (hrun : Run r c body d) (hend : d.rest = [])
    (h : strayTarget? c.length body = some e) : stream r c = .error e d := by
  simp only [stream, hrun.sweep, sweep_of_end hend, List.append_nil, h]

theorem stream_of_closed (hrun : Run r c body d) (hend : d.rest = [])
    (h : strayTarget? c.length body = none) : stream r c = .ok body d := by
  simp only [stream, hrun.sweep, sweep_of_end hend, List.append_nil, h]

/-- A run moves the cursor over a front part of what was left. -/
theorem Run.rest_eq (h : Run r c body d) :
    ∃ front, c.rest = front ++ d.rest ∧ d.pos = c.pos + front.length := by
  induction h with
  | nil => exact ⟨[], rfl, rfl⟩
  | cons hi _ ih =>
    obtain ⟨raw, hwf, -, hrest, hpos⟩ := instruction_eq_ok_iff.mp hi
    obtain ⟨front, hfront, hend⟩ := ih
    refine ⟨raw.bytesAt _ ++ front, by rw [hrest, hfront, List.append_assoc], ?_⟩
    rw [hend, hpos, List.length_append, hwf.length_bytesAt, Nat.add_assoc]

theorem Run.length_eq (h : Run r c body d) : d.length = c.length := by
  obtain ⟨front, hrest, hpos⟩ := h.rest_eq
  simp only [Cursor.length, Cursor.remaining, hrest, hpos, List.length_append]
  omega

theorem Run.end_eq (h : Run r c body d) (hend : d.rest = []) : d = ⟨c.length, []⟩ := by
  have hlength := h.length_eq
  obtain ⟨pos, rest⟩ := d
  cases hend
  exact congrArg (Cursor.mk · []) hlength

/-- The offsets follow each other without gap or overlap, from `p` up to `q`. -/
def Tiles (p q : Nat) : List Instruction → Prop
  | [] => p = q
  | i :: body => i.offset = p ∧ 1 ≤ i.size ∧ Tiles i.nextOffset q body

theorem Run.tiles (h : Run r c body d) : Tiles c.pos d.pos body := by
  induction h with
  | nil => rfl
  | cons hi _ ih =>
    obtain ⟨raw, -, hres, -, hpos⟩ := instruction_eq_ok_iff.mp hi
    obtain ⟨a, -, rfl⟩ := RawInstruction.resolveAt_eq_ok_iff.mp hres
    rw [hpos] at ih
    exact ⟨rfl, raw.size_pos, ih⟩

theorem Tiles.le {p q : Nat} (h : Tiles p q body) : p ≤ q := by
  induction body generalizing p with
  | nil => exact Nat.le_of_eq h
  | cons i body ih =>
    obtain ⟨hoffset, hsize, htail⟩ := h
    have hle := ih htail
    simp only [Instruction.nextOffset] at hle
    omega

theorem Tiles.offset_bounds {p q : Nat} (h : Tiles p q body) (hi : i ∈ body) :
    p ≤ i.offset ∧ i.nextOffset ≤ q ∧ 1 ≤ i.size := by
  induction body generalizing p with
  | nil => cases hi
  | cons j body ih =>
    obtain ⟨hoffset, hsize, htail⟩ := h
    rcases List.mem_cons.mp hi with rfl | hi
    · exact ⟨Nat.le_of_eq hoffset.symm, htail.le, hsize⟩
    · obtain ⟨hle, hbounds⟩ := ih htail hi
      simp only [Instruction.nextOffset] at hle
      exact ⟨by omega, hbounds⟩

theorem Run.offset_lt (h : Run r c body d) (hi : i ∈ body) : i.offset < c.length := by
  obtain ⟨-, hle, hsize⟩ := h.tiles.offset_bounds hi
  rw [← h.length_eq, Cursor.length]
  simp only [Instruction.nextOffset] at hle
  omega

/-- The offsets at which the instructions of a body start. -/
def starts (body : List Instruction) : List Nat := body.map (·.offset)

/-- Every branch leads to an instruction of the body. -/
def Closed (body : List Instruction) : Prop :=
  ∀ i ∈ body, ∀ t ∈ i.branchTargets, t ∈ starts body

/-- `i` is the first instruction with a target at which none starts, and `t` its first such
target. -/
def FirstStray (body : List Instruction) (i : Instruction) (t : Nat) : Prop :=
  (∃ before after, body = before ++ i :: after ∧
    ∀ j ∈ before, ∀ u ∈ j.branchTargets, u ∈ starts body) ∧
  ∃ before after, i.branchTargets = before ++ t :: after ∧
    (∀ u ∈ before, u ∈ starts body) ∧ t ∉ starts body

theorem contains_starts_iff {n : Nat} (h : ∀ i ∈ body, i.offset < n) (t : Nat) :
    (OffsetSet.ofList n (body.map (·.offset))).contains (t : Int) = true ↔ t ∈ starts body := by
  rw [OffsetSet.contains_ofList_iff, starts]
  refine and_iff_right_of_imp fun ht => ?_
  obtain ⟨i, hi, rfl⟩ := List.mem_map.mp ht
  exact h i hi

theorem find?_stray_eq_none_iff {n : Nat} (h : ∀ i ∈ body, i.offset < n) (ts : List Nat) :
    (ts.find? fun t : Nat => !(OffsetSet.ofList n (body.map (·.offset))).contains t) = none ↔
      ∀ t ∈ ts, t ∈ starts body := by
  simp only [List.find?_eq_none, Bool.not_eq_true', Bool.not_eq_false, contains_starts_iff h]

theorem find?_stray_eq_some_iff {n t : Nat} (h : ∀ i ∈ body, i.offset < n) (ts : List Nat) :
    (ts.find? fun t : Nat => !(OffsetSet.ofList n (body.map (·.offset))).contains t) = some t ↔
      ∃ before after, ts = before ++ t :: after ∧ (∀ u ∈ before, u ∈ starts body) ∧
        t ∉ starts body := by
  simp only [List.find?_eq_some_iff_append, Bool.not_not, contains_starts_iff h,
    Bool.not_eq_true', ← Bool.not_eq_true]
  constructor
  · rintro ⟨ht, before, after, heq, hbefore⟩
    exact ⟨before, after, heq, hbefore, ht⟩
  · rintro ⟨before, after, heq, hbefore, ht⟩
    exact ⟨ht, before, after, heq, hbefore⟩

theorem strayTarget?_eq_none_iff {n : Nat} (h : ∀ i ∈ body, i.offset < n) :
    strayTarget? n body = none ↔ Closed body := by
  simp only [Closed, strayTarget?, List.findSome?_eq_none_iff, Option.map_eq_none_iff,
    find?_stray_eq_none_iff h]

theorem strayTarget?_eq_some_iff {n : Nat} (h : ∀ i ∈ body, i.offset < n) :
    strayTarget? n body = some e ↔
      ∃ i t, FirstStray body i t ∧ e = .invalidTarget i.offset t := by
  simp only [strayTarget?, List.findSome?_eq_some_iff, Option.map_eq_some_iff,
    Option.map_eq_none_iff, find?_stray_eq_none_iff h, find?_stray_eq_some_iff h]
  constructor
  · rintro ⟨before, i, after, heq, ⟨t, ht, rfl⟩, hbefore⟩
    exact ⟨i, t, ⟨⟨before, after, heq, hbefore⟩, ht⟩, rfl⟩
  · rintro ⟨i, t, ⟨⟨before, after, heq, hbefore⟩, ht⟩, rfl⟩
    exact ⟨before, i, after, heq, ⟨t, ht, rfl⟩, hbefore⟩

theorem stream_eq_ok_iff :
    stream r c = .ok body d ↔ Run r c body d ∧ d.rest = [] ∧ Closed body := by
  constructor
  · intro h
    obtain ⟨found, stop, hrun, hend | ⟨hmore, e, d', herror⟩⟩ := exists_run r c
    · have hstray := strayTarget?_eq_none_iff fun i => hrun.offset_lt (i := i)
      cases htarget : strayTarget? c.length found with
      | none =>
        rw [stream_of_closed hrun hend htarget] at h
        cases h
        exact ⟨hrun, hend, hstray.mp htarget⟩
      | some e =>
        rw [stream_of_stray hrun hend htarget] at h
        cases h
    · rw [stream_of_error hrun hmore herror] at h
      cases h
  · rintro ⟨hrun, hend, hclosed⟩
    have hstray := strayTarget?_eq_none_iff fun i => hrun.offset_lt (i := i)
    exact stream_of_closed hrun hend (hstray.mpr hclosed)

theorem decode_of_ok {bytes : List UInt8} (h : stream r (Cursor.ofBytes bytes) = .ok body d) :
    decode r bytes = .ok body := by
  simp only [decode, h]

theorem decode_of_error {bytes : List UInt8}
    (h : stream r (Cursor.ofBytes bytes) = .error e d) : decode r bytes = .error e := by
  simp only [decode, h]

theorem decode_eq_ok_iff {bytes : List UInt8} : decode r bytes = .ok body ↔
    ∃ q, Run r (Cursor.ofBytes bytes) body ⟨q, []⟩ ∧ Closed body := by
  constructor
  · intro h
    cases hstream : stream r (Cursor.ofBytes bytes) with
    | ok found stop =>
      rw [decode_of_ok hstream] at h
      cases h
      obtain ⟨hrun, hend, hclosed⟩ := stream_eq_ok_iff.mp hstream
      obtain ⟨q, rest⟩ := stop
      cases hend
      exact ⟨q, hrun, hclosed⟩
    | error e stop =>
      rw [decode_of_error hstream] at h
      cases h
  · rintro ⟨q, hrun, hclosed⟩
    exact decode_of_ok (stream_eq_ok_iff.mpr ⟨hrun, rfl, hclosed⟩)

theorem decode_eq_ok_iff_run {bytes : List UInt8} : decode r bytes = .ok body ↔
    Run r (Cursor.ofBytes bytes) body ⟨bytes.length, []⟩ ∧ Closed body := by
  rw [decode_eq_ok_iff]
  constructor
  · rintro ⟨q, hrun, hclosed⟩
    have hend := hrun.end_eq rfl
    rw [Cursor.length_ofBytes] at hend
    exact ⟨hend ▸ hrun, hclosed⟩
  · rintro ⟨hrun, hclosed⟩
    exact ⟨bytes.length, hrun, hclosed⟩

end Decode

end Cil
