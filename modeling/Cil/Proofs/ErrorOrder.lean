import Mathlib
import Cil.Proofs.RoundTrip

/-! Which of several errors of a body is reported. -/
namespace Cil.Decode

variable {r : Resolver} {k : Nat} {bytes : List UInt8} {body : List Instruction} {d : Cursor}
  {e : Error}

/-- `body` is decoded from the start of `bytes`, and no further instruction at offset `k`, where it
ends. -/
structure MaximalRun (r : Resolver) (bytes : List UInt8) (body : List Instruction) (k : Nat) :
    Prop where
  run : Run r (Cursor.ofBytes bytes) body ⟨k, bytes.drop k⟩
  stops : ∀ i d, instruction r ⟨k, bytes.drop k⟩ ≠ .ok i d

theorem Run.eq_drop (h : Run r (Cursor.ofBytes bytes) body d) : d = ⟨d.pos, bytes.drop d.pos⟩ := by
  obtain ⟨front, hrest, hpos⟩ := h.rest_eq
  have hpos' : d.pos = front.length := by simpa [Cursor.ofBytes] using hpos
  have hbytes : bytes = front ++ d.rest := hrest
  rw [hpos', hbytes, List.drop_left, ← hpos']

theorem exists_maximalRun (r : Resolver) (bytes : List UInt8) :
    ∃ body k, MaximalRun r bytes body k := by
  obtain ⟨body, d, hrun, hend⟩ := exists_run r (Cursor.ofBytes bytes)
  have hd := hrun.eq_drop
  refine ⟨body, d.pos, hd ▸ hrun, ?_⟩
  rw [← hd]
  intro i d' hi
  rcases hend with hend | ⟨-, e, d'', herror⟩
  · exact rest_ne_nil_of_instruction hi hend
  · rw [herror] at hi
    cases hi

theorem MaximalRun.le_length (h : MaximalRun r bytes body k) : k ≤ bytes.length := by
  have hlength := h.run.length_eq
  simp only [Cursor.length, Cursor.remaining, Cursor.ofBytes, List.length_drop] at hlength
  omega

/-- A run that stops early is answered with the error of the instruction it stops at, whatever the
targets before it. -/
theorem MaximalRun.decode_of_lt (h : MaximalRun r bytes body k) (hk : k < bytes.length) :
    ∃ e d, instruction r ⟨k, bytes.drop k⟩ = .error e d ∧ decode r bytes = .error e := by
  have hmore : bytes.drop k ≠ [] := by
    intro hnil
    have hle := List.drop_eq_nil_iff.mp hnil
    omega
  cases hi : instruction r ⟨k, bytes.drop k⟩ with
  | ok i d => exact absurd hi (h.stops i d)
  | error e d => exact ⟨e, d, rfl, decode_of_error (stream_of_error h.run hmore hi)⟩

theorem MaximalRun.decode_eq_error_iff_fault (h : MaximalRun r bytes body k)
    (hk : k < bytes.length) :
    decode r bytes = .error e ↔ ∃ n, Fault r k (bytes.drop k) e n := by
  obtain ⟨e', d, hi, hdecode⟩ := h.decode_of_lt hk
  rw [hdecode, Except.error.injEq]
  constructor
  · rintro rfl
    obtain ⟨n, hfault, -⟩ := instruction_eq_error_iff.mp hi
    exact ⟨n, hfault⟩
  · rintro ⟨n, hfault⟩
    have herror := instruction_of_fault hfault
    rw [hi, EStateM.Result.error.injEq] at herror
    exact herror.1

/-- A run that reaches the end is answered with what the check of its targets finds. -/
theorem MaximalRun.decode_of_eq (h : MaximalRun r bytes body k) (hk : k = bytes.length) :
    decode r bytes =
      match strayTarget? (Cursor.ofBytes bytes).length body with
      | some e => .error e
      | none => .ok body := by
  have hend : bytes.drop k = [] := List.drop_eq_nil_iff.mpr (Nat.le_of_eq hk.symm)
  cases htarget : strayTarget? (Cursor.ofBytes bytes).length body with
  | none => exact decode_of_ok (stream_of_closed h.run hend htarget)
  | some e => exact decode_of_error (stream_of_stray h.run hend htarget)

theorem MaximalRun.decode_eq_error_iff_firstStray (h : MaximalRun r bytes body k)
    (hk : k = bytes.length) : decode r bytes = .error e ↔
      ∃ i t, FirstStray body i t ∧ e = .invalidTarget i.offset t := by
  rw [h.decode_of_eq hk, ← strayTarget?_eq_some_iff fun i => h.run.offset_lt (i := i)]
  split
  next e' htarget => simp [htarget]
  next htarget => simp [htarget]

theorem MaximalRun.decode_eq_ok_iff_closed (h : MaximalRun r bytes body k)
    (hk : k = bytes.length) : decode r bytes = .ok body ↔ Closed body := by
  rw [h.decode_of_eq hk, ← strayTarget?_eq_none_iff fun i => h.run.offset_lt (i := i)]
  split
  next e' htarget => simp [htarget]
  next htarget => simp [htarget]

/-- The error that decoding reports: that of the first instruction that does not decode, and only
if there is none, that of the first branch that leads to no instruction. -/
theorem decode_reports_first_error (r : Resolver) (bytes : List UInt8) :
    (∃ body k, MaximalRun r bytes body k) ∧
      ∀ body k, MaximalRun r bytes body k → k ≤ bytes.length ∧
        (k < bytes.length →
          (∃ e d, instruction r ⟨k, bytes.drop k⟩ = .error e d ∧ decode r bytes = .error e) ∧
            ∀ e, decode r bytes = .error e ↔ ∃ n, Fault r k (bytes.drop k) e n) ∧
        (k = bytes.length → (decode r bytes = .ok body ↔ Closed body) ∧
          ∀ e, decode r bytes = .error e ↔
            ∃ i t, FirstStray body i t ∧ e = .invalidTarget i.offset t) := by
  refine ⟨exists_maximalRun r bytes, fun body k h => ⟨h.le_length, ?_, ?_⟩⟩
  · intro hk
    exact ⟨h.decode_of_lt hk, fun e => h.decode_eq_error_iff_fault hk⟩
  · intro hk
    exact ⟨h.decode_eq_ok_iff_closed hk, fun e => h.decode_eq_error_iff_firstStray hk⟩

/-- A branch that leads outside, and then a byte that is no opcode. -/
def strayThenUnknown : List UInt8 := [0x2B, 0x7F, 0x24]

theorem maximalRun_strayThenUnknown : MaximalRun oneString strayThenUnknown
    [⟨0, 2, ⟨"br.s", 0x2B, .shortBranch, .branch⟩, .target 129⟩] 2 where
  run := .cons (by cbv) .nil
  stops := by
    intro i d hi
    have herror : instruction oneString ⟨2, strayThenUnknown.drop 2⟩ =
        .error (.unknownOpcode 2 0x24) ⟨3, []⟩ := by cbv
    rw [herror] at hi
    cases hi

theorem decode_reports_first_error_unknown :
    decode oneString strayThenUnknown = .error (.unknownOpcode 2 0x24) := by
  have hreport := (decode_reports_first_error oneString strayThenUnknown).2 _ _
    maximalRun_strayThenUnknown
  exact ((hreport.2.1 (by decide)).2 _).mpr ⟨1, .unknownByte (by decide) (by decide +kernel)⟩

end Cil.Decode
