import Mathlib
import Cil.Proofs.Body

/-! Runs of the decoder and bodies laid out back to back are the same thing. -/
namespace Cil

variable {r : Resolver} {k : Nat} {raw : RawInstruction} {raws : List RawInstruction}
  {body : List Instruction} {c d : Cursor}

/-- Every instruction is well formed at the offset it is laid out at. -/
def WellFormedFrom : (offset : Nat) → List RawInstruction → Prop
  | _, [] => True
  | offset, raw :: raws => raw.WellFormed offset ∧ WellFormedFrom (offset + raw.size) raws

instance : (offset : Nat) → (raws : List RawInstruction) → Decidable (WellFormedFrom offset raws)
  | _, [] => .isTrue trivial
  | offset, raw :: raws =>
    have : Decidable (WellFormedFrom (offset + raw.size) raws) := instDecidableWellFormedFrom _ _
    inferInstanceAs (Decidable (raw.WellFormed offset ∧ _))

/-- The offsets of instructions laid out back to back. -/
def startsFrom : (offset : Nat) → List RawInstruction → List Nat
  | _, [] => []
  | offset, raw :: raws => offset :: startsFrom (offset + raw.size) raws

theorem resolveFrom_nil_eq_ok_iff : resolveFrom r k [] = .ok body ↔ body = [] := by
  simp [resolveFrom, eq_comm]

theorem resolveFrom_cons_eq_ok_iff : resolveFrom r k (raw :: raws) = .ok body ↔
    ∃ i later, raw.resolveAt r k = .ok i ∧ resolveFrom r (k + raw.size) raws = .ok later ∧
      body = i :: later := by
  rw [resolveFrom]
  cases raw.resolveAt r k with
  | error e => simp [bind, Except.bind]
  | ok i =>
    cases resolveFrom r (k + raw.size) raws with
    | error e => simp [bind, Except.bind]
    | ok later => simp [bind, Except.bind, pure, Except.pure, eq_comm]

theorem exists_resolveFrom
    (h : ∀ raw ∈ raws, ∃ a, raw.operand.resolve r raw.opcode.operand = .ok a) (k : Nat) :
    ∃ body, resolveFrom r k raws = .ok body := by
  induction raws generalizing k with
  | nil => exact ⟨[], rfl⟩
  | cons raw raws ih =>
    obtain ⟨a, ha⟩ := h raw List.mem_cons_self
    obtain ⟨later, hlater⟩ :=
      ih (fun raw' hraw => h raw' (List.mem_cons_of_mem raw hraw)) (k + raw.size)
    exact ⟨_, resolveFrom_cons_eq_ok_iff.mpr
      ⟨_, later, RawInstruction.resolveAt_eq_ok_iff.mpr ⟨a, ha, rfl⟩, hlater, rfl⟩⟩

theorem starts_of_resolveFrom (h : resolveFrom r k raws = .ok body) :
    Decode.starts body = startsFrom k raws := by
  induction raws generalizing k body with
  | nil =>
    cases resolveFrom_nil_eq_ok_iff.mp h
    rfl
  | cons raw raws ih =>
    obtain ⟨i, later, hi, hlater, rfl⟩ := resolveFrom_cons_eq_ok_iff.mp h
    obtain ⟨a, -, rfl⟩ := RawInstruction.resolveAt_eq_ok_iff.mp hi
    have htail := ih hlater
    rw [startsFrom, ← htail]
    rfl

theorem branchTargets_of_resolveFrom (h : resolveFrom r k raws = .ok body) :
    body.map (·.branchTargets) = raws.map (·.operand.targets) := by
  induction raws generalizing k body with
  | nil =>
    cases resolveFrom_nil_eq_ok_iff.mp h
    rfl
  | cons raw raws ih =>
    obtain ⟨i, later, hi, hlater, rfl⟩ := resolveFrom_cons_eq_ok_iff.mp h
    obtain ⟨a, ha, rfl⟩ := RawInstruction.resolveAt_eq_ok_iff.mp hi
    rw [List.map_cons, List.map_cons, ih hlater, Instruction.branchTargets,
      RawOperand.targets_of_resolve ha]

namespace Decode

/-- The bytes that a run has passed are the encoding of what it has decoded. -/
theorem Run.exists_encodeFrom (h : Run r c body d) :
    ∃ raws, WellFormedFrom c.pos raws ∧ resolveFrom r c.pos raws = .ok body ∧
      c.rest = encodeFrom c.pos raws ++ d.rest := by
  induction h with
  | nil => exact ⟨[], trivial, rfl, rfl⟩
  | cons hi _ ih =>
    obtain ⟨raw, hwf, hres, hrest, hpos⟩ := instruction_eq_ok_iff.mp hi
    obtain ⟨raws, hwfs, hress, hrests⟩ := ih
    rw [hpos] at hwfs hress hrests
    refine ⟨raw :: raws, ⟨hwf, hwfs⟩,
      resolveFrom_cons_eq_ok_iff.mpr ⟨_, _, hres, hress, rfl⟩, ?_⟩
    rw [hrest, hrests, encodeFrom, List.append_assoc]

/-- An encoding is run through to its end. -/
theorem run_encodeFrom (hwf : WellFormedFrom k raws) (hres : resolveFrom r k raws = .ok body)
    (rest : List UInt8) :
    ∃ q, Run r ⟨k, encodeFrom k raws ++ rest⟩ body ⟨q, rest⟩ := by
  induction raws generalizing k body with
  | nil =>
    cases resolveFrom_nil_eq_ok_iff.mp hres
    exact ⟨k, .nil⟩
  | cons raw raws ih =>
    obtain ⟨i, later, hi, hlater, rfl⟩ := resolveFrom_cons_eq_ok_iff.mp hres
    obtain ⟨q, hrun⟩ := ih hwf.2 hlater
    have hstep := instruction_bytesAt hwf.1 hi (encodeFrom (k + raw.size) raws ++ rest)
    rw [← List.append_assoc] at hstep
    exact ⟨q, .cons hstep hrun⟩

end Decode

end Cil
