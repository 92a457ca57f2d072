import Mathlib
import Cil.Proofs.Layout

/-! Decoding a body and encoding one undo each other. -/
namespace Cil

variable {r : Resolver} {k q : Nat} {raws : List RawInstruction} {i : Instruction}
  {body : List Instruction} {c d : Cursor}

/-- `chunk` is an encoding of the decoded instruction `i`: its opcode, then an operand that the
resolver turns into the one of `i`. -/
structure Instruction.EncodedBy (r : Resolver) (i : Instruction) (chunk : List UInt8) : Prop where
  mem_table : i.opcode ∈ Opcode.table
  hasShape : i.operand.hasShape i.opcode.operand = true
  size_eq : i.size =
    i.opcode.size + i.opcode.operand.size?.getD (4 + 4 * i.branchTargets.length)
  length_eq : chunk.length = i.size
  bytes_eq : ∃ raw : RawOperand, raw.hasShape i.opcode.operand = true ∧
    raw.Fits i.opcode.operand i.nextOffset ∧ raw.resolve r i.opcode.operand = .ok i.operand ∧
      chunk = i.opcode.bytes ++ raw.bytes i.opcode.operand i.nextOffset

theorem RawInstruction.WellFormed.encodedBy {raw : RawInstruction} (hwf : raw.WellFormed k)
    (hres : raw.resolveAt r k = .ok i) : i.EncodedBy r (raw.bytesAt k) := by
  obtain ⟨a, ha, rfl⟩ := resolveAt_eq_ok_iff.mp hres
  refine ⟨hwf.mem_table, RawOperand.hasShape_of_resolve hwf.hasShape ha, ?_, hwf.length_bytesAt,
    raw.operand, hwf.hasShape, hwf.fits, ha, rfl⟩
  rw [Instruction.branchTargets, RawOperand.targets_of_resolve ha]
  exact congrArg _ (RawOperand.size_eq hwf.hasShape)

theorem encodedBy_of_resolveFrom (hwf : WellFormedFrom k raws)
    (hres : resolveFrom r k raws = .ok body) :
    ∃ chunks, encodeFrom k raws = chunks.flatten ∧
      List.Forall₂ (Instruction.EncodedBy r) body chunks := by
  induction raws generalizing k body with
  | nil =>
    cases resolveFrom_nil_eq_ok_iff.mp hres
    exact ⟨[], rfl, .nil⟩
  | cons raw raws ih =>
    obtain ⟨i, later, hi, hlater, rfl⟩ := resolveFrom_cons_eq_ok_iff.mp hres
    obtain ⟨chunks, hchunks, hbody⟩ := ih hwf.2 hlater
    refine ⟨raw.bytesAt k :: chunks, ?_, .cons (hwf.1.encodedBy hi) hbody⟩
    rw [encodeFrom, hchunks, List.flatten_cons]

/-- Decoding loses no byte: what has been decoded from a body, encoded piece by piece, is the
body. -/
theorem decode_loses_no_byte {bytes : List UInt8} (h : decode r bytes = .ok body) :
    ∃ chunks : List (List UInt8), bytes = chunks.flatten ∧
      List.Forall₂ (Instruction.EncodedBy r) body chunks := by
  obtain ⟨q, hrun, -⟩ := Decode.decode_eq_ok_iff.mp h
  obtain ⟨raws, hwf, hres, hbytes⟩ := hrun.exists_encodeFrom
  obtain ⟨chunks, hchunks, hbody⟩ := encodedBy_of_resolveFrom hwf hres
  refine ⟨chunks, ?_, hbody⟩
  rwa [hchunks, List.append_nil] at hbytes

/-- A resolver that knows one string. -/
def oneString : Resolver where
  member t := .error ⟨t, .member⟩
  string t := if t = ⟨0x70000001⟩ then .ok "hi" else .error ⟨t, .string⟩
  signature t := .error ⟨t, .signature⟩

/-- A branch ahead, a string, a jump table that leads back, and a return. -/
def loopBytes : List UInt8 :=
  [0x2B, 0x05, 0x72, 0x01, 0x00, 0x00, 0x70, 0x45, 0x01, 0x00, 0x00, 0x00, 0xF2, 0xFF, 0xFF, 0xFF,
    0x2A]

def loopBody : List Instruction :=
  [⟨0, 2, ⟨"br.s", 0x2B, .shortBranch, .branch⟩, .target 7⟩,
    ⟨2, 5, ⟨"ldstr", 0x72, .string, .next⟩, .string "hi"⟩,
    ⟨7, 9, ⟨"switch", 0x45, .switch, .conditional⟩, .switch [2]⟩,
    ⟨16, 1, ⟨"ret", 0x2A, .none, .returns⟩, .none⟩]

theorem decode_loses_no_byte_loop : decode oneString loopBytes = .ok loopBody ∧
    ∃ chunks : List (List UInt8), loopBytes = chunks.flatten ∧
      List.Forall₂ (Instruction.EncodedBy oneString) loopBody chunks := by
  have h : decode oneString loopBytes = .ok loopBody := by cbv
  exact ⟨h, decode_loses_no_byte h⟩

/-- A body that can be written for a resolver: its tokens are known to the resolver, and its
branches lead to its instructions. -/
structure ValidBody (r : Resolver) (raws : List RawInstruction) : Prop where
  wellFormed : WellFormedFrom 0 raws
  resolves : ∀ raw ∈ raws, ∃ a, raw.operand.resolve r raw.opcode.operand = .ok a
  closed : ∀ raw ∈ raws, ∀ t ∈ raw.operand.targets, t ∈ startsFrom 0 raws

theorem closed_of_resolveFrom (hres : resolveFrom r k raws = .ok body)
    (h : ∀ raw ∈ raws, ∀ t ∈ raw.operand.targets, t ∈ startsFrom k raws) :
    Decode.Closed body := by
  intro i hi t ht
  have hmem := List.mem_map_of_mem (f := (·.branchTargets)) hi
  rw [branchTargets_of_resolveFrom hres] at hmem
  obtain ⟨raw, hraw, htargets⟩ := List.mem_map.mp hmem
  rw [starts_of_resolveFrom hres]
  exact h raw hraw t (htargets ▸ ht)

/-- Decoding accepts every body that can be written, and gives back its instructions. -/
theorem decode_encode_of_validBody (h : ValidBody r raws) :
    ∃ body, resolveFrom r 0 raws = .ok body ∧ decode r (encode raws) = .ok body := by
  obtain ⟨body, hres⟩ := exists_resolveFrom h.resolves 0
  obtain ⟨q, hrun⟩ := Decode.run_encodeFrom h.wellFormed hres []
  rw [List.append_nil] at hrun
  exact ⟨body, hres, Decode.decode_eq_ok_iff.mpr ⟨q, hrun, closed_of_resolveFrom hres h.closed⟩⟩

def loopRaws : List RawInstruction :=
  [⟨⟨"br.s", 0x2B, .shortBranch, .branch⟩, .target 7⟩,
    ⟨⟨"ldstr", 0x72, .string, .next⟩, .token ⟨0x70000001⟩⟩,
    ⟨⟨"switch", 0x45, .switch, .conditional⟩, .switch [2]⟩,
    ⟨⟨"ret", 0x2A, .none, .returns⟩, .none⟩]

theorem validBody_loopRaws : ValidBody oneString loopRaws where
  wellFormed := by decide +kernel
  resolves := by
    intro raw hraw
    simp only [loopRaws, List.mem_cons, List.not_mem_nil, or_false] at hraw
    rcases hraw with rfl | rfl | rfl | rfl <;> exact ⟨_, rfl⟩
  closed := by decide

theorem decode_encode_of_validBody_loop : ValidBody oneString loopRaws ∧
    ∃ body, resolveFrom oneString 0 loopRaws = .ok body ∧
      decode oneString (encode loopRaws) = .ok body :=
  ⟨validBody_loopRaws, decode_encode_of_validBody validBody_loopRaws⟩

end Cil
