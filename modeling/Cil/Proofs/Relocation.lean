import Mathlib
import Cil.Proofs.RoundTrip

/-! A body that is moved to another offset takes its instructions and branch targets along. -/
namespace Cil

variable {r : Resolver} {k n next : Nat} {kind : OperandKind} {c d : Cursor} {i j : Instruction}
  {body : List Instruction} {raw : RawInstruction}

/-- The operand after a move by `n` bytes: every target moves along. -/
def Operand.shift (n : Nat) : Operand → Operand
  | target offset => target (n + offset)
  | switch offsets => switch (offsets.map (n + ·))
  | a => a

/-- The instruction after a move by `n` bytes. -/
def Instruction.shift (n : Nat) (i : Instruction) : Instruction :=
  { i with offset := n + i.offset, operand := i.operand.shift n }

def Cursor.shift (n : Nat) (c : Cursor) : Cursor := { c with pos := n + c.pos }

theorem Operand.targets_shift (n : Nat) (a : Operand) :
    (a.shift n).targets = a.targets.map (n + ·) := by
  cases a <;> rfl

theorem Instruction.branchTargets_shift (n : Nat) (i : Instruction) :
    (i.shift n).branchTargets = i.branchTargets.map (n + ·) :=
  Operand.targets_shift n i.operand

namespace RawOperand

def mapTargets (f : Nat → Nat) : RawOperand → RawOperand
  | target offset => target (f offset)
  | switch offsets => switch (offsets.map f)
  | raw => raw

def shift (n : Nat) (raw : RawOperand) : RawOperand := raw.mapTargets (n + ·)

theorem mapTargets_mapTargets (f g : Nat → Nat) (raw : RawOperand) :
    (raw.mapTargets f).mapTargets g = raw.mapTargets (g ∘ f) := by
  cases raw <;> simp [mapTargets]

theorem mapTargets_eq_self {f : Nat → Nat} {raw : RawOperand} (h : ∀ t ∈ raw.targets, f t = t) :
    raw.mapTargets f = raw := by
  cases raw with
  | target offset => rw [mapTargets, h offset List.mem_cons_self]
  | switch offsets =>
    have hmap : offsets.map f = offsets := (List.map_congr_left h).trans (List.map_id offsets)
    rw [mapTargets, hmap]
  | _ => rfl

/-- An operand that leads nowhere before offset `n` is a moved one. -/
theorem exists_shift {raw : RawOperand} (h : ∀ t ∈ raw.targets, n ≤ t) :
    ∃ back : RawOperand, back.shift n = raw := by
  refine ⟨raw.mapTargets (· - n), ?_⟩
  rw [shift, mapTargets_mapTargets]
  apply mapTargets_eq_self
  intro t ht
  exact Nat.add_sub_cancel' (h t ht)

@[simp]
theorem hasShape_shift (n : Nat) (raw : RawOperand) (kind : OperandKind) :
    (raw.shift n).hasShape kind = raw.hasShape kind := by
  cases raw <;> cases kind <;> rfl

@[simp]
theorem size_shift (n : Nat) (raw : RawOperand) (kind : OperandKind) :
    (raw.shift n).size kind = raw.size kind := by
  cases raw <;> simp [shift, mapTargets, size]

/-- A displacement is the difference of two offsets, and both of them move. -/
theorem displacement_shift (n offset next : Nat) :
    ((n + offset : Nat) : Int) - (n + next : Nat) = offset - next := by
  omega

theorem fits_shift_iff {raw : RawOperand} :
    (raw.shift n).Fits kind (n + next) ↔ raw.Fits kind next := by
  cases raw with
  | target offset => simp only [shift, mapTargets, Fits, displacement_shift]
  | switch offsets =>
    simp only [shift, mapTargets, Fits, List.length_map, List.forall_mem_map, displacement_shift]
  | _ => exact Iff.rfl

theorem bytes_shift (n next : Nat) (raw : RawOperand) (kind : OperandKind) :
    (raw.shift n).bytes kind (n + next) = raw.bytes kind next := by
  cases raw with
  | target offset => simp only [shift, mapTargets, bytes, displacement_shift]
  | switch offsets =>
    simp only [shift, mapTargets, bytes, List.length_map, List.flatMap_map, displacement_shift]
  | _ => rfl

theorem resolve_shift (n : Nat) (raw : RawOperand) (r : Resolver) (kind : OperandKind) :
    (raw.shift n).resolve r kind = (raw.resolve r kind).map (·.shift n) := by
  cases raw with
  | token t =>
    simp only [shift, mapTargets, resolve]
    split
    · cases r.string t <;> rfl
    · cases r.signature t <;> rfl
    · cases r.member t <;> rfl
  | _ => rfl

end RawOperand

namespace RawInstruction

def shift (n : Nat) (raw : RawInstruction) : RawInstruction :=
  { raw with operand := raw.operand.shift n }

theorem exists_shift (h : ∀ t ∈ raw.operand.targets, n ≤ t) :
    ∃ back : RawInstruction, back.shift n = raw := by
  obtain ⟨operand, hoperand⟩ := RawOperand.exists_shift h
  exact ⟨⟨raw.opcode, operand⟩, by rw [shift, hoperand]⟩

@[simp]
theorem size_shift (n : Nat) (raw : RawInstruction) : (raw.shift n).size = raw.size := by
  simp [shift, size]

theorem wellFormed_shift_iff : (raw.shift n).WellFormed (n + k) ↔ raw.WellFormed k := by
  rw [wellFormed_iff, wellFormed_iff, size_shift, Nat.add_assoc]
  simp only [shift, RawOperand.hasShape_shift, RawOperand.fits_shift_iff]

theorem bytesAt_shift (n k : Nat) (raw : RawInstruction) :
    (raw.shift n).bytesAt (n + k) = raw.bytesAt k := by
  rw [bytesAt, size_shift, Nat.add_assoc]
  simp only [shift, RawOperand.bytes_shift, bytesAt]

theorem resolveAt_shift (n k : Nat) (raw : RawInstruction) (r : Resolver) :
    (raw.shift n).resolveAt r (n + k) = (raw.resolveAt r k).map (·.shift n) := by
  simp only [resolveAt, size_shift]
  simp only [shift, RawOperand.resolve_shift]
  cases raw.operand.resolve r raw.opcode.operand <;> rfl

end RawInstruction

namespace Decode

/-- Decoding an instruction further on in the buffer gives the moved instruction. -/
theorem instruction_shift (h : instruction r c = .ok i d) (n : Nat) :
    instruction r (c.shift n) = .ok (i.shift n) (d.shift n) := by
  obtain ⟨raw, hwf, hres, hrest, hpos⟩ := instruction_eq_ok_iff.mp h
  refine instruction_eq_ok_iff.mpr
    ⟨raw.shift n, RawInstruction.wellFormed_shift_iff.mpr hwf, ?_, ?_, ?_⟩
  · change (raw.shift n).resolveAt r (n + c.pos) = _
    rw [RawInstruction.resolveAt_shift, hres]
    rfl
  · change c.rest = (raw.shift n).bytesAt (n + c.pos) ++ d.rest
    rw [RawInstruction.bytesAt_shift, hrest]
  · simp only [Cursor.shift, RawInstruction.size_shift, hpos, Nat.add_assoc]

/-- An instruction that leads nowhere before offset `n` is a moved one. One that does is refused at
the lower offset, where its target would be negative. -/
theorem exists_instruction_of_shift (h : instruction r (c.shift n) = .ok j d)
    (htargets : ∀ t ∈ j.branchTargets, n ≤ t) :
    ∃ i d', instruction r c = .ok i d' ∧ j = i.shift n ∧ d = d'.shift n := by
  obtain ⟨raw, hwf, hres, hrest, hpos⟩ := instruction_eq_ok_iff.mp h
  obtain ⟨x, hx, rfl⟩ := RawInstruction.resolveAt_eq_ok_iff.mp hres
  have hle : ∀ t ∈ raw.operand.targets, n ≤ t := by
    intro t ht
    rw [← RawOperand.targets_of_resolve hx] at ht
    exact htargets t ht
  obtain ⟨back, rfl⟩ := RawInstruction.exists_shift hle
  have hback := RawOperand.resolve_shift n back.operand r back.opcode.operand
  obtain ⟨y, hy, rfl⟩ := RawOperand.map_eq_ok_iff.mp (hback.symm.trans hx)
  have hbytes : c.rest = back.bytesAt c.pos ++ d.rest := by
    rw [← RawInstruction.bytesAt_shift n]
    exact hrest
  refine ⟨⟨c.pos, back.size, back.opcode, y⟩, ⟨c.pos + back.size, d.rest⟩, ?_, ?_, ?_⟩
  · exact instruction_eq_ok_iff.mpr ⟨back, RawInstruction.wellFormed_shift_iff.mp hwf,
      RawInstruction.resolveAt_eq_ok_iff.mpr ⟨y, hy, rfl⟩, hbytes, rfl⟩
  · rw [RawInstruction.size_shift]
    rfl
  · obtain ⟨pos, rest⟩ := d
    simp only [Cursor.shift, RawInstruction.size_shift, Nat.add_assoc] at hpos ⊢
    rw [hpos]

theorem Run.shift (h : Run r c body d) (n : Nat) :
    Run r (c.shift n) (body.map (·.shift n)) (d.shift n) := by
  induction h with
  | nil => exact .nil
  | cons hi _ ih => exact .cons (instruction_shift hi n) ih

theorem Run.exists_of_shift {c' : Cursor} (h : Run r c' body d) (hc : c' = c.shift n)
    (htargets : ∀ i ∈ body, ∀ t ∈ i.branchTargets, n ≤ t) :
    ∃ back d', Run r c back d' ∧ body = back.map (·.shift n) ∧ d = d'.shift n := by
  induction h generalizing c with
  | nil => exact ⟨[], c, .nil, rfl, hc⟩
  | cons hi _ ih =>
    rw [hc] at hi
    obtain ⟨i, e, hi', rfl, he⟩ :=
      exists_instruction_of_shift hi (htargets _ List.mem_cons_self)
    obtain ⟨back, d', hrun, rfl, hd⟩ := ih he fun j hj => htargets j (List.mem_cons_of_mem _ hj)
    exact ⟨i :: back, d', .cons hi' hrun, rfl, hd⟩

theorem startingAt_append (a b : List UInt8) :
    Cursor.startingAt (a ++ b) a.length = (Cursor.ofBytes b).shift a.length := by
  simp [Cursor.startingAt, Cursor.ofBytes, Cursor.shift]

theorem starts_map_shift (n : Nat) (body : List Instruction) :
    starts (body.map (·.shift n)) = (starts body).map (n + ·) := by
  simp only [starts, List.map_map]
  rfl

theorem closed_map_shift_iff : Closed (body.map (·.shift n)) ↔ Closed body := by
  have hinj : Function.Injective (n + ·) := add_right_injective n
  simp only [Closed, starts_map_shift, List.forall_mem_map, Instruction.branchTargets_shift,
    List.mem_map_of_injective hinj]

/-- Where in a buffer a body begins does not matter: it decodes at the one place if and only if it
decodes at the other, to the same instructions up to the move. -/
theorem stream_startingAt_append_iff (r : Resolver) (a b : List UInt8) (body : List Instruction)
    (d : Cursor) : stream r (Cursor.startingAt (a ++ b) a.length) = .ok body d ↔
      ∃ alone, decode r b = .ok alone ∧ body = alone.map (·.shift a.length) ∧
        d = ⟨(a ++ b).length, []⟩ := by
  have hend : (⟨(a ++ b).length, []⟩ : Cursor) = Cursor.shift a.length ⟨b.length, []⟩ := by
    rw [Cursor.shift, List.length_append]
  rw [startingAt_append, stream_eq_ok_iff, hend]
  constructor
  · rintro ⟨hrun, hrest, hclosed⟩
    -- a target below `a.length` would be refused when `b` is decoded alone; closedness excludes it
    have hle : ∀ i ∈ body, ∀ t ∈ i.branchTargets, a.length ≤ t := by
      intro i hi t ht
      obtain ⟨j, hj, rfl⟩ := List.mem_map.mp (hclosed i hi t ht)
      exact (hrun.tiles.offset_bounds hj).1
    obtain ⟨alone, d', halone, rfl, rfl⟩ := hrun.exists_of_shift rfl hle
    obtain rfl := halone.end_eq hrest
    have hdecode := decode_eq_ok_iff.mpr ⟨_, halone, closed_map_shift_iff.mp hclosed⟩
    exact ⟨alone, hdecode, rfl, by rw [Cursor.length_ofBytes]⟩
  · rintro ⟨alone, hdecode, rfl, rfl⟩
    obtain ⟨hrun, hclosed⟩ := decode_eq_ok_iff_run.mp hdecode
    exact ⟨hrun.shift a.length, rfl, closed_map_shift_iff.mpr hclosed⟩

end Decode

end Cil
