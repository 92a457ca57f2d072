import Mathlib
import Cil.Proofs.LittleEndian
import Cil.Proofs.OpcodeTable

/-! Which instructions can be encoded, and how long their encodings are. -/
namespace Cil

variable {r : Resolver} {k : Nat} {kind : OperandKind} {raw : RawInstruction} {i : Instruction}

/-- Whether a displacement can be written with so many bits, in two's complement. -/
def FitsSigned (bits : Nat) (d : Int) : Prop := -2 ^ (bits - 1) ≤ d ∧ d < 2 ^ (bits - 1)

instance (bits : Nat) (d : Int) : Decidable (FitsSigned bits d) :=
  inferInstanceAs (Decidable (_ ∧ _))

theorem fitsSigned_toInt8 (d : Int8) : FitsSigned 8 d.toInt := ⟨d.le_toInt, d.toInt_lt⟩

theorem fitsSigned_toInt32 (d : Int32) : FitsSigned 32 d.toInt := ⟨d.le_toInt, d.toInt_lt⟩

theorem toInt_ofInt8 {d : Int} (h : FitsSigned 8 d) : (Int8.ofInt d).toInt = d :=
  Int8.toInt_ofInt_of_le h.1 h.2

theorem toInt_ofInt32 {d : Int} (h : FitsSigned 32 d) : (Int32.ofInt d).toInt = d :=
  Int32.toInt_ofInt_of_le h.1 h.2

/-- The width of the displacement of a branch. -/
def OperandKind.displacementBits : OperandKind → Nat
  | shortBranch => 8
  | _ => 32

/-- Whether a decoded operand is of the sort that its opcode prescribes. -/
def Operand.hasShape : Operand → OperandKind → Bool
  | none, .none | int8 _, .int8 | uint8 _, .uint8 | int16 _, .int16 | uint16 _, .localIndex
  | int32 _, .int32 | int64 _, .int64 | float32 _, .float32 | float64 _, .float64
  | target _, .shortBranch | target _, .longBranch | switch _, .switch
  | member _, .type | member _, .method | member _, .field | member _, .tok
  | string _, .string | signature _, .signature => true
  | _, _ => false

namespace RawOperand

variable {a : Operand}

/-- Whether the counts and displacements of an operand can be written. Displacements count from
`next`. -/
def Fits (kind : OperandKind) (next : Nat) : RawOperand → Prop
  | target offset => FitsSigned kind.displacementBits (offset - next)
  | switch offsets =>
    offsets.length < 2 ^ 32 ∧ ∀ offset ∈ offsets, FitsSigned 32 ((offset : Int) - next)
  | _ => True

instance (kind : OperandKind) (next : Nat) : (raw : RawOperand) → Decidable (raw.Fits kind next)
  | target _ => inferInstanceAs (Decidable (FitsSigned _ _))
  | switch _ => inferInstanceAs (Decidable (_ ∧ _))
  | none | int8 _ | uint8 _ | int16 _ | uint16 _ | int32 _ | int64 _ | float32 _ | float64 _
  | token _ => .isTrue trivial

/-- The offsets that control may be transferred to. -/
def targets : RawOperand → List Nat
  | target offset => [offset]
  | switch offsets => offsets
  | _ => []

theorem length_bytes {raw : RawOperand} (h : raw.hasShape kind = true) (next : Nat) :
    (raw.bytes kind next).length = raw.size kind := by
  cases raw with
  | switch offsets => simp [bytes, size, Scalar.width, Nat.mul_comm]
  | _ => cases kind <;> simp_all [hasShape, bytes, size, OperandKind.size?, Scalar.width]

theorem map_eq_ok_iff {α : Type} {x : Except ResolutionError α} {f : α → Operand} :
    x.map f = .ok a ↔ ∃ v, x = .ok v ∧ f v = a := by
  cases x <;> simp [Except.map]

theorem hasShape_of_resolve {raw : RawOperand} (hshape : raw.hasShape kind = true)
    (hres : raw.resolve r kind = .ok a) : a.hasShape kind = true := by
  cases raw with
  | token t =>
    cases kind <;> cases hshape <;>
      obtain ⟨v, -, rfl⟩ := map_eq_ok_iff.mp hres <;> rfl
  | _ =>
    cases hres
    cases kind <;> simp_all [hasShape, Operand.hasShape]

theorem targets_of_resolve {raw : RawOperand} (hres : raw.resolve r kind = .ok a) :
    a.targets = raw.targets := by
  cases raw with
  | token t =>
    simp only [resolve] at hres
    split at hres <;> obtain ⟨v, -, rfl⟩ := map_eq_ok_iff.mp hres <;> rfl
  | _ =>
    cases hres
    rfl

theorem size_eq {raw : RawOperand} (h : raw.hasShape kind = true) :
    raw.size kind = kind.size?.getD (4 + 4 * raw.targets.length) := by
  cases raw <;> cases kind <;> simp_all [hasShape, size, OperandKind.size?, targets]

end RawOperand

namespace RawInstruction

/-- A row of the opcode table with an operand that it prescribes and that can be written. -/
structure WellFormed (k : Nat) (raw : RawInstruction) : Prop where
  mem_table : raw.opcode ∈ Opcode.table
  hasShape : raw.operand.hasShape raw.opcode.operand = true
  fits : raw.operand.Fits raw.opcode.operand (k + raw.size)

theorem wellFormed_iff : raw.WellFormed k ↔ raw.opcode ∈ Opcode.table ∧
    raw.operand.hasShape raw.opcode.operand = true ∧
      raw.operand.Fits raw.opcode.operand (k + raw.size) :=
  ⟨fun h => ⟨h.mem_table, h.hasShape, h.fits⟩, fun ⟨hmem, hshape, hfits⟩ => ⟨hmem, hshape, hfits⟩⟩

instance (k : Nat) (raw : RawInstruction) : Decidable (raw.WellFormed k) :=
  decidable_of_iff _ wellFormed_iff.symm

theorem size_pos (raw : RawInstruction) : 0 < raw.size :=
  Nat.lt_of_lt_of_le raw.opcode.size_pos (Nat.le_add_right _ _)

theorem WellFormed.length_bytesAt (h : raw.WellFormed k) : (raw.bytesAt k).length = raw.size := by
  rw [bytesAt, List.length_append, Opcode.length_bytes, RawOperand.length_bytes h.hasShape, size]

theorem resolveAt_eq_ok_iff : raw.resolveAt r k = .ok i ↔
    ∃ a, raw.operand.resolve r raw.opcode.operand = .ok a ∧ i = ⟨k, raw.size, raw.opcode, a⟩ := by
  unfold resolveAt
  cases raw.operand.resolve r raw.opcode.operand with
  | error e => simp [bind, Except.bind]
  | ok a => simp [bind, Except.bind, pure, Except.pure, eq_comm]

end RawInstruction

end Cil
