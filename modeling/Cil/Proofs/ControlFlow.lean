import Mathlib
import Cil.Proofs.RoundTrip

/-! The instructions of a decoded body tile it, and control never leaves their starts. -/
namespace Cil.Decode

variable {r : Resolver} {p q : Nat} {i j : Instruction} {body : List Instruction} {c d : Cursor}
  {bytes : List UInt8}

/-- No instruction starts inside another one. -/
theorem Tiles.not_inside (h : Tiles p q body) (hi : i ∈ body) (hj : j ∈ body) :
    ¬ (j.offset < i.offset ∧ i.offset < j.nextOffset) := by
  induction body generalizing p with
  | nil => cases hi
  | cons k body ih =>
    obtain ⟨-, -, htail⟩ := h
    rcases List.mem_cons.mp hi with rfl | hi'
    · rcases List.mem_cons.mp hj with rfl | hj'
      · omega
      · have hbounds := htail.offset_bounds hj'
        simp only [Instruction.nextOffset] at hbounds ⊢
        omega
    · rcases List.mem_cons.mp hj with rfl | hj'
      · have hbounds := htail.offset_bounds hi'
        omega
      · exact ih htail hi' hj'

theorem Tiles.nextOffset_eq {n : Nat} (h : Tiles p q body) (hi : body[n]? = some i) :
    i.nextOffset = (body[n + 1]?.map (·.offset)).getD q := by
  induction body generalizing p n with
  | nil => simp at hi
  | cons k body ih =>
    obtain ⟨-, -, htail⟩ := h
    cases n with
    | zero =>
      obtain rfl : k = i := by simpa using hi
      cases body with
      | nil => exact htail
      | cons l body => exact htail.1.symm
    | succ n => exact ih htail (by simpa using hi)

theorem Tiles.nil_iff (h : Tiles p q body) : body = [] ↔ p = q := by
  cases body with
  | nil => exact ⟨fun _ => h, fun _ => rfl⟩
  | cons i body =>
    obtain ⟨hoffset, hsize, htail⟩ := h
    have hle := htail.le
    simp only [Instruction.nextOffset] at hle
    simp only [reduceCtorEq, false_iff]
    omega

theorem Run.opcode_operand (h : Run r c body d) (hi : i ∈ body) :
    i.opcode ∈ Opcode.table ∧ i.operand.hasShape i.opcode.operand = true := by
  induction h with
  | nil => cases hi
  | cons hj _ ih =>
    rcases List.mem_cons.mp hi with rfl | hi
    · obtain ⟨raw, hwf, hres, -, -⟩ := instruction_eq_ok_iff.mp hj
      obtain ⟨a, ha, rfl⟩ := RawInstruction.resolveAt_eq_ok_iff.mp hres
      exact ⟨hwf.mem_table, RawOperand.hasShape_of_resolve hwf.hasShape ha⟩
    · exact ih hi

theorem target_or_switch_iff {a : Operand} {kind : OperandKind} (h : a.hasShape kind = true) :
    (∃ t, a = .target t) ∨ (∃ ts, a = .switch ts) ↔
      kind = .shortBranch ∨ kind = .longBranch ∨ kind = .switch := by
  constructor
  · rintro (⟨t, rfl⟩ | ⟨ts, rfl⟩) <;> cases kind <;> simp_all [Operand.hasShape]
  · rintro (rfl | rfl | rfl) <;> cases a <;> simp_all [Operand.hasShape]

/-- What decoding from offset `p` to the end at `q` promises about its instructions. -/
structure Coherent (p q : Nat) (body : List Instruction) : Prop where
  tiles : Tiles p q body
  nil_iff : body = [] ↔ p = q
  targets : ∀ i ∈ body, ∀ t ∈ i.branchTargets, t ∈ starts body ∧ p ≤ t ∧ t < q ∧
    ∀ j ∈ body, ¬ (j.offset < t ∧ t < j.nextOffset)
  fallsThrough : ∀ n i, body[n]? = some i → i.isTerminal = false →
    i.nextOffset = (body[n + 1]?.map (·.offset)).getD q
  transfers : ∀ i ∈ body, (∃ t, i.operand = .target t) ∨ (∃ ts, i.operand = .switch ts) ↔
    i.flow = .branch ∨ i.flow = .conditional

theorem Run.coherent (h : Run r c body d) (hclosed : Closed body) :
    Coherent c.pos d.pos body where
  tiles := h.tiles
  nil_iff := h.tiles.nil_iff
  targets := by
    intro i hi t ht
    have hstart := hclosed i hi t ht
    refine ⟨hstart, ?_⟩
    obtain ⟨j, hj, rfl⟩ := List.mem_map.mp hstart
    obtain ⟨hle, hnext, hsize⟩ := h.tiles.offset_bounds hj
    simp only [Instruction.nextOffset] at hnext
    exact ⟨hle, by omega, fun k hk => h.tiles.not_inside hj hk⟩
  fallsThrough := fun n i hi _ => h.tiles.nextOffset_eq hi
  transfers := by
    intro i hi
    obtain ⟨hmem, hshape⟩ := h.opcode_operand hi
    exact (target_or_switch_iff hshape).trans (Opcode.operand_branches_iff hmem)

/-- A decoded body is tiled by its instructions and closed under control flow, wherever in the
buffer it begins. -/
theorem stream_coherent (hp : p ≤ bytes.length)
    (h : stream r (Cursor.startingAt bytes p) = .ok body d) :
    Coherent p bytes.length body ∧ d = ⟨bytes.length, []⟩ := by
  obtain ⟨hrun, hend, hclosed⟩ := stream_eq_ok_iff.mp h
  have hlength := hrun.length_eq
  obtain ⟨pos, rest⟩ := d
  cases hend
  have hpos : pos = bytes.length := by
    simp only [Cursor.length, Cursor.remaining, Cursor.startingAt, List.length_drop,
      List.length_nil] at hlength
    omega
  subst hpos
  exact ⟨hrun.coherent hclosed, rfl⟩

/-- The body above behind two bytes that are no part of it. -/
def shiftedBytes : List UInt8 := [0xFF, 0xFF] ++ loopBytes

def shiftedBody : List Instruction :=
  [⟨2, 2, ⟨"br.s", 0x2B, .shortBranch, .branch⟩, .target 9⟩,
    ⟨4, 5, ⟨"ldstr", 0x72, .string, .next⟩, .string "hi"⟩,
    ⟨9, 9, ⟨"switch", 0x45, .switch, .conditional⟩, .switch [4]⟩,
    ⟨18, 1, ⟨"ret", 0x2A, .none, .returns⟩, .none⟩]

theorem stream_coherent_shifted :
    stream oneString (Cursor.startingAt shiftedBytes 2) = .ok shiftedBody ⟨19, []⟩ ∧
      Coherent 2 19 shiftedBody := by
  have h : stream oneString (Cursor.startingAt shiftedBytes 2) = .ok shiftedBody ⟨19, []⟩ := by cbv
  exact ⟨h, (stream_coherent (by decide) h).1⟩

end Cil.Decode
