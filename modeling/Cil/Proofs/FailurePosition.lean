import Mathlib
import Cil.Proofs.Instruction
import Cil.Proofs.ReadingAt

/-! Where the cursor is left by an instruction that does not decode. -/
namespace Cil

/-- The offset of the instruction that an error is about. -/
def Error.offset? : Error → Option Nat
  | unknownOpcode offset _ | truncated offset | unresolvedToken offset _ _
  | invalidTarget offset _ => some offset
  | unsupportedMember _ | outOfBounds | sink _ => none

namespace Decode

variable {r : Resolver} {bytes rest : List UInt8} {k n pos : Nat} {o : Opcode} {e : Error}
  {d : Cursor}

/-- The opcode `o` stands at offset `k`. -/
def OpcodeAt (bytes : List UInt8) (k : Nat) (o : Opcode) : Prop :=
  o ∈ Opcode.table ∧ ∃ rest, bytes.drop k = o.bytes ++ rest

theorem OpcodeAt.drop_eq (ho : OpcodeAt bytes k o) :
    bytes.drop k = o.bytes ++ bytes.drop (k + o.size) := by
  obtain ⟨-, rest, hdrop⟩ := ho
  rw [← List.drop_drop, hdrop, ← o.length_bytes, List.drop_left]

theorem OpcodeAt.le_length (ho : OpcodeAt bytes k o) : k + o.size ≤ bytes.length := by
  have hsize := o.size_pos
  have hlength := congrArg List.length ho.drop_eq
  rw [List.length_append, Opcode.length_bytes, List.length_drop] at hlength
  omega

/-- The displacements `ds` stand one behind the other from offset `pos` on. -/
def TableAt (bytes : List UInt8) (pos : Nat) (ds : List Int32) : Prop :=
  ∀ j d, ds[j]? = some d → (Scalar.i32.readAt bytes (pos + 4 * j)).1 = .ok d

theorem tableAt_cons_iff {d : Int32} {ds : List Int32} : TableAt bytes pos (d :: ds) ↔
    (Scalar.i32.readAt bytes pos).1 = .ok d ∧ TableAt bytes (pos + 4) ds := by
  constructor
  · intro h
    refine ⟨h 0 d rfl, ?_⟩
    intro j d' hd'
    have hpos : pos + 4 + 4 * j = pos + 4 * (j + 1) := by omega
    rw [hpos]
    exact h (j + 1) d' hd'
  · rintro ⟨hd, hds⟩ j d' hd'
    cases j with
    | zero =>
      cases hd'
      exact hd
    | succ j =>
      have hpos : pos + 4 * (j + 1) = pos + 4 + 4 * j := by omega
      rw [hpos]
      exact hds j d' hd'

theorem tableAt_iff {ds : List Int32} :
    TableAt bytes pos ds ↔ ∃ rest, bytes.drop pos = tableBytes ds ++ rest := by
  induction ds generalizing pos with
  | nil => simp [TableAt, tableBytes]
  | cons d ds ih =>
    rw [tableAt_cons_iff, Scalar.readAt_eq_ok_iff, ih]
    constructor
    · rintro ⟨⟨rest, hrest⟩, rest', hrest'⟩
      refine ⟨rest', ?_⟩
      rw [← List.drop_drop, hrest, Scalar.drop_toBytes (s := .i32) (n := 4) rfl] at hrest'
      rw [hrest, hrest']
      simp [tableBytes]
    · rintro ⟨rest, hrest⟩
      have hfirst : bytes.drop pos = Scalar.i32.toBytes d ++ (tableBytes ds ++ rest) := by
        rw [hrest]
        simp [tableBytes]
      refine ⟨⟨_, hfirst⟩, rest, ?_⟩
      rw [← List.drop_drop, hfirst, Scalar.drop_toBytes (s := .i32) (n := 4) rfl]

/-- Why the instruction at offset `k` does not decode, the error this leads to, and the offset at
which the cursor is left. -/
inductive StopsAt (r : Resolver) (bytes : List UInt8) (k : Nat) : Error → (pos : Nat) → Prop
  | noByte (hend : bytes.length ≤ k) : StopsAt r bytes k (.truncated k) k
  | unknownByte {b : UInt8} (hbyte : bytes[k]? = some b) (hmark : b ≠ extendedMark)
    (hunknown : Opcode.ofByte? b = none) :
    StopsAt r bytes k (.unknownOpcode k b.toUInt16) (k + 1)
  | noSecondByte (hbyte : bytes[k]? = some extendedMark) (hend : bytes.length = k + 1) :
    StopsAt r bytes k (.truncated k) (k + 1)
  | unknownPair {b : UInt8} (hbyte : bytes[k]? = some extendedMark)
    (hsecond : bytes[k + 1]? = some b) (hunknown : Opcode.ofSecondByte? b = none) :
    StopsAt r bytes k (.unknownOpcode k (Opcode.extendedValue b)) (k + 2)
  | noOperand {o : Opcode} {size : Nat} (ho : OpcodeAt bytes k o)
    (hsize : o.operand.size? = some size) (hend : bytes.length < k + o.size + size) :
    StopsAt r bytes k (.truncated k) (k + o.size)
  | noCount {o : Opcode} (ho : OpcodeAt bytes k o) (hkind : o.operand = .switch)
    (hend : bytes.length < k + o.size + 4) : StopsAt r bytes k (.truncated k) (k + o.size)
  | noTable {o : Opcode} {count : UInt32} (ho : OpcodeAt bytes k o) (hkind : o.operand = .switch)
    (hcount : (Scalar.u32.readAt bytes (k + 1)).1 = .ok count)
    (hend : bytes.length < k + 5 + 4 * count.toNat) : StopsAt r bytes k (.truncated k) (k + 5)
  | shortBranch {o : Opcode} {x : Int8} (ho : OpcodeAt bytes k o)
    (hkind : o.operand = .shortBranch) (hx : (Scalar.i8.readAt bytes (k + 1)).1 = .ok x)
    (hneg : k + 2 + x.toInt < 0) : StopsAt r bytes k (.invalidTarget k (k + 2 + x.toInt)) (k + 2)
  | longBranch {o : Opcode} {x : Int32} (ho : OpcodeAt bytes k o)
    (hkind : o.operand = .longBranch) (hx : (Scalar.i32.readAt bytes (k + 1)).1 = .ok x)
    (hneg : k + 5 + x.toInt < 0) : StopsAt r bytes k (.invalidTarget k (k + 5 + x.toInt)) (k + 5)
  /-- Case `j` is the first one that leads before the start of the bytes. -/
  | switchCase {o : Opcode} {count : UInt32} {ds : List Int32} {j : Nat} {x : Int32}
    (ho : OpcodeAt bytes k o) (hkind : o.operand = .switch)
    (hcount : (Scalar.u32.readAt bytes (k + 1)).1 = .ok count)
    (htable : TableAt bytes (k + 5) ds) (hlength : ds.length = count.toNat)
    (hj : ds[j]? = some x)
    (hfirst : ∀ i y, i < j → ds[i]? = some y → 0 ≤ k + 5 + 4 * count.toNat + y.toInt)
    (hneg : k + 5 + 4 * count.toNat + x.toInt < 0) :
    StopsAt r bytes k (.invalidTarget k (k + 5 + 4 * count.toNat + x.toInt)) (k + 5 + 4 * (j + 1))
  | unresolved {o : Opcode} {t : Token} {source : ResolutionError} (ho : OpcodeAt bytes k o)
    (hshape : (RawOperand.token t).hasShape o.operand = true)
    (ht : (Scalar.u32.readAt bytes (k + o.size)).1 = .ok t.raw)
    (hsource : (RawOperand.token t).resolve r o.operand = .error source) :
    StopsAt r bytes k (.unresolvedToken k t source) (k + o.size + 4)

theorem size_of_branch (ho : OpcodeAt bytes k o)
    (hkind : o.operand = .shortBranch ∨ o.operand = .longBranch ∨ o.operand = .switch) :
    o.size = 1 := by
  have hone : ∀ o ∈ Opcode.table,
      o.operand = .shortBranch ∨ o.operand = .longBranch ∨ o.operand = .switch → o.size = 1 := by
    decide +kernel
  exact hone o ho.1 hkind

theorem getElem?_of_drop {b : UInt8} (h : bytes.drop k = b :: rest) : bytes[k]? = some b := by
  have hzero := congrArg (·[0]?) h
  simpa [List.getElem?_drop] using hzero

theorem drop_of_getElem? {b : UInt8} (h : bytes[k]? = some b) :
    bytes.drop k = b :: bytes.drop (k + 1) := by
  obtain ⟨hk, rfl⟩ := List.getElem?_eq_some_iff.mp h
  exact List.drop_eq_getElem_cons hk

theorem exists_append_of_getElem? {ds : List Int32} {j : Nat} {x : Int32} (h : ds[j]? = some x) :
    ∃ before after, ds = before ++ x :: after ∧ j = before.length := by
  obtain ⟨hj, rfl⟩ := List.getElem?_eq_some_iff.mp h
  refine ⟨ds.take j, ds.drop (j + 1), ?_, ?_⟩
  · rw [← List.drop_eq_getElem_cons, List.take_append_drop]
  · rw [List.length_take_of_le (Nat.le_of_lt hj)]

theorem stopsAt_of_operandFault (ho : OpcodeAt bytes k o)
    (h : OperandFault r k o.operand (k + o.size) (bytes.drop (k + o.size)) e n) :
    StopsAt r bytes k e (k + o.size + n) := by
  generalize hrest : bytes.drop (k + o.size) = operand at h
  have hlength : operand.length = bytes.length - (k + o.size) := by rw [← hrest, List.length_drop]
  cases h with
  | short hsize hshort => exact .noOperand ho hsize (by omega)
  | shortCount hkind hshort => exact .noCount ho hkind (by omega)
  | shortTable hkind hshort =>
    have hone := size_of_branch ho (by simp [hkind])
    rw [hone] at hrest hlength ⊢
    rw [List.length_append, Scalar.length_toBytes, Scalar.width] at hlength
    exact .noTable ho hkind (Scalar.readAt_eq_ok_iff.mpr ⟨_, hrest⟩) (by omega)
  | @negativeShort x rest next hkind hnext hneg =>
    have hone := size_of_branch ho (by simp [hkind])
    have htarget : (next : Int) + x.toInt = k + 2 + x.toInt := by omega
    rw [hone] at hrest ⊢
    rw [htarget] at hneg ⊢
    exact .shortBranch ho hkind (Scalar.readAt_eq_ok_iff.mpr ⟨_, hrest⟩) hneg
  | @negativeLong x rest next hkind hnext hneg =>
    have hone := size_of_branch ho (by simp [hkind])
    have htarget : (next : Int) + x.toInt = k + 5 + x.toInt := by omega
    rw [hone] at hrest ⊢
    rw [htarget] at hneg ⊢
    exact .longBranch ho hkind (Scalar.readAt_eq_ok_iff.mpr ⟨_, hrest⟩) hneg
  | @negativeCase count ds ds' x rest next hkind hcount hnext hfirst hneg =>
    have hone := size_of_branch ho (by simp [hkind])
    have hbase : (next : Int) = k + 5 + 4 * count.toNat := by omega
    have hpos : k + 1 + (4 + 4 * (ds.length + 1)) = k + 5 + 4 * (ds.length + 1) := by omega
    rw [hone] at hrest ⊢
    rw [hbase] at hfirst hneg ⊢
    rw [hpos]
    have htable : bytes.drop (k + 5) = tableBytes (ds ++ x :: ds') ++ rest := by
      have hfour : k + 5 = k + 1 + 4 := rfl
      rw [hfour, ← List.drop_drop, hrest, Scalar.drop_toBytes (s := .u32) (n := 4) rfl]
    refine .switchCase ho hkind (Scalar.readAt_eq_ok_iff.mpr ⟨_, hrest⟩)
      (tableAt_iff.mpr ⟨rest, htable⟩) hcount (by simp) ?_ hneg
    intro i y hi hy
    rw [List.getElem?_append_left hi] at hy
    exact hfirst y (List.mem_of_getElem? hy)
  | unresolved hshape hsource =>
    exact .unresolved ho hshape (Scalar.readAt_eq_ok_iff.mpr ⟨_, hrest⟩) hsource

theorem stopsAt_of_fault (h : Fault r k (bytes.drop k) e n) : StopsAt r bytes k e (k + n) := by
  generalize hdrop : bytes.drop k = front at h
  cases h with
  | nothing => exact .noByte (List.drop_eq_nil_iff.mp hdrop)
  | unknownByte hmark hunknown => exact .unknownByte (getElem?_of_drop hdrop) hmark hunknown
  | loneMark =>
    refine .noSecondByte (getElem?_of_drop hdrop) ?_
    have hlength := congrArg List.length hdrop
    rw [List.length_drop, List.length_singleton] at hlength
    omega
  | unknownPair hunknown =>
    refine .unknownPair (getElem?_of_drop hdrop) ?_ hunknown
    apply getElem?_of_drop
    rw [← List.drop_drop, hdrop, List.drop_one, List.tail_cons]
  | @operand o rest e n hmem hfault =>
    have ho : OpcodeAt bytes k o := ⟨hmem, rest, hdrop⟩
    have hrest : bytes.drop (k + o.size) = rest := by
      rw [ho.drop_eq] at hdrop
      exact List.append_cancel_left hdrop
    rw [← hrest] at hfault
    rw [← Nat.add_assoc]
    exact stopsAt_of_operandFault ho hfault

theorem OpcodeAt.fault (ho : OpcodeAt bytes k o)
    (h : OperandFault r k o.operand (k + o.size) (bytes.drop (k + o.size)) e n) :
    Fault r k (bytes.drop k) e (o.size + n) := by
  rw [ho.drop_eq]
  exact .operand ho.1 h

theorem OpcodeAt.fault_of_branch (ho : OpcodeAt bytes k o)
    (hkind : o.operand = .shortBranch ∨ o.operand = .longBranch ∨ o.operand = .switch)
    (h : OperandFault r k o.operand (k + 1) (bytes.drop (k + 1)) e n) :
    Fault r k (bytes.drop k) e (1 + n) := by
  rw [← size_of_branch ho hkind] at h ⊢
  exact ho.fault h

theorem fault_of_stopsAt (h : StopsAt r bytes k e pos) :
    ∃ n, Fault r k (bytes.drop k) e n ∧ pos = k + n := by
  cases h with
  | noByte hend =>
    rw [List.drop_eq_nil_iff.mpr hend]
    exact ⟨0, .nothing, rfl⟩
  | unknownByte hbyte hmark hunknown =>
    rw [drop_of_getElem? hbyte]
    exact ⟨1, .unknownByte hmark hunknown, rfl⟩
  | noSecondByte hbyte hend =>
    rw [drop_of_getElem? hbyte, List.drop_eq_nil_iff.mpr (Nat.le_of_eq hend)]
    exact ⟨1, .loneMark, rfl⟩
  | unknownPair hbyte hsecond hunknown =>
    rw [drop_of_getElem? hbyte, drop_of_getElem? hsecond]
    exact ⟨2, .unknownPair hunknown, rfl⟩
  | noOperand ho hsize hend =>
    have hle := ho.le_length
    refine ⟨_, ho.fault (.short hsize ?_), rfl⟩
    rw [List.length_drop]
    omega
  | noCount ho hkind hend =>
    refine ⟨_, ho.fault (.shortCount hkind ?_), rfl⟩
    rw [List.length_drop]
    omega
  | noTable ho hkind hcount hend =>
    obtain ⟨rest, hrest⟩ := Scalar.readAt_eq_ok_iff.mp hcount
    have hlength := congrArg List.length hrest
    rw [List.length_drop, List.length_append, Scalar.length_toBytes, Scalar.width] at hlength
    refine ⟨_, ho.fault_of_branch (n := 4) (by simp [hkind]) ?_, by omega⟩
    rw [hrest]
    exact .shortTable hkind (by omega)
  | shortBranch ho hkind hx hneg =>
    obtain ⟨rest, hrest⟩ := Scalar.readAt_eq_ok_iff.mp hx
    refine ⟨_, ho.fault_of_branch (n := 1) (by simp [hkind]) ?_, by omega⟩
    rw [hrest]
    exact .negativeShort hkind rfl hneg
  | longBranch ho hkind hx hneg =>
    obtain ⟨rest, hrest⟩ := Scalar.readAt_eq_ok_iff.mp hx
    refine ⟨_, ho.fault_of_branch (n := 4) (by simp [hkind]) ?_, by omega⟩
    rw [hrest]
    exact .negativeLong hkind rfl hneg
  | @switchCase o count ds j x ho hkind hcount htable hlength hj hfirst hneg =>
    obtain ⟨before, after, rfl, rfl⟩ := exists_append_of_getElem? hj
    obtain ⟨rest, hrest⟩ := Scalar.readAt_eq_ok_iff.mp hcount
    obtain ⟨rest', hrest'⟩ := tableAt_iff.mp htable
    have hbase : ((k + 1 + 4 + 4 * count.toNat : Nat) : Int) = k + 5 + 4 * count.toNat := by omega
    rw [← hbase] at hfirst hneg ⊢
    refine ⟨_, ho.fault_of_branch (n := 4 + 4 * (before.length + 1)) (by simp [hkind]) ?_,
      by omega⟩
    have htail : rest = tableBytes (before ++ x :: after) ++ rest' := by
      rw [← hrest', ← Scalar.drop_toBytes (s := .u32) (n := 4) rfl count rest, ← hrest,
        List.drop_drop]
    rw [hrest, htail]
    refine .negativeCase hkind hlength rfl ?_ hneg
    intro y hy
    obtain ⟨i, hi, rfl⟩ := List.getElem_of_mem hy
    refine hfirst i _ hi ?_
    rw [List.getElem?_append_left hi, List.getElem?_eq_getElem hi]
  | unresolved ho hshape ht hsource =>
    obtain ⟨rest, hrest⟩ := Scalar.readAt_eq_ok_iff.mp ht
    refine ⟨_, ho.fault (n := 4) ?_, Nat.add_assoc ..⟩
    rw [hrest]
    exact .unresolved hshape hsource

theorem instruction_eq_error_iff_stopsAt :
    instruction r (Cursor.startingAt bytes k) = .error e d ↔
      d = Cursor.startingAt bytes d.pos ∧ StopsAt r bytes k e d.pos := by
  rw [instruction_eq_error_iff]
  constructor
  · rintro ⟨n, hfault, rfl⟩
    refine ⟨?_, stopsAt_of_fault hfault⟩
    simp only [Cursor.startingAt, List.drop_drop]
  · rintro ⟨hd, hstops⟩
    obtain ⟨n, hfault, hpos⟩ := fault_of_stopsAt hstops
    refine ⟨n, hfault, ?_⟩
    rw [hd, hpos]
    simp only [Cursor.startingAt, List.drop_drop]

theorem instruction_of_stopsAt (h : StopsAt r bytes k e pos) :
    instruction r (Cursor.startingAt bytes k) = .error e (Cursor.startingAt bytes pos) :=
  instruction_eq_error_iff_stopsAt.mpr ⟨rfl, h⟩

/-- An instruction that does not decode leaves the cursor inside the same bytes, at an offset that
depends on how it fails. Its error always carries the offset at which it starts. -/
theorem failed_instruction_leaves_cursor (r : Resolver) (bytes : List UInt8) (k : Nat) (e : Error)
    (d : Cursor) :
    (instruction r (Cursor.startingAt bytes k) = .error e d ↔
      d = Cursor.startingAt bytes d.pos ∧ StopsAt r bytes k e d.pos) ∧
    ∀ pos, StopsAt r bytes k e pos → e.offset? = some k := by
  refine ⟨instruction_eq_error_iff_stopsAt, ?_⟩
  intro pos hstops
  cases hstops <;> rfl

/-- A jump table of two cases behind a byte that is not part of it. The second case leads before the
start of the bytes. -/
def tableLeadingBack : List UInt8 :=
  [0x00, 0x45, 0x02, 0x00, 0x00, 0x00, 0x00, 0x00, 0x00, 0x00, 0x00, 0x00, 0x00, 0x80, 0x2A]

theorem stopsAt_tableLeadingBack (r : Resolver) :
    StopsAt r tableLeadingBack 1 (.invalidTarget 1 (-2147483634)) 14 := by
  have hcount : (Scalar.u32.readAt tableLeadingBack 2).1 = .ok 2 :=
    Scalar.readAt_eq_ok_iff.mpr ⟨_, rfl⟩
  have htable : TableAt tableLeadingBack 6 [0, -2147483648] := tableAt_iff.mpr ⟨[0x2A], rfl⟩
  refine .switchCase (o := ⟨"switch", 0x45, .switch, .conditional⟩) (j := 1) (x := -2147483648)
    ⟨by decide +kernel, _, rfl⟩ rfl hcount htable rfl rfl ?_ (by decide)
  intro i y hi hy
  obtain rfl : i = 0 := by omega
  cases hy
  decide

theorem failed_instruction_leaves_cursor_table :
    let r := TokenTable.empty.resolver
    let e := Error.invalidTarget 1 (-2147483634)
    instruction r (Cursor.startingAt tableLeadingBack 1) =
      .error e (Cursor.startingAt tableLeadingBack 14) ∧ e.offset? = some 1 := by
  intro r e
  have hstops := stopsAt_tableLeadingBack r
  obtain ⟨hfails, hoffset⟩ := failed_instruction_leaves_cursor r tableLeadingBack 1 e
    (Cursor.startingAt tableLeadingBack 14)
  exact ⟨hfails.mpr ⟨rfl, hstops⟩, hoffset 14 hstops⟩

end Decode

end Cil
