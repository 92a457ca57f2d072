import Mathlib
import Cil.Proofs.ControlFlow
import Cil.Proofs.FailurePosition

/-! Every target that decoding computes is an offset plus a displacement that stands in the bytes. -/
namespace Cil.Decode

variable {r : Resolver} {bytes rest : List UInt8} {k base next : Nat} {o : Opcode} {e : Error}
  {i : Instruction} {body : List Instruction} {c d : Cursor} {ds : List Int}

/-- There is a branch at offset `k`. Its displacements `ds` count from `base`, the offset behind it;
those of a jump table count from the end of the whole table. -/
inductive BranchAt (bytes : List UInt8) (k : Nat) (o : Opcode) :
    (base : Nat) → (ds : List Int) → Prop
  | short {x : Int8} (ho : OpcodeAt bytes k o) (hkind : o.operand = .shortBranch)
    (hx : (Scalar.i8.readAt bytes (k + 1)).1 = .ok x) : BranchAt bytes k o (k + 2) [x.toInt]
  | long {x : Int32} (ho : OpcodeAt bytes k o) (hkind : o.operand = .longBranch)
    (hx : (Scalar.i32.readAt bytes (k + 1)).1 = .ok x) : BranchAt bytes k o (k + 5) [x.toInt]
  | switch {count : UInt32} {ds : List Int32} (ho : OpcodeAt bytes k o)
    (hkind : o.operand = .switch) (hcount : (Scalar.u32.readAt bytes (k + 1)).1 = .ok count)
    (htable : TableAt bytes (k + 5) ds) (hlength : ds.length = count.toNat) :
    BranchAt bytes k o (k + 5 + 4 * count.toNat) (ds.map Int32.toInt)

/-- `t` is the sum of base and displacement for the branch at offset `k`, or for one of its cases. -/
def LeadsTo (bytes : List UInt8) (k : Nat) (t : Int) : Prop :=
  ∃ o base ds, BranchAt bytes k o base ds ∧ ∃ x ∈ ds, t = base + x

theorem BranchAt.opcodeAt (h : BranchAt bytes k o base ds) : OpcodeAt bytes k o := by
  cases h with
  | short ho => exact ho
  | long ho => exact ho
  | switch ho => exact ho

theorem drop_of_readAt {s : Scalar} {v : s.Value} {pos : Nat}
    (h : (s.readAt bytes pos).1 = .ok v) :
    bytes.drop pos = s.toBytes v ++ bytes.drop (pos + s.width) := by
  obtain ⟨rest, hrest⟩ := Scalar.readAt_eq_ok_iff.mp h
  rw [← List.drop_drop, hrest, List.drop_left' (Scalar.length_toBytes v)]

/-- The targets are the sums of the base and each of the displacements. -/
def Sums (base : Nat) (targets : List Nat) (ds : List Int) : Prop :=
  List.Forall₂ (fun (t : Nat) (x : Int) => (t : Int) = base + x) targets ds

theorem Sums.exists_mem {t : Nat} {targets : List Nat} (h : Sums base targets ds)
    (ht : t ∈ targets) : ∃ x ∈ ds, (t : Int) = base + x := by
  induction h with
  | nil => cases ht
  | @cons u x targets ds hu _ ih =>
    rcases List.mem_cons.mp ht with rfl | ht
    · exact ⟨x, List.mem_cons_self, hu⟩
    · obtain ⟨y, hy, hsum⟩ := ih ht
      exact ⟨y, List.mem_cons_of_mem x hy, hsum⟩

theorem exists_target {front : List UInt8} {x : Int} (hx : Displacement o.operand front x)
    (hbase : base = k + o.size + front.length)
    (hdrop : bytes.drop (k + o.size) = front ++ bytes.drop base) (hnonneg : 0 ≤ base + x)
    (r : Resolver) :
    ∃ a, readOperand r k o.operand (Cursor.startingAt bytes (k + o.size)) =
        .ok a (Cursor.startingAt bytes base) ∧ Sums base a.targets [x] := by
  refine ⟨.target (base + x).toNat, ?_, .cons (Int.toNat_of_nonneg hnonneg) .nil⟩
  rw [Cursor.startingAt, hdrop, readOperand_branch hx, ← hbase]
  exact readBranch_of_nonneg hnonneg k _

/-- The operand of a branch is stored with exactly the sums, if none of them is negative. -/
theorem BranchAt.exists_operand (h : BranchAt bytes k o base ds)
    (hnonneg : ∀ x ∈ ds, 0 ≤ base + x) (r : Resolver) :
    ∃ a, readOperand r k o.operand (Cursor.startingAt bytes (k + o.size)) =
        .ok a (Cursor.startingAt bytes base) ∧ Sums base a.targets ds := by
  cases h with
  | @short x ho hkind hx =>
    have hone := size_of_branch ho (by simp [hkind])
    have hdisplacement : Displacement o.operand (Scalar.i8.toBytes x) x.toInt := by
      rw [hkind]
      exact .short x
    refine exists_target hdisplacement ?_ ?_ (hnonneg _ List.mem_cons_self) r
    · rw [hone, Scalar.length_toBytes, Scalar.width]
    · rw [hone]
      exact drop_of_readAt hx
  | @long x ho hkind hx =>
    have hone := size_of_branch ho (by simp [hkind])
    have hdisplacement : Displacement o.operand (Scalar.i32.toBytes x) x.toInt := by
      rw [hkind]
      exact .long x
    refine exists_target hdisplacement ?_ ?_ (hnonneg _ List.mem_cons_self) r
    · rw [hone, Scalar.length_toBytes, Scalar.width]
    · rw [hone]
      exact drop_of_readAt hx
  | @switch count ds ho hkind hcount htable hlength =>
    have hone := size_of_branch ho (by simp [hkind])
    obtain ⟨rest, hrest⟩ := tableAt_iff.mp htable
    have hend : bytes.drop (k + 5 + 4 * count.toNat) = rest := by
      rw [← List.drop_drop, hrest, ← hlength, ← length_tableBytes, List.drop_left]
    have hpos : ∀ x ∈ ds, 0 ≤ ((k + 5 + 4 * count.toNat : Nat) : Int) + x.toInt := by
      intro x hx
      exact hnonneg _ (List.mem_map_of_mem hx)
    have hbytes : bytes.drop (k + 1) = Scalar.u32.toBytes count ++ (tableBytes ds ++ rest) := by
      rw [drop_of_readAt hcount, ← hrest]
      rfl
    refine ⟨.switch (ds.map fun x => (((k + 5 + 4 * count.toNat : Nat) : Int) + x.toInt).toNat),
      ?_, ?_⟩
    · rw [hkind, hone, Cursor.startingAt, Cursor.startingAt, hbytes, hend]
      exact readOperand_switch hlength rfl hpos r k rest
    · rw [Sums, Operand.targets, List.forall₂_map_left_iff, List.forall₂_map_right_iff,
        List.forall₂_same]
      intro x hx
      exact Int.toNat_of_nonneg (hpos x hx)

theorem instruction_of_readOperand {a : Operand} (ho : OpcodeAt bytes k o)
    (h : readOperand r k o.operand (Cursor.startingAt bytes (k + o.size)) =
      .ok a (Cursor.startingAt bytes next)) :
    instruction r (Cursor.startingAt bytes k) =
      .ok ⟨k, next - k, o, a⟩ (Cursor.startingAt bytes next) := by
  have hopcode := readOpcode_bytes ho.1 k k (bytes.drop (k + o.size))
  rw [← ho.drop_eq] at hopcode
  exact (instruction_of_opcode hopcode r).trans (bind_of_ok h)

theorem BranchAt.instruction_of_nonneg (h : BranchAt bytes k o base ds)
    (hnonneg : ∀ x ∈ ds, 0 ≤ base + x) (r : Resolver) :
    ∃ i, instruction r (Cursor.startingAt bytes k) = .ok i (Cursor.startingAt bytes base) ∧
      i.opcode = o ∧ Sums base i.branchTargets ds := by
  obtain ⟨a, hread, hsums⟩ := h.exists_operand hnonneg r
  exact ⟨_, instruction_of_readOperand h.opcodeAt hread, rfl, hsums⟩

/-- The first sum that is negative is what the error carries. -/
theorem BranchAt.instruction_of_neg {j : Nat} {x : Int} (h : BranchAt bytes k o base ds)
    (hj : ds[j]? = some x) (hfirst : ∀ i y, i < j → ds[i]? = some y → 0 ≤ base + y)
    (hneg : base + x < 0) (r : Resolver) :
    ∃ d, instruction r (Cursor.startingAt bytes k) = .error (.invalidTarget k (base + x)) d := by
  suffices hstops : ∃ pos, StopsAt r bytes k (.invalidTarget k (base + x)) pos by
    obtain ⟨pos, hstops⟩ := hstops
    exact ⟨_, instruction_of_stopsAt hstops⟩
  cases h with
  | short ho hkind hx =>
    obtain rfl := List.mem_singleton.mp (List.mem_of_getElem? hj)
    exact ⟨_, .shortBranch ho hkind hx hneg⟩
  | long ho hkind hx =>
    obtain rfl := List.mem_singleton.mp (List.mem_of_getElem? hj)
    exact ⟨_, .longBranch ho hkind hx hneg⟩
  | @switch count ds ho hkind hcount htable hlength =>
    rw [List.getElem?_map] at hj
    obtain ⟨x, hx, rfl⟩ := Option.map_eq_some_iff.mp hj
    refine ⟨_, .switchCase ho hkind hcount htable hlength hx ?_ hneg⟩
    intro i y hi hy
    refine hfirst i y.toInt hi ?_
    rw [List.getElem?_map, hy, Option.map_some]

theorem OpcodeAt.exists_switch {count : UInt32} (ho : OpcodeAt bytes k o)
    (hkind : o.operand = .switch) (hcount : (Scalar.u32.readAt bytes (k + 1)).1 = .ok count)
    (hfits : k + 5 + 4 * count.toNat ≤ bytes.length) :
    ∃ ds, BranchAt bytes k o (k + 5 + 4 * count.toNat) ds := by
  obtain ⟨ds, rest, hlength, htable⟩ : ∃ ds rest, ds.length = count.toNat ∧
      bytes.drop (k + 5) = tableBytes ds ++ rest := by
    apply exists_tableBytes
    rw [List.length_drop]
    omega
  exact ⟨_, .switch ho hkind hcount (tableAt_iff.mpr ⟨rest, htable⟩) hlength⟩

/-- The bytes hold a whole branch, or they end inside it. -/
theorem OpcodeAt.branch_cases (ho : OpcodeAt bytes k o)
    (hkind : o.operand = .shortBranch ∨ o.operand = .longBranch ∨ o.operand = .switch)
    (r : Resolver) :
    (∃ base ds, BranchAt bytes k o base ds) ∨ ∃ pos, StopsAt r bytes k (.truncated k) pos := by
  have hone := size_of_branch ho hkind
  rcases hkind with hkind | hkind | hkind
  · by_cases hfits : k + 1 + Scalar.i8.width ≤ bytes.length
    · exact .inl ⟨_, _, .short ho hkind (congrArg Prod.fst (Scalar.readAt_of_le hfits))⟩
    · have hsize : o.operand.size? = some 1 := by
        rw [hkind]
        rfl
      refine .inr ⟨_, .noOperand ho hsize ?_⟩
      simp only [Scalar.width] at hfits
      omega
  · by_cases hfits : k + 1 + Scalar.i32.width ≤ bytes.length
    · exact .inl ⟨_, _, .long ho hkind (congrArg Prod.fst (Scalar.readAt_of_le hfits))⟩
    · have hsize : o.operand.size? = some 4 := by
        rw [hkind]
        rfl
      refine .inr ⟨_, .noOperand ho hsize ?_⟩
      simp only [Scalar.width] at hfits
      omega
  · by_cases hfits : k + 1 + Scalar.u32.width ≤ bytes.length
    · have hcount := congrArg Prod.fst (Scalar.readAt_of_le hfits)
      generalize Scalar.u32.ofBytes _ = count at hcount
      by_cases htable : bytes.length < k + 5 + 4 * count.toNat
      · exact .inr ⟨_, .noTable ho hkind hcount htable⟩
      · exact .inl ⟨_, ho.exists_switch hkind hcount (Nat.le_of_not_lt htable)⟩
    · refine .inr ⟨_, .noCount ho hkind ?_⟩
      simp only [Scalar.width] at hfits
      omega

theorem BranchAt.instruction_cases (h : BranchAt bytes k o base ds) (r : Resolver) :
    (∃ i, instruction r (Cursor.startingAt bytes k) = .ok i (Cursor.startingAt bytes base) ∧
      Sums base i.branchTargets ds) ∨
    ∃ t d, instruction r (Cursor.startingAt bytes k) = .error (.invalidTarget k t) d := by
  cases hneg : ds.find? fun x : Int => decide ((base : Int) + x < 0) with
  | none =>
    have hnonneg : ∀ x ∈ ds, 0 ≤ base + x := by
      intro x hx
      have hx := List.find?_eq_none.mp hneg x hx
      simp only [decide_eq_true_eq] at hx
      omega
    obtain ⟨i, hi, -, hsums⟩ := h.instruction_of_nonneg hnonneg r
    exact .inl ⟨i, hi, hsums⟩
  | some x =>
    obtain ⟨hx, before, after, rfl, hbefore⟩ := List.find?_eq_some_iff_append.mp hneg
    have hfirst : ∀ i y, i < before.length → (before ++ x :: after)[i]? = some y →
        0 ≤ base + y := by
      intro i y hi hy
      rw [List.getElem?_append_left hi] at hy
      have hy := hbefore y (List.mem_of_getElem? hy)
      simp only [Bool.not_eq_true', decide_eq_false_iff_not] at hy
      omega
    exact .inr ⟨_, h.instruction_of_neg (by simp) hfirst (of_decide_eq_true hx) r⟩

theorem opcodeAt_of_instruction (h : instruction r (Cursor.startingAt bytes k) = .ok i d) :
    OpcodeAt bytes k i.opcode ∧ i.operand.hasShape i.opcode.operand = true ∧ i.offset = k ∧
      d = Cursor.startingAt bytes d.pos := by
  obtain ⟨raw, hwf, hres, hrest, hpos⟩ := instruction_eq_ok_iff.mp h
  obtain ⟨a, ha, rfl⟩ := RawInstruction.resolveAt_eq_ok_iff.mp hres
  obtain ⟨pos, rest⟩ := d
  have hdrop : bytes.drop k = raw.bytesAt k ++ rest := hrest
  have hpos : pos = k + raw.size := hpos
  refine ⟨⟨hwf.mem_table, raw.operand.bytes raw.opcode.operand (k + raw.size) ++ rest, ?_⟩,
    RawOperand.hasShape_of_resolve hwf.hasShape ha, rfl, ?_⟩
  · rw [hdrop, RawInstruction.bytesAt, List.append_assoc]
  · have hlength : (raw.bytesAt k).length = raw.size := hwf.length_bytesAt
    rw [Cursor.startingAt, hpos, ← List.drop_drop, hdrop, ← hlength, List.drop_left]

/-- Every target that is stored comes about as a sum. -/
theorem leadsTo_of_instruction {t : Nat}
    (h : instruction r (Cursor.startingAt bytes k) = .ok i d) (ht : t ∈ i.branchTargets) :
    LeadsTo bytes k t := by
  obtain ⟨ho, hshape, -, -⟩ := opcodeAt_of_instruction h
  have hkind := (target_or_switch_iff hshape).mp (by
    cases hoperand : i.operand <;> simp_all [Instruction.branchTargets, Operand.targets])
  rcases ho.branch_cases hkind r with ⟨base, ds, hbranch⟩ | ⟨pos, hstops⟩
  · rcases hbranch.instruction_cases r with ⟨j, hj, hsums⟩ | ⟨u, d', herror⟩
    · rw [h] at hj
      cases hj
      obtain ⟨x, hx, hsum⟩ := hsums.exists_mem ht
      exact ⟨_, _, _, hbranch, x, hx, hsum⟩
    · rw [h] at herror
      cases herror
  · rw [instruction_of_stopsAt hstops] at h
    cases h

theorem leadsTo_of_instruction_error {offset : Nat} {t : Int}
    (h : instruction r (Cursor.startingAt bytes k) = .error (.invalidTarget offset t) d) :
    offset = k ∧ t < 0 ∧ LeadsTo bytes k t := by
  obtain ⟨-, hstops⟩ := instruction_eq_error_iff_stopsAt.mp h
  generalize d.pos = pos at hstops
  cases hstops with
  | shortBranch ho hkind hx hneg =>
    exact ⟨rfl, hneg, _, _, _, .short ho hkind hx, _, List.mem_singleton_self _, rfl⟩
  | longBranch ho hkind hx hneg =>
    exact ⟨rfl, hneg, _, _, _, .long ho hkind hx, _, List.mem_singleton_self _, rfl⟩
  | switchCase ho hkind hcount htable hlength hj hfirst hneg =>
    exact ⟨rfl, hneg, _, _, _, .switch ho hkind hcount htable hlength, _,
      List.mem_map_of_mem (List.mem_of_getElem? hj), rfl⟩

/-- The cursor of a run stays in the bytes, and every instruction of the run is decoded at its own
offset. -/
theorem Run.instruction_at (h : Run r (Cursor.startingAt bytes k) body d) :
    d = Cursor.startingAt bytes d.pos ∧
      ∀ i ∈ body, ∃ d', instruction r (Cursor.startingAt bytes i.offset) = .ok i d' := by
  generalize hc : Cursor.startingAt bytes k = c at h
  induction h generalizing k with
  | nil =>
    subst hc
    exact ⟨rfl, by simp⟩
  | cons hi _ ih =>
    subst hc
    obtain ⟨-, -, hoffset, hd⟩ := opcodeAt_of_instruction hi
    obtain ⟨hend, hbody⟩ := ih hd.symm
    refine ⟨hend, ?_⟩
    intro j hj
    rcases List.mem_cons.mp hj with rfl | hj
    · rw [hoffset]
      exact ⟨_, hi⟩
    · exact hbody j hj

/-- What a sweep finds is a run. -/
theorem exists_run_sweep (r : Resolver) (c : Cursor) : ∃ d, Run r c (sweep r c).instructions d := by
  obtain ⟨body, d, hrun, hend | ⟨hmore, e, d', herror⟩⟩ := exists_run r c
  · rw [hrun.sweep, sweep_of_end hend, List.append_nil]
    exact ⟨d, hrun⟩
  · rw [hrun.sweep, sweep_of_error hmore herror, List.append_nil]
    exact ⟨d, hrun⟩

/-- A target that a whole body is refused for is a sum as well, whether the branch itself does not
decode or leads to no instruction. -/
theorem leadsTo_of_stream_error {offset : Nat} {t : Int}
    (h : stream r (Cursor.startingAt bytes k) = .error (.invalidTarget offset t) d) :
    LeadsTo bytes offset t := by
  obtain ⟨body, stop, hrun, hend | ⟨hmore, e, d', herror⟩⟩ := exists_run r (Cursor.startingAt bytes k)
  · cases htarget : strayTarget? (Cursor.startingAt bytes k).length body with
    | none =>
      rw [stream_of_closed hrun hend htarget] at h
      cases h
    | some e =>
      rw [stream_of_stray hrun hend htarget] at h
      cases h
      obtain ⟨i, u, hstray, he⟩ :=
        (strayTarget?_eq_some_iff fun i => hrun.offset_lt (i := i)).mp htarget
      cases he
      obtain ⟨⟨before, after, rfl, -⟩, before', after', htargets, -, -⟩ := hstray
      obtain ⟨d', hi⟩ := hrun.instruction_at.2 i (by simp)
      exact leadsTo_of_instruction hi (by simp [htargets])
  · rw [stream_of_error hrun hmore herror] at h
    cases h
    rw [hrun.instruction_at.1] at herror
    obtain ⟨rfl, -, hleads⟩ := leadsTo_of_instruction_error herror
    exact hleads

theorem le_length_of_readAt {s : Scalar} {v : s.Value} {pos : Nat}
    (h : (s.readAt bytes pos).1 = .ok v) : pos + s.width ≤ bytes.length := by
  by_contra hlt
  rw [Scalar.readAt_of_lt (by omega)] at h
  cases h

theorem BranchAt.base_le (h : BranchAt bytes k o base ds) : base ≤ bytes.length := by
  cases h with
  | short _ _ hx => exact le_length_of_readAt hx
  | long _ _ hx => exact le_length_of_readAt hx
  | switch _ _ hcount htable hlength =>
    have hle : k + 1 + 4 ≤ bytes.length := le_length_of_readAt hcount
    obtain ⟨rest, hrest⟩ := tableAt_iff.mp htable
    have hrest := congrArg List.length hrest
    rw [List.length_drop, List.length_append, length_tableBytes] at hrest
    omega

theorem BranchAt.displacement_lt {x : Int} (h : BranchAt bytes k o base ds) (hx : x ∈ ds) :
    x < 2 ^ 31 := by
  cases h with
  | @short y =>
    obtain rfl := List.mem_singleton.mp hx
    have hlt := y.toInt_lt
    omega
  | @long y =>
    obtain rfl := List.mem_singleton.mp hx
    exact y.toInt_lt
  | switch =>
    obtain ⟨y, -, rfl⟩ := List.mem_map.mp hx
    exact y.toInt_lt

theorem LeadsTo.lt {t : Int} (h : LeadsTo bytes k t) : t < bytes.length + 2 ^ 31 := by
  obtain ⟨o, base, ds, hbranch, x, hx, rfl⟩ := h
  have hbase := hbranch.base_le
  have hlt := hbranch.displacement_lt hx
  omega

/-- What decoding does with the targets of branches, from offset `k` on. -/
structure ExactTargets (r : Resolver) (bytes : List UInt8) (k : Nat) : Prop where
  /-- A branch is stored with its sums if none of them is negative. -/
  stored : ∀ o base ds, BranchAt bytes k o base ds → (∀ x ∈ ds, 0 ≤ base + x) →
    ∃ i, instruction r (Cursor.startingAt bytes k) = .ok i (Cursor.startingAt bytes base) ∧
      i.opcode = o ∧ Sums base i.branchTargets ds
  /-- Otherwise it is refused for the first one that is. -/
  refused : ∀ (o : Opcode) (base j : Nat) (ds : List Int) (x : Int), BranchAt bytes k o base ds →
    ds[j]? = some x → (∀ (i : Nat) (y : Int), i < j → ds[i]? = some y → 0 ≤ base + y) →
    base + x < 0 →
    ∃ d, instruction r (Cursor.startingAt bytes k) = .error (.invalidTarget k (base + x)) d
  /-- No target is stored in another way. -/
  ofStored : ∀ i d, instruction r (Cursor.startingAt bytes k) = .ok i d →
    ∀ t ∈ i.branchTargets, LeadsTo bytes k (t : Nat)
  /-- No branch is refused in another way, neither by itself nor in the check of a body. -/
  ofRefused : ∀ offset t d,
    instruction r (Cursor.startingAt bytes k) = .error (.invalidTarget offset t) d →
      offset = k ∧ t < 0 ∧ LeadsTo bytes k t
  ofBody : ∀ offset t d,
    stream r (Cursor.startingAt bytes k) = .error (.invalidTarget offset t) d →
      LeadsTo bytes offset t
  /-- A jump table that is not there in full is not looked at; in one that is, no case is missing. -/
  table : ∀ o count, OpcodeAt bytes k o → o.operand = .switch →
    (Scalar.u32.readAt bytes (k + 1)).1 = .ok count →
      (bytes.length < k + 5 + 4 * count.toNat → instruction r (Cursor.startingAt bytes k) =
        .error (.truncated k) (Cursor.startingAt bytes (k + 5))) ∧
      (k + 5 + 4 * count.toNat ≤ bytes.length → ∀ offset d,
        instruction r (Cursor.startingAt bytes k) ≠ .error (.truncated offset) d)

theorem exactTargets (r : Resolver) (bytes : List UInt8) (k : Nat) : ExactTargets r bytes k where
  stored o base ds hbranch hnonneg := hbranch.instruction_of_nonneg hnonneg r
  refused o base j ds x hbranch hj hfirst hneg := hbranch.instruction_of_neg hj hfirst hneg r
  ofStored i d h t ht := leadsTo_of_instruction h ht
  ofRefused offset t d h := leadsTo_of_instruction_error h
  ofBody offset t d h := leadsTo_of_stream_error h
  table := by
    intro o count ho hkind hcount
    refine ⟨fun hend => instruction_of_stopsAt (.noTable ho hkind hcount hend), ?_⟩
    intro hfits offset d herror
    obtain ⟨ds, hbranch⟩ := ho.exists_switch hkind hcount hfits
    rcases hbranch.instruction_cases r with ⟨i, hi, -⟩ | ⟨t, d', hi⟩
    · rw [herror] at hi
      cases hi
    · rw [herror] at hi
      cases hi

end Cil.Decode
