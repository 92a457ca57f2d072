import Mathlib
import Cil.Proofs.Reading

/-! An instruction decodes if its bytes are an encoding, and otherwise exactly one fault applies.

The cases are exhaustive and each of them fixes the result, so both directions of every
characterization follow from evaluating the decoder case by case. -/
namespace Cil.Decode

variable {r : Resolver} {k pos n : Nat} {kind : OperandKind} {rest bytes : List UInt8} {e : Error}
  {c c' : Cursor} {i : Instruction}

/-- Why `bytes`, at offset `pos`, are no operand of the instruction at offset `k`, and how many of
them are read all the same. -/
inductive OperandFault (r : Resolver) (k : Nat) (kind : OperandKind) (pos : Nat) :
    (bytes : List UInt8) → Error → (read : Nat) → Prop
  | short {size : Nat} {bytes : List UInt8} (hsize : kind.size? = some size)
    (hshort : bytes.length < size) : OperandFault r k kind pos bytes (.truncated k) 0
  | shortCount {bytes : List UInt8} (hkind : kind = .switch) (hshort : bytes.length < 4) :
    OperandFault r k kind pos bytes (.truncated k) 0
  | shortTable {count : UInt32} {rest : List UInt8} (hkind : kind = .switch)
    (hshort : rest.length < 4 * count.toNat) :
    OperandFault r k kind pos (Scalar.u32.toBytes count ++ rest) (.truncated k) 4
  | negativeShort {d : Int8} {rest : List UInt8} {next : Nat} (hkind : kind = .shortBranch)
    (hnext : next = pos + 1) (hneg : next + d.toInt < 0) :
    OperandFault r k kind pos (Scalar.i8.toBytes d ++ rest) (.invalidTarget k (next + d.toInt)) 1
  | negativeLong {d : Int32} {rest : List UInt8} {next : Nat} (hkind : kind = .longBranch)
    (hnext : next = pos + 4) (hneg : next + d.toInt < 0) :
    OperandFault r k kind pos (Scalar.i32.toBytes d ++ rest) (.invalidTarget k (next + d.toInt)) 4
  /-- `d` is the first case of the table that leads before the body. -/
  | negativeCase {count : UInt32} {ds ds' : List Int32} {d : Int32} {rest : List UInt8}
    {next : Nat} (hkind : kind = .switch) (hcount : (ds ++ d :: ds').length = count.toNat)
    (hnext : next = pos + 4 + 4 * count.toNat) (hfirst : ∀ d' ∈ ds, 0 ≤ next + d'.toInt)
    (hneg : next + d.toInt < 0) :
    OperandFault r k kind pos
      (Scalar.u32.toBytes count ++ (tableBytes (ds ++ d :: ds') ++ rest))
      (.invalidTarget k (next + d.toInt)) (4 + 4 * (ds.length + 1))
  | unresolved {t : Token} {source : ResolutionError} {rest : List UInt8}
    (hshape : (RawOperand.token t).hasShape kind = true)
    (hsource : (RawOperand.token t).resolve r kind = .error source) :
    OperandFault r k kind pos (Scalar.u32.toBytes t.raw ++ rest) (.unresolvedToken k t source) 4

/-- Why no instruction can be decoded from `bytes`, at offset `k`, and how many of them are read
all the same. -/
inductive Fault (r : Resolver) (k : Nat) : (bytes : List UInt8) → Error → (read : Nat) → Prop
  | nothing : Fault r k [] (.truncated k) 0
  | unknownByte {b : UInt8} {rest : List UInt8} (hmark : b ≠ extendedMark)
    (hunknown : Opcode.ofByte? b = none) :
    Fault r k (b :: rest) (.unknownOpcode k b.toUInt16) 1
  | loneMark : Fault r k [extendedMark] (.truncated k) 1
  | unknownPair {b : UInt8} {rest : List UInt8} (hunknown : Opcode.ofSecondByte? b = none) :
    Fault r k (extendedMark :: b :: rest) (.unknownOpcode k (Opcode.extendedValue b)) 2
  | operand {o : Opcode} {rest : List UInt8} {e : Error} {n : Nat} (hmem : o ∈ Opcode.table)
    (hfault : OperandFault r k o.operand (k + o.size) rest e n) :
    Fault r k (o.bytes ++ rest) e (o.size + n)

/-- `front` is how the displacement `d` of a branch of the given kind is written. -/
inductive Displacement : OperandKind → (front : List UInt8) → (d : Int) → Prop
  | short (d : Int8) : Displacement .shortBranch (Scalar.i8.toBytes d) d.toInt
  | long (d : Int32) : Displacement .longBranch (Scalar.i32.toBytes d) d.toInt

theorem readOperand_branch {front : List UInt8} {d : Int} (hd : Displacement kind front d)
    (r : Resolver) (k pos : Nat) (rest : List UInt8) :
    readOperand r k kind ⟨pos, front ++ rest⟩ = readBranch k d ⟨pos + front.length, rest⟩ := by
  cases hd with
  | short d =>
    rw [Scalar.length_toBytes]
    exact bind_of_ok (fetch_toBytes (s := .i8) d k pos rest)
  | long d =>
    rw [Scalar.length_toBytes]
    exact bind_of_ok (fetch_toBytes (s := .i32) d k pos rest)

theorem displacement_bytes {offset next : Nat}
    (hshape : (RawOperand.target offset).hasShape kind = true)
    (hfits : (RawOperand.target offset).Fits kind next) :
    Displacement kind ((RawOperand.target offset).bytes kind next) (offset - next) := by
  cases kind with
  | shortBranch =>
    have hd := Displacement.short (Int8.ofInt (offset - next))
    rwa [toInt_ofInt8 hfits] at hd
  | longBranch =>
    have hd := Displacement.long (Int32.ofInt (offset - next))
    rwa [toInt_ofInt32 hfits] at hd
  | _ => cases hshape

theorem Displacement.target {front : List UInt8} {d : Int} {offset next : Nat}
    (hd : Displacement kind front d) (hoffset : (offset : Int) - next = d) :
    (RawOperand.target offset).hasShape kind = true ∧ (RawOperand.target offset).Fits kind next ∧
      (RawOperand.target offset).bytes kind next = front := by
  cases hd with
  | short d =>
    refine ⟨rfl, ?_, ?_⟩
    · change FitsSigned 8 ((offset : Int) - next)
      rw [hoffset]
      exact fitsSigned_toInt8 d
    · change Scalar.i8.toBytes (Int8.ofInt ((offset : Int) - next)) = _
      rw [hoffset, Int8.ofInt_toInt]
  | long d =>
    refine ⟨rfl, ?_, ?_⟩
    · change FitsSigned 32 ((offset : Int) - next)
      rw [hoffset]
      exact fitsSigned_toInt32 d
    · change Scalar.i32.toBytes (Int32.ofInt ((offset : Int) - next)) = _
      rw [hoffset, Int32.ofInt_toInt]

theorem readOperand_switch {count : UInt32} {ds : List Int32} {next : Nat}
    (hcount : ds.length = count.toNat) (hnext : next = pos + 4 + 4 * count.toNat)
    (h : ∀ d ∈ ds, 0 ≤ next + d.toInt) (r : Resolver) (k : Nat) (rest : List UInt8) :
    readOperand r k .switch ⟨pos, Scalar.u32.toBytes count ++ (tableBytes ds ++ rest)⟩ =
      .ok (.switch (ds.map fun d => ((next : Int) + d.toInt).toNat)) ⟨next, rest⟩ := by
  have hlen : 4 * count.toNat ≤ (tableBytes ds ++ rest).length := by
    rw [List.length_append, length_tableBytes, hcount]
    omega
  have hcases := readCases_tableBytes ds h k (pos + 4) rest
  rw [hcount, hnext, ← readSwitch_of_le hlen] at hcases
  rw [hnext]
  exact bind_of_ok hcases

theorem readOperand_scalar {s : Scalar} {f : s.Value → Operand} {next : Nat}
    (hread : readOperand r k kind = (do return f (← fetch s k))) (v : s.Value)
    (hnext : next = pos + s.width) (rest : List UInt8) :
    readOperand r k kind ⟨pos, s.toBytes v ++ rest⟩ = .ok (f v) ⟨next, rest⟩ := by
  rw [hread, hnext]
  exact bind_of_ok (fetch_toBytes v k pos rest)

/-- What a token operand comes to, given the outcome of its lookup. -/
def tokenResult (k : Nat) (t : Token) (c : Cursor) :
    Except ResolutionError Operand → EStateM.Result Error Cursor Operand
  | .ok a => .ok a c
  | .error source => .error (.unresolvedToken k t source) c

theorem readToken_map {α : Type} (lookup : Token → Except ResolutionError α) (f : α → Operand)
    (t : Token) (k pos : Nat) (rest : List UInt8) :
    (do return f (← readToken k lookup) : DecodeM Operand)
        ⟨pos, Scalar.u32.toBytes t.raw ++ rest⟩ =
      tokenResult k t ⟨pos + 4, rest⟩ ((lookup t).map f) := by
  cases ht : lookup t with
  | ok a => exact bind_of_ok (readToken_of_ok ht k pos rest)
  | error source => exact bind_of_error (readToken_of_error ht k pos rest)

theorem readOperand_token {t : Token} (h : (RawOperand.token t).hasShape kind = true)
    (r : Resolver) (k pos : Nat) (rest : List UInt8) :
    readOperand r k kind ⟨pos, Scalar.u32.toBytes t.raw ++ rest⟩ =
      tokenResult k t ⟨pos + 4, rest⟩ ((RawOperand.token t).resolve r kind) := by
  cases kind with
  | type | method | field | tok => exact readToken_map r.member .member t k pos rest
  | string => exact readToken_map r.string .string t k pos rest
  | signature => exact readToken_map r.signature .signature t k pos rest
  | _ => cases h

theorem readOperand_switch_bytes {offsets : List Nat} {next : Nat}
    (hnext : next = pos + (4 + 4 * offsets.length))
    (hfits : (RawOperand.switch offsets).Fits .switch next) (r : Resolver) (k : Nat)
    (rest : List UInt8) :
    readOperand r k .switch ⟨pos, (RawOperand.switch offsets).bytes .switch next ++ rest⟩ =
      .ok (.switch offsets) ⟨next, rest⟩ := by
  have hcount : (UInt32.ofNat offsets.length).toNat = offsets.length := by
    rw [UInt32.toNat_ofNat']
    exact Nat.mod_eq_of_lt hfits.1
  have htarget : ∀ offset ∈ offsets,
      (next : Int) + (Int32.ofInt (offset - next)).toInt = offset := by
    intro offset hmem
    rw [toInt_ofInt32 (hfits.2 offset hmem)]
    omega
  let ds : List Int32 := offsets.map fun (offset : Nat) => Int32.ofInt (offset - next)
  have hlen : ds.length = (UInt32.ofNat offsets.length).toNat := by
    rw [List.length_map, hcount]
  have hnonneg : ∀ d ∈ ds, 0 ≤ next + d.toInt := by
    intro d hd
    obtain ⟨offset, hmem, rfl⟩ := List.mem_map.mp hd
    rw [htarget offset hmem]
    omega
  have htargets : (ds.map fun d => ((next : Int) + d.toInt).toNat) = offsets := by
    rw [List.map_map]
    refine (List.map_congr_left ?_).trans (List.map_id offsets)
    intro offset hmem
    rw [Function.comp_apply, htarget offset hmem, Int.toNat_natCast, id]
  have htable : tableBytes ds = offsets.flatMap fun (offset : Nat) =>
      Scalar.i32.toBytes (Int32.ofInt (offset - next)) := List.flatMap_map ..
  have hend : next = pos + 4 + 4 * (UInt32.ofNat offsets.length).toNat := by omega
  have hread := readOperand_switch hlen hend hnonneg r k rest
  rwa [htargets, htable, ← List.append_assoc] at hread

/-- Reading an operand from its encoding gives it back, resolved. -/
theorem readOperand_bytes {raw : RawOperand} {a : Operand} {next : Nat}
    (hshape : raw.hasShape kind = true) (hnext : next = pos + raw.size kind)
    (hfits : raw.Fits kind next) (hres : raw.resolve r kind = .ok a) (k : Nat)
    (rest : List UInt8) :
    readOperand r k kind ⟨pos, raw.bytes kind next ++ rest⟩ = .ok a ⟨next, rest⟩ := by
  cases raw with
  | token t =>
    have hsize : (RawOperand.token t).size kind = 4 := by
      cases kind <;> simp_all [RawOperand.hasShape, RawOperand.size, OperandKind.size?]
    rw [RawOperand.bytes, readOperand_token hshape, hres, hnext, hsize, tokenResult]
  | none =>
    cases kind <;> cases hshape
    cases hres
    rw [hnext]
    rfl
  | int8 v =>
    cases kind <;> cases hshape
    cases hres
    exact readOperand_scalar (s := .i8) (f := .int8) rfl v hnext rest
  | uint8 v =>
    cases kind <;> cases hshape
    cases hres
    exact readOperand_scalar (s := .u8) (f := .uint8) rfl v hnext rest
  | int16 v =>
    cases kind <;> cases hshape
    cases hres
    exact readOperand_scalar (s := .i16) (f := .int16) rfl v hnext rest
  | uint16 v =>
    cases kind <;> cases hshape
    cases hres
    exact readOperand_scalar (s := .u16) (f := .uint16) rfl v hnext rest
  | int32 v =>
    cases kind <;> cases hshape
    cases hres
    exact readOperand_scalar (s := .i32) (f := .int32) rfl v hnext rest
  | int64 v =>
    cases kind <;> cases hshape
    cases hres
    exact readOperand_scalar (s := .i64) (f := .int64) rfl v hnext rest
  | float32 v =>
    cases kind <;> cases hshape
    cases hres
    exact readOperand_scalar (s := .f32) (f := .float32) rfl v hnext rest
  | float64 v =>
    cases kind <;> cases hshape
    cases hres
    exact readOperand_scalar (s := .f64) (f := .float64) rfl v hnext rest
  | target offset =>
    have hd := displacement_bytes hshape hfits
    have hlength := RawOperand.length_bytes hshape next
    have htarget : (next : Int) + (offset - next) = offset := by omega
    cases hres
    rw [readOperand_branch hd, hlength, ← hnext, readBranch_of_nonneg (by omega), htarget,
      Int.toNat_natCast]
  | switch offsets =>
    cases kind <;> cases hshape
    cases hres
    exact readOperand_switch_bytes hnext hfits r k rest

theorem readOperand_short {size : Nat} (hsize : kind.size? = some size) (h : rest.length < size)
    (r : Resolver) (k pos : Nat) :
    readOperand r k kind ⟨pos, rest⟩ = .error (.truncated k) ⟨pos, rest⟩ := by
  cases kind with
  | none =>
    cases hsize
    omega
  | switch => cases hsize
  | type | method | field | tok | string | signature =>
    cases hsize
    exact bind_of_error (bind_of_error (fetch_short h k pos))
  | _ =>
    cases hsize
    exact bind_of_error (fetch_short h k pos)

theorem readOperand_of_fault (h : OperandFault r k kind pos bytes e n) :
    readOperand r k kind ⟨pos, bytes⟩ = .error e ⟨pos + n, bytes.drop n⟩ := by
  cases h with
  | short hsize hshort => exact readOperand_short hsize hshort r k pos
  | shortCount hkind hshort =>
    subst hkind
    exact bind_of_error (bind_of_error (fetch_short hshort k pos))
  | shortTable hkind hshort =>
    subst hkind
    rw [Scalar.drop_toBytes (s := .u32) (n := 4) rfl]
    exact bind_of_error (readSwitch_of_lt hshort k pos)
  | negativeShort hkind hnext hneg =>
    subst hkind hnext
    rw [readOperand_branch (.short _), Scalar.length_toBytes,
      Scalar.drop_toBytes (s := .i8) (n := 1) rfl]
    exact readBranch_of_neg hneg k _
  | negativeLong hkind hnext hneg =>
    subst hkind hnext
    rw [readOperand_branch (.long _), Scalar.length_toBytes,
      Scalar.drop_toBytes (s := .i32) (n := 4) rfl]
    exact readBranch_of_neg hneg k _
  | @negativeCase count ds ds' d rest next hkind hcount hnext hfirst hneg =>
    subst hkind
    have htable : tableBytes (ds ++ d :: ds') ++ rest =
        tableBytes ds ++ (Scalar.i32.toBytes d ++ (tableBytes ds' ++ rest)) := by
      simp [tableBytes]
    have hlen : 4 * count.toNat ≤ (tableBytes (ds ++ d :: ds') ++ rest).length := by
      rw [List.length_append, length_tableBytes, hcount]
      omega
    have hcases := readCases_neg ds hfirst hneg k (pos + 4) ds'.length (tableBytes ds' ++ rest)
    rw [List.length_append, List.length_cons] at hcount
    rw [hcount, hnext, ← htable, ← readSwitch_of_le hlen, ← hnext] at hcases
    have hdrop : (Scalar.u32.toBytes count ++ (tableBytes (ds ++ d :: ds') ++ rest)).drop
        (4 + 4 * (ds.length + 1)) = tableBytes ds' ++ rest := by
      rw [← List.drop_drop, Scalar.drop_toBytes (s := .u32) (n := 4) rfl, htable, Nat.mul_add,
        ← List.drop_drop, ← length_tableBytes, List.drop_left]
      exact Scalar.drop_toBytes (s := .i32) rfl d _
    rw [hdrop, ← Nat.add_assoc]
    exact bind_of_error hcases
  | unresolved hshape hsource =>
    rw [Scalar.drop_toBytes (s := .u32) (n := 4) rfl, readOperand_token hshape, hsource,
      tokenResult]

/-- `bytes` begin with an operand that the resolver accepts. -/
def StartsWithOperand (r : Resolver) (kind : OperandKind) (pos : Nat) (bytes : List UInt8) : Prop :=
  ∃ (raw : RawOperand) (a : Operand) (rest : List UInt8), raw.hasShape kind = true ∧
    raw.Fits kind (pos + raw.size kind) ∧ raw.resolve r kind = .ok a ∧
      bytes = raw.bytes kind (pos + raw.size kind) ++ rest

theorem startsWithOperand_branch {front : List UInt8} {d : Int} {next : Nat}
    (hd : Displacement kind front d) (hnext : next = pos + front.length) (h : 0 ≤ next + d)
    (r : Resolver) (rest : List UInt8) : StartsWithOperand r kind pos (front ++ rest) := by
  let offset := ((next : Int) + d).toNat
  have hoffset : (offset : Int) - next = d := by
    rw [Int.toNat_of_nonneg h]
    omega
  obtain ⟨hshape, hfits, hbytes⟩ := hd.target hoffset
  have hsize := RawOperand.length_bytes hshape next
  rw [hbytes] at hsize
  refine ⟨.target offset, .target offset, rest, hshape, ?_, rfl, ?_⟩
  · rwa [← hsize, ← hnext]
  · rw [← hsize, ← hnext, hbytes]

theorem branch_cases {front : List UInt8} {d : Int} (hd : Displacement kind front d)
    (r : Resolver) (k pos : Nat) (rest : List UInt8) :
    StartsWithOperand r kind pos (front ++ rest) ∨
      ∃ e n, OperandFault r k kind pos (front ++ rest) e n := by
  by_cases hneg : ((pos + front.length : Nat) : Int) + d < 0
  · cases hd with
    | short d => exact Or.inr ⟨_, _, .negativeShort rfl rfl hneg⟩
    | long d => exact Or.inr ⟨_, _, .negativeLong rfl rfl hneg⟩
  · exact Or.inl (startsWithOperand_branch hd rfl (Int.not_lt.mp hneg) r rest)

theorem startsWithOperand_switch {count : UInt32} {ds : List Int32} {next : Nat}
    (hcount : ds.length = count.toNat) (hnext : next = pos + 4 + 4 * count.toNat)
    (h : ∀ d ∈ ds, 0 ≤ next + d.toInt) (r : Resolver) (rest : List UInt8) :
    StartsWithOperand r .switch pos (Scalar.u32.toBytes count ++ (tableBytes ds ++ rest)) := by
  let offsets := ds.map fun d => ((next : Int) + d.toInt).toNat
  have hlen : offsets.length = count.toNat := by rw [List.length_map, hcount]
  have hend : pos + (4 + 4 * offsets.length) = next := by omega
  have hd : ∀ d ∈ ds, ((((next : Int) + d.toInt).toNat : Nat) : Int) - next = d.toInt := by
    intro d hmem
    rw [Int.toNat_of_nonneg (h d hmem)]
    omega
  have htable : (offsets.flatMap fun (offset : Nat) =>
      Scalar.i32.toBytes (Int32.ofInt (offset - next))) = tableBytes ds := by
    rw [List.flatMap_map, tableBytes]
    apply List.flatMap_congr
    intro d hmem
    rw [hd d hmem, Int32.ofInt_toInt]
  refine ⟨.switch offsets, .switch offsets, rest, rfl, ?_, rfl, ?_⟩
  · rw [RawOperand.size, hend]
    refine ⟨by rw [hlen]; exact count.toNat_lt, ?_⟩
    intro offset hoffset
    obtain ⟨d, hmem, rfl⟩ := List.mem_map.mp hoffset
    rw [hd d hmem]
    exact fitsSigned_toInt32 d
  · rw [RawOperand.size, hend, RawOperand.bytes, htable, hlen, UInt32.ofNat_toNat,
      List.append_assoc]

theorem switch_cases (r : Resolver) (k pos : Nat) (bytes : List UInt8) :
    StartsWithOperand r .switch pos bytes ∨ ∃ e n, OperandFault r k .switch pos bytes e n := by
  by_cases hfour : bytes.length < 4
  · exact Or.inr ⟨_, _, .shortCount rfl hfour⟩
  obtain ⟨count, rest, rfl⟩ : ∃ count rest, bytes = Scalar.u32.toBytes count ++ rest :=
    Scalar.exists_toBytes (Nat.le_of_not_lt hfour)
  by_cases htable : rest.length < 4 * count.toNat
  · exact Or.inr ⟨_, _, .shortTable rfl htable⟩
  obtain ⟨ds, rest, hcount, rfl⟩ := exists_tableBytes (Nat.le_of_not_lt htable)
  let next := pos + 4 + 4 * count.toNat
  cases hneg : ds.find? fun d => decide ((next : Int) + d.toInt < 0) with
  | none =>
    refine Or.inl (startsWithOperand_switch hcount rfl ?_ r rest)
    intro d hd
    have hd := List.find?_eq_none.mp hneg d hd
    simp only [decide_eq_true_eq] at hd
    omega
  | some d =>
    obtain ⟨hd, before, after, rfl, hbefore⟩ := List.find?_eq_some_iff_append.mp hneg
    refine Or.inr ⟨_, _, .negativeCase rfl hcount rfl ?_ (of_decide_eq_true hd)⟩
    intro d' hd'
    have hd' := hbefore d' hd'
    simp only [Bool.not_eq_true', decide_eq_false_iff_not] at hd'
    omega

/-- An operand of fixed size is cut short, or it starts with the bytes of some value. -/
theorem fixed_cases {s : Scalar} (hsize : kind.size? = some s.width) (bytes : List UInt8)
    (h : ∀ (v : s.Value) (rest : List UInt8), StartsWithOperand r kind pos (s.toBytes v ++ rest) ∨
      ∃ e n, OperandFault r k kind pos (s.toBytes v ++ rest) e n) :
    StartsWithOperand r kind pos bytes ∨ ∃ e n, OperandFault r k kind pos bytes e n := by
  by_cases hshort : bytes.length < s.width
  · exact Or.inr ⟨_, _, .short hsize hshort⟩
  · obtain ⟨v, rest, rfl⟩ := Scalar.exists_toBytes (Nat.le_of_not_lt hshort)
    exact h v rest

theorem token_cases {t : Token} (hshape : (RawOperand.token t).hasShape kind = true)
    (r : Resolver) (k pos : Nat) (rest : List UInt8) :
    StartsWithOperand r kind pos (Scalar.u32.toBytes t.raw ++ rest) ∨
      ∃ e n, OperandFault r k kind pos (Scalar.u32.toBytes t.raw ++ rest) e n := by
  cases hres : (RawOperand.token t).resolve r kind with
  | ok a => exact Or.inl ⟨.token t, a, rest, hshape, trivial, hres, rfl⟩
  | error source => exact Or.inr ⟨_, _, .unresolved hshape hres⟩

theorem operand_cases (r : Resolver) (k : Nat) (kind : OperandKind) (pos : Nat)
    (bytes : List UInt8) :
    StartsWithOperand r kind pos bytes ∨ ∃ e n, OperandFault r k kind pos bytes e n := by
  cases kind with
  | none => exact Or.inl ⟨.none, .none, bytes, rfl, trivial, rfl, rfl⟩
  | int8 =>
    refine fixed_cases (s := .i8) rfl bytes fun v rest => ?_
    exact Or.inl ⟨.int8 v, .int8 v, rest, rfl, trivial, rfl, rfl⟩
  | uint8 =>
    refine fixed_cases (s := .u8) rfl bytes fun v rest => ?_
    exact Or.inl ⟨.uint8 v, .uint8 v, rest, rfl, trivial, rfl, rfl⟩
  | int16 =>
    refine fixed_cases (s := .i16) rfl bytes fun v rest => ?_
    exact Or.inl ⟨.int16 v, .int16 v, rest, rfl, trivial, rfl, rfl⟩
  | localIndex =>
    refine fixed_cases (s := .u16) rfl bytes fun v rest => ?_
    exact Or.inl ⟨.uint16 v, .uint16 v, rest, rfl, trivial, rfl, rfl⟩
  | int32 =>
    refine fixed_cases (s := .i32) rfl bytes fun v rest => ?_
    exact Or.inl ⟨.int32 v, .int32 v, rest, rfl, trivial, rfl, rfl⟩
  | int64 =>
    refine fixed_cases (s := .i64) rfl bytes fun v rest => ?_
    exact Or.inl ⟨.int64 v, .int64 v, rest, rfl, trivial, rfl, rfl⟩
  | float32 =>
    refine fixed_cases (s := .f32) rfl bytes fun v rest => ?_
    exact Or.inl ⟨.float32 v, .float32 v, rest, rfl, trivial, rfl, rfl⟩
  | float64 =>
    refine fixed_cases (s := .f64) rfl bytes fun v rest => ?_
    exact Or.inl ⟨.float64 v, .float64 v, rest, rfl, trivial, rfl, rfl⟩
  | shortBranch =>
    exact fixed_cases (s := .i8) rfl bytes fun d rest => branch_cases (.short d) r k pos rest
  | longBranch =>
    exact fixed_cases (s := .i32) rfl bytes fun d rest => branch_cases (.long d) r k pos rest
  | switch => exact switch_cases r k pos bytes
  | type | method | field | tok | string | signature =>
    exact fixed_cases (s := .u32) rfl bytes fun raw rest =>
      token_cases (t := ⟨raw⟩) rfl r k pos rest

theorem instruction_of_opcode {o : Opcode} {d : Cursor}
    (h : readOpcode k ⟨k, bytes⟩ = .ok o d) (r : Resolver) :
    instruction r ⟨k, bytes⟩ =
      (do
        let a ← readOperand r k o.operand
        return (⟨k, (← get).pos - k, o, a⟩ : Instruction) : DecodeM Instruction) d :=
  bind_of_ok h

theorem instruction_of_opcode_error {d : Cursor} (h : readOpcode k ⟨k, bytes⟩ = .error e d)
    (r : Resolver) : instruction r ⟨k, bytes⟩ = .error e d := by
  rw [instruction, bind_of_ok (get_eq _)]
  exact bind_of_error h

/-- Decoding an instruction from its encoding gives it back, resolved. -/
theorem instruction_bytesAt {raw : RawInstruction} (hwf : raw.WellFormed k)
    (hres : raw.resolveAt r k = .ok i) (rest : List UInt8) :
    instruction r ⟨k, raw.bytesAt k ++ rest⟩ = .ok i ⟨k + raw.size, rest⟩ := by
  obtain ⟨a, ha, rfl⟩ := RawInstruction.resolveAt_eq_ok_iff.mp hres
  have hnext : k + raw.size = k + raw.opcode.size + raw.operand.size raw.opcode.operand :=
    (Nat.add_assoc ..).symm
  have hopcode := readOpcode_bytes hwf.mem_table k k
    (raw.operand.bytes raw.opcode.operand (k + raw.size) ++ rest)
  have hoperand := readOperand_bytes hwf.hasShape hnext hwf.fits ha k rest
  have hsize : k + raw.size - k = raw.size := by omega
  rw [RawInstruction.bytesAt, List.append_assoc, instruction_of_opcode hopcode,
    bind_of_ok hoperand]
  change EStateM.Result.ok (Instruction.mk k (k + raw.size - k) raw.opcode a) _ = _
  rw [hsize]

theorem instruction_of_fault (h : Fault r k bytes e n) :
    instruction r ⟨k, bytes⟩ = .error e ⟨k + n, bytes.drop n⟩ := by
  cases h with
  | nothing => exact instruction_of_opcode_error (readOpcode_nil k k) r
  | unknownByte hmark hunknown =>
    refine instruction_of_opcode_error ?_ r
    rw [readOpcode_byte hmark, hunknown]
    rfl
  | loneMark => exact instruction_of_opcode_error (readOpcode_mark k k) r
  | unknownPair hunknown =>
    refine instruction_of_opcode_error ?_ r
    rw [readOpcode_pair, hunknown]
    rfl
  | @operand o rest e n hmem hfault =>
    rw [instruction_of_opcode (readOpcode_bytes hmem k k rest),
      bind_of_error (readOperand_of_fault hfault), ← List.drop_drop, ← o.length_bytes,
      List.drop_left, o.length_bytes, Nat.add_assoc]

/-- `bytes` begin with an instruction that the resolver accepts. -/
def StartsWithInstruction (r : Resolver) (k : Nat) (bytes : List UInt8) : Prop :=
  ∃ (raw : RawInstruction) (i : Instruction) (rest : List UInt8), raw.WellFormed k ∧
    raw.resolveAt r k = .ok i ∧ bytes = raw.bytesAt k ++ rest

theorem opcode_cases (r : Resolver) (k : Nat) (bytes : List UInt8) :
    (∃ o ∈ Opcode.table, ∃ rest, bytes = o.bytes ++ rest) ∨ ∃ e n, Fault r k bytes e n := by
  match bytes with
  | [] => exact Or.inr ⟨_, _, .nothing⟩
  | b :: rest =>
    by_cases hmark : b = extendedMark
    · subst hmark
      match rest with
      | [] => exact Or.inr ⟨_, _, .loneMark⟩
      | b :: rest =>
        cases hfind : Opcode.ofSecondByte? b with
        | none => exact Or.inr ⟨_, _, .unknownPair hfind⟩
        | some o =>
          obtain ⟨hmem, hbytes⟩ := Opcode.ofSecondByte?_eq_some_iff.mp hfind
          exact Or.inl ⟨o, hmem, rest, by rw [hbytes]; rfl⟩
    · cases hfind : Opcode.ofByte? b with
      | none => exact Or.inr ⟨_, _, .unknownByte hmark hfind⟩
      | some o =>
        obtain ⟨hmem, hbytes⟩ := Opcode.ofByte?_eq_some_iff.mp hfind
        exact Or.inl ⟨o, hmem, rest, by rw [hbytes]; rfl⟩

theorem instruction_cases (r : Resolver) (k : Nat) (bytes : List UInt8) :
    StartsWithInstruction r k bytes ∨ ∃ e n, Fault r k bytes e n := by
  obtain ⟨o, hmem, rest, rfl⟩ | hfault := opcode_cases r k bytes
  · obtain ⟨raw, a, rest, hshape, hfits, hres, rfl⟩ | ⟨e, n, hfault⟩ :=
      operand_cases r k o.operand (k + o.size) rest
    · rw [Nat.add_assoc] at hfits
      refine Or.inl ⟨⟨o, raw⟩, _, rest, ⟨hmem, hshape, hfits⟩,
        RawInstruction.resolveAt_eq_ok_iff.mpr ⟨a, hres, rfl⟩, ?_⟩
      rw [RawInstruction.bytesAt, List.append_assoc, RawInstruction.size, Nat.add_assoc]
    · exact Or.inr ⟨_, _, .operand hmem hfault⟩
  · exact Or.inr hfault

/-- The successful results of decoding one instruction. -/
theorem instruction_eq_ok_iff : instruction r c = .ok i c' ↔
    ∃ raw : RawInstruction, raw.WellFormed c.pos ∧ raw.resolveAt r c.pos = .ok i ∧
      c.rest = raw.bytesAt c.pos ++ c'.rest ∧ c'.pos = c.pos + raw.size := by
  constructor
  · intro h
    obtain ⟨raw, j, rest, hwf, hres, hrest⟩ | ⟨e, n, hfault⟩ := instruction_cases r c.pos c.rest
    · have hok := instruction_bytesAt hwf hres rest
      rw [← hrest, h] at hok
      cases hok
      exact ⟨raw, hwf, hres, hrest, rfl⟩
    · have herror := instruction_of_fault hfault
      rw [h] at herror
      cases herror
  · rintro ⟨raw, hwf, hres, hrest, hpos⟩
    have hok := instruction_bytesAt hwf hres c'.rest
    rwa [← hrest, ← hpos] at hok

/-- The failures of decoding one instruction, with where the cursor is left. -/
theorem instruction_eq_error_iff : instruction r c = .error e c' ↔
    ∃ n, Fault r c.pos c.rest e n ∧ c' = ⟨c.pos + n, c.rest.drop n⟩ := by
  constructor
  · intro h
    obtain ⟨raw, j, rest, hwf, hres, hrest⟩ | ⟨e, n, hfault⟩ := instruction_cases r c.pos c.rest
    · have hok := instruction_bytesAt hwf hres rest
      rw [← hrest, h] at hok
      cases hok
    · have herror := instruction_of_fault hfault
      rw [h] at herror
      cases herror
      exact ⟨n, hfault, rfl⟩
  · rintro ⟨n, hfault, rfl⟩
    exact instruction_of_fault hfault

end Cil.Decode
