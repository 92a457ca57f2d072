import Mathlib
import Cil.Proofs.BranchTargets

/-! Decoding with numbers of 64 bits, where something has to be done whenever a number does not fit.
As long as the bytes leave room for one displacement, it never has to be, and the outcome is that of
decoding with numbers of any size. -/
namespace Cil.Decode.Word

/-- What to do where a number or a table does not fit. -/
structure Fallbacks where
  /-- The number of cases is no 64-bit number. -/
  count : (offset : Nat) → DecodeM UInt64
  /-- Four times the number of cases is none. -/
  tableSize : (offset : Nat) → DecodeM UInt64
  /-- The end of the table is none. -/
  tableEnd : (pos size : UInt64) → DecodeM UInt64
  /-- Room is asked for more cases than are left. -/
  room : (count : UInt64) → DecodeM Unit
  /-- A case is not there. -/
  missing : (offset : Nat) → DecodeM Int32
  /-- What displacements count from is no signed number. -/
  base : (base : UInt64) → DecodeM Int64
  /-- The sum of base and displacement is none. -/
  sum : (base displacement : Int64) → DecodeM Int64
  /-- A stored target is none. -/
  stored : (target : Nat) → Int64

/-- Ends the instruction for the sake of a table, and takes the nearest number for the sake of a
target. -/
def Fallbacks.saturating : Fallbacks where
  count offset := throw (.truncated offset)
  tableSize offset := throw (.truncated offset)
  tableEnd pos size := pure (pos + size)
  room _ := pure ()
  missing offset := throw (.truncated offset)
  base _ := pure Int64.maxValue
  sum _ displacement := pure (if displacement < 0 then Int64.minValue else Int64.maxValue)
  stored _ := Int64.maxValue

def signed (f : Fallbacks) (base : UInt64) : DecodeM Int64 :=
  if base.toNat < 2 ^ 63 then pure base.toInt64 else f.base base

def add (f : Fallbacks) (base displacement : Int64) : DecodeM Int64 :=
  let sum := base.toInt + displacement.toInt
  if -2 ^ 63 ≤ sum ∧ sum < 2 ^ 63 then pure (base + displacement) else f.sum base displacement

def branchTarget (f : Fallbacks) (offset : Nat) (base : UInt64) (displacement : Int64) :
    DecodeM Nat := do
  let target ← add f (← signed f base) displacement
  if target < 0 then throw (.invalidTarget offset target.toInt) else return target.toUInt64.toNat

def fetchCase (f : Fallbacks) (offset : Nat) : DecodeM Int32 := fun c =>
  match c.read? .i32 with
  | some (displacement, c') => .ok displacement c'
  | none => f.missing offset c

def readCases (f : Fallbacks) (offset : Nat) (base : UInt64) : (count : Nat) → DecodeM (List Nat)
  | 0 => return []
  | count + 1 => do
    let displacement ← fetchCase f offset
    let target ← branchTarget f offset base displacement.toInt64
    return target :: (← readCases f offset base count)

def wordCount (f : Fallbacks) (offset : Nat) (count : UInt32) : DecodeM UInt64 :=
  if count.toNat < 2 ^ 64 then pure count.toUInt64 else f.count offset

def tableSize (f : Fallbacks) (offset : Nat) (count : UInt64) : DecodeM UInt64 :=
  if 4 * count.toNat < 2 ^ 64 then pure (4 * count) else f.tableSize offset

def tableEnd (f : Fallbacks) (pos size : UInt64) : DecodeM UInt64 :=
  if pos.toNat + size.toNat < 2 ^ 64 then pure (pos + size) else f.tableEnd pos size

/-- Makes room for the cases of a table before they are read. -/
def makeRoom (f : Fallbacks) (count remaining : UInt64) : DecodeM Unit :=
  if 4 * count.toNat ≤ remaining.toNat then pure () else f.room count

def readSwitch (f : Fallbacks) (offset : Nat) : DecodeM (List Nat) := do
  let count ← wordCount f offset (← fetch .u32 offset)
  let size ← tableSize f offset count
  let c ← get
  let remaining := UInt64.ofNat c.remaining
  if remaining < size then throw (.truncated offset)
  else
    let base ← tableEnd f (UInt64.ofNat c.pos) size
    makeRoom f count remaining
    readCases f offset base count.toNat

def readBranch (f : Fallbacks) (offset : Nat) (displacement : Int64) : DecodeM Operand := do
  return .target (← branchTarget f offset (UInt64.ofNat (← get).pos) displacement)

def readOperand (f : Fallbacks) (r : Resolver) (offset : Nat) : OperandKind → DecodeM Operand
  | .shortBranch => do
    let displacement ← fetch .i8 offset
    readBranch f offset displacement.toInt64
  | .longBranch => do
    let displacement ← fetch .i32 offset
    readBranch f offset displacement.toInt64
  | .switch => return .switch (← readSwitch f offset)
  | kind => Decode.readOperand r offset kind

def instruction (f : Fallbacks) (r : Resolver) : DecodeM Instruction := do
  let offset := (← get).pos
  let opcode ← readOpcode offset
  let operand ← readOperand f r offset opcode.operand
  return ⟨offset, (← get).pos - offset, opcode, operand⟩

/-- A stored target as a signed number. -/
def signedTarget (f : Fallbacks) (target : Nat) : Int64 :=
  if target < 2 ^ 63 then Int64.ofNat target else f.stored target

def strayTarget? (f : Fallbacks) (length : Nat) (body : List Instruction) : Option Error :=
  let starts := OffsetSet.ofList length (body.map (·.offset))
  body.findSome? fun i =>
    ((i.branchTargets.map (signedTarget f)).find? fun t => !starts.contains t.toInt).map fun t =>
      .invalidTarget i.offset t.toInt

/-- The longest sequence of bytes behind which a displacement can always be added. -/
def maxLength : Nat := 2 ^ 63 - 2 ^ 31

variable {r : Resolver} {k base n : Nat} {c d : Cursor} {bytes : List UInt8}

theorem toNat_ofNat (h : n < 2 ^ 64) : (UInt64.ofNat n).toNat = n := by
  rw [UInt64.toNat_ofNat', Nat.mod_eq_of_lt h]

theorem signed_ofNat (f : Fallbacks) (h : n < 2 ^ 63) :
    signed f (UInt64.ofNat n) = pure (Int64.ofNat n) := by
  rw [signed, toNat_ofNat (by omega), if_pos h, UInt64.toInt64_ofNat']

theorem toInt_add_of_le {x y : Int64} (hle : -2 ^ 63 ≤ x.toInt + y.toInt)
    (hlt : x.toInt + y.toInt < 2 ^ 63) : (x + y).toInt = x.toInt + y.toInt := by
  rw [Int64.toInt_add]
  exact Int.bmod_eq_of_le hle hlt

/-- `x` stands for the displacement `y`, which has no more than 32 bits. -/
structure Narrow (x : Int64) (y : Int) : Prop where
  toInt_eq : x.toInt = y
  le : -2 ^ 31 ≤ y
  lt : y < 2 ^ 31

theorem narrow_int8 (x : Int8) : Narrow x.toInt64 x.toInt := by
  have hle := x.le_toInt
  have hlt := x.toInt_lt
  exact ⟨x.toInt_toInt64, by omega, by omega⟩

theorem narrow_int32 (x : Int32) : Narrow x.toInt64 x.toInt :=
  ⟨x.toInt_toInt64, x.le_toInt, x.toInt_lt⟩

/-- A target is computed exactly, wherever a displacement can be added to the base. -/
theorem branchTarget_eq {x : Int64} {y : Int} (f : Fallbacks) (k : Nat) (hbase : base ≤ maxLength)
    (hx : Narrow x y) : branchTarget f k (UInt64.ofNat base) x = Decode.branchTarget k base y := by
  obtain ⟨rfl, hle, hlt⟩ := hx
  have hmax : maxLength = 2 ^ 63 - 2 ^ 31 := rfl
  have hfrom : (Int64.ofNat base).toInt = base := Int64.toInt_ofNat_of_lt (by omega)
  have hlow : -2 ^ 63 ≤ (Int64.ofNat base).toInt + x.toInt := by omega
  have hhigh : (Int64.ofNat base).toInt + x.toInt < 2 ^ 63 := by omega
  have hsum : (Int64.ofNat base + x).toInt = base + x.toInt := by
    rw [toInt_add_of_le hlow hhigh, hfrom]
  have hadd : add f (Int64.ofNat base) x = pure (Int64.ofNat base + x) := if_pos ⟨hlow, hhigh⟩
  have hneg : Int64.ofNat base + x < 0 ↔ (base : Int) + x.toInt < 0 := by
    rw [Int64.lt_iff_toInt_lt, hsum]
    rfl
  rw [branchTarget, signed_ofNat f (by omega), pure_bind, hadd, pure_bind, hsum,
    Decode.branchTarget]
  by_cases hnonneg : (base : Int) + x.toInt < 0
  · rw [if_pos (hneg.mpr hnonneg), if_pos hnonneg]
  · have hpos : 0 ≤ Int64.ofNat base + x := by
      rw [Int64.le_iff_toInt_le, hsum]
      exact Int.not_lt.mp hnonneg
    have hstored : (Int64.ofNat base + x).toUInt64.toNat = ((base : Int) + x.toInt).toNat := by
      rw [Int64.toNat_toUInt64_of_le hpos, ← hsum]
      rfl
    rw [if_neg (mt hneg.mp hnonneg), if_neg hnonneg, hstored]

theorem eq_of_branchTarget {x : Int} {t : Nat} (h : Decode.branchTarget k base x c = .ok t d) :
    d = c := by
  by_cases hneg : base + x < 0
  · rw [branchTarget_of_neg hneg] at h
    cases h
  · rw [branchTarget_of_nonneg (Int.not_lt.mp hneg)] at h
    cases h
    rfl

theorem fetchCase_toBytes (f : Fallbacks) (x : Int32) (k pos : Nat) (rest : List UInt8) :
    fetchCase f k ⟨pos, Scalar.i32.toBytes x ++ rest⟩ = .ok x ⟨pos + 4, rest⟩ := by
  have hread : (Cursor.mk pos (Scalar.i32.toBytes x ++ rest)).read? .i32 =
      some (x, ⟨pos + 4, rest⟩) := Cursor.read?_eq_some_iff.mpr ⟨rfl, rfl⟩
  simp only [fetchCase, hread]

/-- The cases of a table that is there in full are read without a fallback. -/
theorem readCases_eq {count : Nat} (f : Fallbacks) (k : Nat) (hbase : base ≤ maxLength)
    (hthere : 4 * count ≤ c.remaining) :
    readCases f k (UInt64.ofNat base) count c = Decode.readCases k base count c := by
  induction count generalizing c with
  | zero => rfl
  | succ count ih =>
    obtain ⟨pos, bytes⟩ := c
    have hlength : 4 * (count + 1) ≤ bytes.length := hthere
    obtain ⟨x, rest, rfl⟩ : ∃ x rest, bytes = Scalar.i32.toBytes x ++ rest := by
      apply Scalar.exists_toBytes
      simp only [Scalar.width]
      omega
    rw [List.length_append, Scalar.length_toBytes, Scalar.width] at hlength
    rw [readCases, Decode.readCases, bind_of_ok (fetchCase_toBytes f x k pos rest),
      bind_of_ok (fetch_toBytes (s := .i32) x k pos rest)]
    refine bind_congr_of_eq (congrFun (branchTarget_eq f k hbase (narrow_int32 x)) _) ?_
    intro t d ht
    obtain rfl := eq_of_branchTarget ht
    refine bind_congr_of_eq (ih ?_) fun _ _ _ => rfl
    simp only [Cursor.remaining]
    omega

theorem length_of_fetch {s : Scalar} {v : s.Value} (h : fetch s k c = .ok v d) :
    d.length = c.length := by
  obtain ⟨hrest, hpos⟩ := Cursor.read?_eq_some_iff.mp (Cursor.readOr_eq_ok_iff.mp h)
  simp only [Cursor.length, Cursor.remaining, hrest, hpos, List.length_append,
    Scalar.length_toBytes]
  omega

theorem wordCount_eq (f : Fallbacks) (k : Nat) (count : UInt32) :
    wordCount f k count = pure count.toUInt64 := by
  have hcount := count.toNat_lt
  exact if_pos (by omega)

theorem tableSize_eq (f : Fallbacks) (k : Nat) (count : UInt32) :
    tableSize f k count.toUInt64 = pure (UInt64.ofNat (4 * count.toNat)) := by
  have hcount := count.toNat_lt
  have hsize : 4 * count.toUInt64 = UInt64.ofNat (4 * count.toNat) := by
    rw [UInt64.ofNat_mul, UInt64.ofNat_uInt32ToNat]
    rfl
  rw [tableSize, UInt32.toNat_toUInt64, if_pos (by omega), hsize]

theorem tableEnd_eq {pos size : Nat} (f : Fallbacks) (h : pos + size < 2 ^ 64) :
    tableEnd f (UInt64.ofNat pos) (UInt64.ofNat size) = pure (UInt64.ofNat (pos + size)) := by
  rw [tableEnd, toNat_ofNat (by omega), toNat_ofNat (by omega), if_pos h, UInt64.ofNat_add]

theorem makeRoom_eq {count : UInt32} {remaining : Nat} (f : Fallbacks)
    (hremaining : remaining < 2 ^ 64) (h : 4 * count.toNat ≤ remaining) :
    makeRoom f count.toUInt64 (UInt64.ofNat remaining) = pure () := by
  rw [makeRoom, UInt32.toNat_toUInt64, toNat_ofNat hremaining, if_pos h]

/-- The whole table is compared with what is left before any of it is read. -/
theorem readSwitch_eq (f : Fallbacks) (k : Nat) (hlength : c.length ≤ maxLength) :
    readSwitch f k c = Decode.readSwitch k c := by
  refine bind_congr_of_eq rfl ?_
  intro count d hfetch
  have hmax : maxLength = 2 ^ 63 - 2 ^ 31 := rfl
  have hbound : d.pos + d.remaining ≤ maxLength := (length_of_fetch hfetch).trans_le hlength
  have hcount := count.toNat_lt
  have hless : UInt64.ofNat d.remaining < UInt64.ofNat (4 * count.toNat) ↔
      d.remaining < 4 * count.toNat := by
    rw [UInt64.lt_iff_toNat_lt, toNat_ofNat (by omega), toNat_ofNat (by omega)]
  rw [wordCount_eq, pure_bind, tableSize_eq, pure_bind, bind_of_ok (get_eq _),
    bind_of_ok (get_eq _)]
  by_cases htable : d.remaining < 4 * count.toNat
  · rw [if_pos (hless.mpr htable), if_pos htable]
  · rw [if_neg (mt hless.mp htable), if_neg htable, tableEnd_eq f (by omega), pure_bind,
      makeRoom_eq f (by omega) (by omega), pure_bind, UInt32.toNat_toUInt64]
    exact readCases_eq f k (by omega) (Nat.le_of_not_lt htable)

theorem readBranch_eq {x : Int64} {y : Int} (f : Fallbacks) (k : Nat)
    (hlength : c.length ≤ maxLength) (hx : Narrow x y) :
    readBranch f k x c = Decode.readBranch k y c := by
  have hpos : c.pos ≤ maxLength := Nat.le_trans (Nat.le_add_right _ _) hlength
  rw [readBranch, Decode.readBranch, bind_of_ok (get_eq _), bind_of_ok (get_eq _),
    branchTarget_eq f k hpos hx]

theorem readOperand_eq (f : Fallbacks) (r : Resolver) (k : Nat) (kind : OperandKind)
    (hlength : c.length ≤ maxLength) :
    readOperand f r k kind c = Decode.readOperand r k kind c := by
  cases kind with
  | shortBranch =>
    refine bind_congr_of_eq rfl ?_
    intro x d hfetch
    exact readBranch_eq f k ((length_of_fetch hfetch).trans_le hlength) (narrow_int8 x)
  | longBranch =>
    refine bind_congr_of_eq rfl ?_
    intro x d hfetch
    exact readBranch_eq f k ((length_of_fetch hfetch).trans_le hlength) (narrow_int32 x)
  | switch => exact bind_congr_of_eq (readSwitch_eq f k hlength) fun _ _ _ => rfl
  | _ => rfl

theorem eq_of_recognize {value : UInt16} {found : Option Opcode} {o : Opcode}
    (h : recognize k value found c = .ok o d) : d = c := by
  cases found <;> cases h
  rfl

theorem length_of_readOpcode {o : Opcode} (h : readOpcode k c = .ok o d) :
    d.length = c.length := by
  obtain ⟨first, c', hfirst, h⟩ := bind_eq_ok h
  rw [← length_of_fetch hfirst]
  split at h
  · obtain ⟨second, c'', hsecond, h⟩ := bind_eq_ok h
    rw [eq_of_recognize h, length_of_fetch hsecond]
  · rw [eq_of_recognize h]

/-- An instruction is decoded without a fallback. -/
theorem instruction_eq (f : Fallbacks) (r : Resolver) (hlength : c.length ≤ maxLength) :
    instruction f r c = Decode.instruction r c := by
  rw [instruction, Decode.instruction, bind_of_ok (get_eq c), bind_of_ok (get_eq c)]
  refine bind_congr_of_eq rfl ?_
  intro o d ho
  have hd : d.length ≤ maxLength := (length_of_readOpcode ho).trans_le hlength
  exact bind_congr_of_eq (readOperand_eq f r c.pos o.operand hd) fun _ _ _ => rfl

theorem toInt_signedTarget {t : Nat} (f : Fallbacks) (h : t < 2 ^ 63) :
    (signedTarget f t).toInt = t := by
  rw [signedTarget, if_pos h, Int64.toInt_ofNat_of_lt h]

/-- A target is looked up in the set of all starts, and reported, as the number it is. -/
theorem find?_signedTarget {targets : List Nat} (f : Fallbacks) (k : Nat) (starts : OffsetSet)
    (h : ∀ t ∈ targets, t < 2 ^ 63) :
    ((targets.map (signedTarget f)).find? fun t => !starts.contains t.toInt).map
        (fun t => Error.invalidTarget k t.toInt) =
      (targets.find? fun t : Nat => !starts.contains t).map
        fun t : Nat => Error.invalidTarget k t := by
  induction targets with
  | nil => rfl
  | cons t targets ih =>
    have ht := toInt_signedTarget f (h t List.mem_cons_self)
    rw [List.map_cons, List.find?_cons, List.find?_cons, ht]
    cases starts.contains t with
    | false => simp only [Bool.not_false, Option.map_some, ht]
    | true => exact ih fun u hu => h u (List.mem_cons_of_mem t hu)

theorem strayTarget?_eq {length : Nat} {body : List Instruction} (f : Fallbacks)
    (h : ∀ i ∈ body, ∀ t ∈ i.branchTargets, t < 2 ^ 63) :
    strayTarget? f length body = Decode.strayTarget? length body := by
  rw [strayTarget?, Decode.strayTarget?]
  generalize OffsetSet.ofList length (body.map (·.offset)) = starts
  induction body with
  | nil => rfl
  | cons i body ih =>
    rw [List.findSome?_cons, List.findSome?_cons,
      find?_signedTarget f i.offset starts (h i List.mem_cons_self),
      ih fun j hj => h j (List.mem_cons_of_mem i hj)]

theorem length_startingAt (h : k ≤ bytes.length) :
    (Cursor.startingAt bytes k).length = bytes.length := by
  simp only [Cursor.length, Cursor.remaining, Cursor.startingAt, List.length_drop]
  omega

theorem instruction_startingAt_eq (f : Fallbacks) (r : Resolver) (k : Nat)
    (hbytes : bytes.length ≤ maxLength) :
    instruction f r (Cursor.startingAt bytes k) =
      Decode.instruction r (Cursor.startingAt bytes k) := by
  rcases Nat.le_total k bytes.length with hk | hk
  · exact instruction_eq f r ((length_startingAt hk).trans_le hbytes)
  · -- Behind the end there is not even an opcode.
    rw [Cursor.startingAt, List.drop_of_length_le hk]
    rfl

/-- The targets that decoding finds, up to the end or an error, all fit. -/
theorem target_lt_of_sweep {i : Instruction} {t : Nat} (hbytes : bytes.length ≤ maxLength)
    (hi : i ∈ (sweep r (Cursor.startingAt bytes k)).instructions) (ht : t ∈ i.branchTargets) :
    t < 2 ^ 63 := by
  have hmax : maxLength = 2 ^ 63 - 2 ^ 31 := rfl
  obtain ⟨stop, hrun⟩ := exists_run_sweep r (Cursor.startingAt bytes k)
  obtain ⟨d, hdecodes⟩ := hrun.instruction_at.2 i hi
  have hlt := (leadsTo_of_instruction hdecodes ht).lt
  omega

/-- A target is the exact sum of base and displacement, it is stored if it is not negative, and an
error carries it otherwise. In numbers of 64 bits that is what comes out as well, whatever would be
done where one does not fit. -/
theorem branch_arithmetic_exact (r : Resolver) (bytes : List UInt8) (k : Nat)
    (hbytes : bytes.length ≤ 2 ^ 63 - 2 ^ 31) :
    let c := Cursor.startingAt bytes k
    ExactTargets r bytes k ∧
      ∀ f : Fallbacks, instruction f r c = Decode.instruction r c ∧
        strayTarget? f c.length (sweep r c).instructions =
          Decode.strayTarget? c.length (sweep r c).instructions := by
  intro c
  refine ⟨exactTargets r bytes k, ?_⟩
  intro f
  refine ⟨instruction_startingAt_eq f r k hbytes, strayTarget?_eq f ?_⟩
  intro i hi t ht
  exact target_lt_of_sweep hbytes hi ht

/-- A branch as far ahead as a displacement goes. -/
def farAhead : List UInt8 := [0x38, 0xFF, 0xFF, 0xFF, 0x7F]

theorem instruction_farAhead (r : Resolver) :
    Decode.instruction r (Cursor.startingAt farAhead 0) =
      .ok ⟨0, 5, ⟨"br", 0x38, .longBranch, .branch⟩, .target 2147483652⟩
        (Cursor.startingAt farAhead 5) :=
  instruction_of_readOperand ⟨by decide +kernel, _, rfl⟩ rfl

theorem branch_arithmetic_exact_farAhead :
    let r := TokenTable.empty.resolver
    let c := Cursor.startingAt farAhead 0
    (∃ i, instruction .saturating r c = .ok i (Cursor.startingAt farAhead 5) ∧
      i.branchTargets = [2147483652]) ∧
    strayTarget? .saturating 5 (sweep r c).instructions = some (.invalidTarget 0 2147483652) := by
  intro r c
  obtain ⟨-, hword⟩ := branch_arithmetic_exact r farAhead 0 (by decide)
  obtain ⟨hinstruction, hstray⟩ := hword .saturating
  have hi := instruction_farAhead r
  refine ⟨⟨_, hinstruction.trans hi, rfl⟩, hstray.trans ?_⟩
  rw [sweep_of_ok hi, sweep_of_end rfl]
  decide

end Cil.Decode.Word
