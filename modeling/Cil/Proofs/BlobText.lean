import Mathlib
import Cil.Text

/-! The text of a blob can be read back, and no other text can be read. -/
namespace Cil.Text

variable {c : Char} {n : Nat} {b : UInt8} {bytes : List UInt8} {cs inside : List Char} {s : String}

section Digits

/-- The upper-case hexadecimal digit of a number below sixteen. -/
def upperDigit (n : Nat) : Char := (Nat.digitChar n).toUpper

theorem hexDigit?_upperDigit (hn : n < 16) : hexDigit? (upperDigit n) = some n := by
  have hall : ∀ n < 16, hexDigit? (upperDigit n) = some n := by decide
  exact hall n hn

theorem upperDigit_ne_space (hn : n < 16) : upperDigit n ≠ ' ' := by
  have hall : ∀ n < 16, upperDigit n ≠ ' ' := by decide
  exact hall n hn

theorem toNat_lt_of_hexDigit? (h : hexDigit? c = some n) : c.toNat < 71 := by
  unfold hexDigit? at h
  split at h
  next hdigit => exact Nat.lt_of_le_of_lt hdigit.2 (by decide)
  next =>
    split at h
    next hletter => exact Nat.lt_of_le_of_lt hletter.2 (by decide)
    next => cases h

/-- Only the digits that are written are read. -/
theorem eq_upperDigit_of_hexDigit? (h : hexDigit? c = some n) : n < 16 ∧ c = upperDigit n := by
  have hall : ∀ k < 71, ∀ n ∈ hexDigit? (Char.ofNat k), n < 16 ∧ Char.ofNat k = upperDigit n := by
    decide
  have hc := hall c.toNat (toNat_lt_of_hexDigit? h)
  rw [Char.ofNat_toNat] at hc
  exact hc n h

/-- The two digits of a byte. -/
def byteDigits (b : UInt8) : List Char := [upperDigit (b.toNat / 16), upperDigit (b.toNat % 16)]

theorem toList_hexUpper_byte (b : UInt8) : (hexUpper 2 b.toNat).toList = byteDigits b := by
  have hb := b.toNat_lt
  rw [hexUpper, zeroFill, String.toList_ofList]
  by_cases hsmall : b.toNat < 16
  · have hhigh : b.toNat / 16 = 0 := by omega
    have hlow : b.toNat % 16 = b.toNat := by omega
    rw [Nat.toDigits_of_lt_base hsmall, byteDigits, hhigh, hlow]
    rfl
  · have hhigh : b.toNat / 16 < 16 := by omega
    rw [Nat.toDigits_of_base_le (by decide) (by omega), Nat.toDigits_of_lt_base hhigh]
    rfl

theorem readByte?_byteDigits (b : UInt8) : readByte? (byteDigits b) = some b := by
  have hb := b.toNat_lt
  have hhigh : hexDigit? (upperDigit (b.toNat / 16)) = some (b.toNat / 16) :=
    hexDigit?_upperDigit (by omega)
  have hlow : hexDigit? (upperDigit (b.toNat % 16)) = some (b.toNat % 16) :=
    hexDigit?_upperDigit (by omega)
  have hvalue : 16 * (b.toNat / 16) + b.toNat % 16 = b.toNat := by omega
  rw [byteDigits, readByte?, hhigh, hlow]
  show some (UInt8.ofNat (16 * (b.toNat / 16) + b.toNat % 16)) = some b
  rw [hvalue, UInt8.ofNat_toNat]

theorem readByte?_eq_some_iff : readByte? cs = some b ↔ cs = byteDigits b := by
  constructor
  · intro h
    unfold readByte? at h
    split at h
    next high low =>
      simp only [Option.pure_def, Option.bind_eq_bind, Option.bind_eq_some_iff,
        Option.some.injEq] at h
      obtain ⟨x, hx, y, hy, rfl⟩ := h
      obtain ⟨hx, rfl⟩ := eq_upperDigit_of_hexDigit? hx
      obtain ⟨hy, rfl⟩ := eq_upperDigit_of_hexDigit? hy
      have hvalue : (UInt8.ofNat (16 * x + y)).toNat = 16 * x + y := by
        rw [UInt8.toNat_ofNat']
        omega
      have hhigh : (16 * x + y) / 16 = x := by omega
      have hlow : (16 * x + y) % 16 = y := by omega
      rw [byteDigits, hvalue, hhigh, hlow]
    next => cases h
  · rintro rfl
    exact readByte?_byteDigits b

theorem space_notMem_byteDigits (b : UInt8) : ' ' ∉ byteDigits b := by
  have hb := b.toNat_lt
  have hhigh : upperDigit (b.toNat / 16) ≠ ' ' := upperDigit_ne_space (by omega)
  have hlow : upperDigit (b.toNat % 16) ≠ ' ' := upperDigit_ne_space (by omega)
  simp [byteDigits, hhigh.symm, hlow.symm]

theorem mapM_readByte?_eq_some_iff {pieces : List (List Char)} :
    pieces.mapM readByte? = some bytes ↔ pieces = bytes.map byteDigits := by
  induction pieces generalizing bytes with
  | nil => cases bytes <;> simp
  | cons piece pieces ih =>
    cases bytes with
    | nil => simp [Option.bind_eq_some_iff]
    | cons b bytes => simp [Option.bind_eq_some_iff, readByte?_eq_some_iff, ih]

end Digits

section Spacing

/-- The digits of the bytes, with a space between neighbours. -/
def spacedDigits (bytes : List UInt8) : List Char := [' '].intercalate (bytes.map byteDigits)

/-- A space goes in front of each byte but the first. -/
theorem spacedDigits_cons (b : UInt8) (bytes : List UInt8) :
    spacedDigits (b :: bytes) = byteDigits b ++ bytes.flatMap fun b => ' ' :: byteDigits b := by
  induction bytes generalizing b with
  | nil => simp [spacedDigits]
  | cons b' bytes ih =>
    have hjoin : spacedDigits (b :: b' :: bytes) =
        byteDigits b ++ ' ' :: spacedDigits (b' :: bytes) := by
      simp [spacedDigits, List.intercalate_cons_cons]
    rw [hjoin, ih, List.flatMap_cons, List.cons_append]

theorem toList_blob (bytes : List UInt8) :
    (blob bytes).toList = '(' :: spacedDigits bytes ++ [')'] := by
  have hdigits : (bytes.map fun b => hexUpper 2 b.toNat).map String.toList =
      bytes.map byteDigits := by
    simp [toList_hexUpper_byte]
  rw [blob, String.toList_append, String.toList_append, String.toList_intercalate, hdigits]
  rfl

theorem length_spacedDigits (b : UInt8) (bytes : List UInt8) :
    (spacedDigits (b :: bytes)).length = 3 * bytes.length + 2 := by
  rw [spacedDigits_cons]
  induction bytes with
  | nil => rfl
  | cons b' bytes ih =>
    simp only [List.flatMap_cons, List.length_append, List.length_cons] at ih ⊢
    have hbyte : (byteDigits b').length = 2 := rfl
    omega

theorem length_blob (bytes : List UInt8) :
    (blob bytes).length = if bytes = [] then 2 else 3 * bytes.length + 1 := by
  rw [← String.length_toList, toList_blob, List.length_append, List.length_cons]
  cases bytes with
  | nil => rfl
  | cons b bytes =>
    rw [length_spacedDigits, if_neg (List.cons_ne_nil b bytes)]
    simp only [List.length_cons, List.length_nil]
    omega

theorem spacedDigits_eq_nil_iff : spacedDigits bytes = [] ↔ bytes = [] := by
  cases bytes with
  | nil => simp [spacedDigits]
  | cons b bytes => simp [spacedDigits_cons, byteDigits]

/-- Splitting at spaces takes bytes apart in the one way they can be put together. -/
theorem splitOn_eq_map_iff (hbytes : bytes ≠ []) :
    inside.splitOn ' ' = bytes.map byteDigits ↔ inside = spacedDigits bytes := by
  constructor
  · intro h
    rw [spacedDigits, ← h, List.intercalate_splitOn]
  · rintro rfl
    apply List.splitOn_intercalate
    · intro piece hpiece
      obtain ⟨b, -, rfl⟩ := List.mem_map.mp hpiece
      exact space_notMem_byteDigits b
    · simpa using hbytes

end Spacing

section Reading

theorem stripParentheses?_eq_some_iff :
    stripParentheses? cs = some inside ↔ cs = '(' :: inside ++ [')'] := by
  constructor
  · intro h
    unfold stripParentheses? at h
    split at h
    next rest =>
      split at h
      next hlast =>
        obtain ⟨front, rfl⟩ := List.getLast?_eq_some_iff.mp hlast
        simp only [List.dropLast_concat, Option.some.injEq] at h
        rw [h, List.cons_append]
      next => cases h
    next => cases h
  · rintro rfl
    simp [stripParentheses?]

theorem readSpaced?_eq_some_iff : readSpaced? cs = some bytes ↔ cs = spacedDigits bytes := by
  unfold readSpaced?
  -- no bytes and no characters belong together; splitting would make one empty piece of the latter
  by_cases hbytes : bytes = []
  · subst hbytes
    have hempty : spacedDigits [] = [] := rfl
    rw [hempty]
    split
    next hcs => simp [hcs]
    next hcs => simp [mapM_readByte?_eq_some_iff, hcs]
  · have hdigits : spacedDigits bytes ≠ [] := mt spacedDigits_eq_nil_iff.mp hbytes
    split
    next hcs => simp [hcs, hdigits.symm, Ne.symm hbytes]
    next => rw [mapM_readByte?_eq_some_iff, splitOn_eq_map_iff hbytes]

theorem readBlob?_eq_some_iff : readBlob? s = some bytes ↔ s = blob bytes := by
  rw [readBlob?, Option.bind_eq_some_iff, ← String.toList_inj, toList_blob]
  constructor
  · rintro ⟨inside, hstrip, hread⟩
    rw [stripParentheses?_eq_some_iff.mp hstrip, readSpaced?_eq_some_iff.mp hread]
  · intro h
    exact ⟨_, stripParentheses?_eq_some_iff.mpr h, readSpaced?_eq_some_iff.mpr rfl⟩

/-- Digits in lower case are not read. -/
example : readBlob? "(01 FF)" = some [0x01, 0xFF] ∧ readBlob? "(01 fF)" = none := by decide

end Reading

section Writing

/-- Writes the byte with number `i` behind what has been written. -/
def writeByte (out : String) (b : UInt8) (i : Nat) : String :=
  (if i = 0 then out else out ++ " ") ++ hexUpper 2 b.toNat

/-- Writes a blob byte by byte. -/
def writeBlob (bytes : List UInt8) : String :=
  bytes.zipIdx.foldl (fun out (b, i) => writeByte out b i) "(" ++ ")"

theorem toList_foldl_writeByte (out : String) (bytes : List UInt8) (i : Nat) :
    ((bytes.zipIdx (i + 1)).foldl (fun out (b, i) => writeByte out b i) out).toList =
      out.toList ++ bytes.flatMap fun b => ' ' :: byteDigits b := by
  induction bytes generalizing out i with
  | nil => simp
  | cons b bytes ih =>
    have hbyte : (writeByte out b (i + 1)).toList = out.toList ++ ' ' :: byteDigits b := by
      simp [writeByte, toList_hexUpper_byte]
    rw [List.zipIdx_cons, List.foldl_cons, ih, hbyte, List.flatMap_cons, List.append_assoc]

theorem writeBlob_eq_blob (bytes : List UInt8) : writeBlob bytes = blob bytes := by
  rw [← String.toList_inj, toList_blob, writeBlob, String.toList_append]
  cases bytes with
  | nil => rfl
  | cons b bytes =>
    have hfirst : (writeByte "(" b 0).toList = '(' :: byteDigits b := by
      simp [writeByte, toList_hexUpper_byte]
    rw [List.zipIdx_cons, List.foldl_cons, toList_foldl_writeByte, hfirst, spacedDigits_cons]
    rfl

end Writing

/-- The text of a blob determines it: stripping the parentheses, splitting at spaces and reading
each piece as two digits gives the bytes back, and succeeds for no other text. Written byte by byte
or at once, it has two characters if there are no bytes, and otherwise three for each and one
more. -/
theorem blob_lossless :
    (∀ s bytes, readBlob? s = some bytes ↔ s = blob bytes) ∧ Function.Injective blob ∧
      ∀ bytes, writeBlob bytes = blob bytes ∧
        (blob bytes).length = if bytes = [] then 2 else 3 * bytes.length + 1 := by
  refine ⟨?_, ?_, ?_⟩
  · intro s bytes
    exact readBlob?_eq_some_iff
  · intro bytes bytes' h
    have hread : readBlob? (blob bytes') = some bytes := readBlob?_eq_some_iff.mpr h.symm
    rw [readBlob?_eq_some_iff.mpr rfl] at hread
    exact (Option.some.inj hread).symm
  · intro bytes
    exact ⟨writeBlob_eq_blob bytes, length_blob bytes⟩

end Cil.Text
