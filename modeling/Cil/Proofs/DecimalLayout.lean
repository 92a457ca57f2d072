import Mathlib
import Cil.Proofs.Numeral
import Cil.Number.Shortest

/-! Decimal numbers keep their value when they are written out: the text of a number, read as a
numeral, is the number again, wherever the point has moved to. -/
namespace Cil

variable {negative : Bool} {whole fraction tail digits rest : List Char} {e : ℤ} {n : Nat}

section Reading

/-- The number `±digits * 10 ^ e`. -/
def decimalValue (negative : Bool) (digits : List Char) (e : ℤ) : ℚ :=
  (if negative then -1 else 1) * (Nat.ofDigitChars 10 digits 0 : ℚ) * 10 ^ e

/-- One digit or more, and what follows them. -/
def readDigits? (cs : List Char) : Option (List Char × List Char) :=
  if cs.takeWhile Char.isDigit = [] then none
  else some (cs.takeWhile Char.isDigit, cs.dropWhile Char.isDigit)

/-- A point and the digits behind it, if there is one, and what follows. -/
def readFraction? : List Char → Option (List Char × List Char)
  | '.' :: cs => readDigits? cs
  | cs => some ([], cs)

/-- Digits up to the end of the text. -/
def readNatural? (cs : List Char) : Option Nat :=
  if cs ≠ [] ∧ ∀ c ∈ cs, c.isDigit = true then some (Nat.ofDigitChars 10 cs 0) else none

/-- Digits up to the end of the text, after a sign or not. -/
def readSigned? : List Char → Option ℤ
  | '-' :: cs => (readNatural? cs).map fun n : Nat => -(n : ℤ)
  | '+' :: cs => (readNatural? cs).map fun n : Nat => (n : ℤ)
  | cs => (readNatural? cs).map fun n : Nat => (n : ℤ)

/-- The exponent at the end of a numeral, zero if there is none. -/
def readExponent? : List Char → Option ℤ
  | [] => some 0
  | c :: cs => if c = 'e' ∨ c = 'E' then readSigned? cs else none

def readMagnitude? (negative : Bool) (cs : List Char) : Option (Bool × ℚ) := do
  let (whole, cs) ← readDigits? cs
  let (fraction, cs) ← readFraction? cs
  let e ← readExponent? cs
  return (negative, decimalValue negative (whole ++ fraction) (e - fraction.length))

/-- Reads a decimal numeral with an optional exponent: whether it has a minus sign, and its
value. The sign counts on its own, since zero may have one. -/
def readDecimal? : List Char → Option (Bool × ℚ)
  | '-' :: cs => readMagnitude? true cs
  | cs => readMagnitude? false cs

/-- What follows a run of digits without continuing it. -/
def EndsDigits (rest : List Char) : Prop := ∀ c ∈ rest.head?, c.isDigit = false

theorem readDigits?_append (hne : digits ≠ []) (hdigits : ∀ c ∈ digits, c.isDigit = true)
    (hrest : EndsDigits rest) : readDigits? (digits ++ rest) = some (digits, rest) := by
  have htake : rest.takeWhile Char.isDigit = [] := by
    cases rest with
    | nil => rfl
    | cons c rest => simp [hrest c rfl]
  have hdrop : rest.dropWhile Char.isDigit = rest := by
    cases rest with
    | nil => rfl
    | cons c rest => simp [hrest c rfl]
  rw [readDigits?, List.takeWhile_append_of_pos hdigits, List.dropWhile_append_of_pos hdigits,
    htake, hdrop, List.append_nil, if_neg hne]

/-- The point of a numeral and the digits behind it. No digits, no point. -/
def pointPart (fraction : List Char) : List Char :=
  if fraction = [] then [] else '.' :: fraction

theorem readFraction?_append (hdigits : ∀ c ∈ fraction, c.isDigit = true)
    (hrest : EndsDigits rest) (hpoint : rest.head? ≠ some '.') :
    readFraction? (pointPart fraction ++ rest) = some (fraction, rest) := by
  by_cases hnone : fraction = []
  · subst hnone
    rw [pointPart, if_pos rfl, List.nil_append]
    unfold readFraction?
    split
    · exact absurd rfl hpoint
    · rfl
  · rw [pointPart, if_neg hnone]
    exact readDigits?_append hnone hdigits hrest

theorem readNatural?_of_digits (hne : digits ≠ []) (hdigits : ∀ c ∈ digits, c.isDigit = true) :
    readNatural? digits = some (Nat.ofDigitChars 10 digits 0) :=
  if_pos ⟨hne, hdigits⟩

theorem ne_of_isDigit {c d : Char} (hc : c.isDigit = true) (hd : d.isDigit = false) : c ≠ d := by
  rintro rfl
  exact Bool.noConfusion (hc.symm.trans hd)

theorem readSigned?_of_digits (hne : digits ≠ []) (hdigits : ∀ c ∈ digits, c.isDigit = true) :
    readSigned? digits = some (Nat.ofDigitChars 10 digits 0 : ℤ) := by
  have hnatural := readNatural?_of_digits hne hdigits
  unfold readSigned?
  split
  · exact absurd (hdigits '-' List.mem_cons_self) (by decide)
  · exact absurd (hdigits '+' List.mem_cons_self) (by decide)
  · rw [hnatural]
    rfl

/-- The characters of a minus sign, or none. -/
def minusPart (negative : Bool) : List Char := if negative then ['-'] else []

/-- An exponent that is written with a sign only if it is negative. -/
theorem readSigned?_minusPart (hne : digits ≠ []) (hdigits : ∀ c ∈ digits, c.isDigit = true) :
    readSigned? (minusPart negative ++ digits) =
      some (if negative then -(Nat.ofDigitChars 10 digits 0 : ℤ)
        else (Nat.ofDigitChars 10 digits 0 : ℤ)) := by
  cases negative with
  | false => exact readSigned?_of_digits hne hdigits
  | true =>
    have hnatural := readNatural?_of_digits hne hdigits
    simp [minusPart, readSigned?, hnatural]

/-- A numeral is read as its digits and the place of its point say. -/
theorem readDecimal?_numeral (negative : Bool) (hne : whole ≠ [])
    (hwhole : ∀ c ∈ whole, c.isDigit = true) (hfraction : ∀ c ∈ fraction, c.isDigit = true)
    (htail : readExponent? tail = some e) :
    readDecimal? (minusPart negative ++ (whole ++ (pointPart fraction ++ tail))) =
      some (negative, decimalValue negative (whole ++ fraction) (e - fraction.length)) := by
  -- a tail that reads as an exponent is empty or starts with the letter, so no digit run goes on
  have hend : EndsDigits tail ∧ tail.head? ≠ some '.' := by
    cases tail with
    | nil => exact ⟨by simp [EndsDigits], by simp⟩
    | cons c tail =>
      have hc : c = 'e' ∨ c = 'E' := by
        by_contra hc
        simp [readExponent?, hc] at htail
      rcases hc with rfl | rfl <;> simp [EndsDigits]
  have hpoint : EndsDigits (pointPart fraction ++ tail) := by
    by_cases hnone : fraction = []
    · simpa [pointPart, hnone] using hend.1
    · intro c hc
      obtain rfl : '.' = c := by simpa [pointPart, hnone] using hc
      rfl
  have hmagnitude : readMagnitude? negative (whole ++ (pointPart fraction ++ tail)) =
      some (negative, decimalValue negative (whole ++ fraction) (e - fraction.length)) := by
    simp [readMagnitude?, readDigits?_append hne hwhole hpoint,
      readFraction?_append hfraction hend.1 hend.2, htail]
  cases negative with
  | true => exact hmagnitude
  | false =>
    rw [minusPart, if_neg Bool.false_ne_true, List.nil_append]
    unfold readDecimal?
    split
    -- without a sign the first character is a digit and not the minus the reader looks for
    case h_1 heq =>
      cases whole with
      | nil => exact absurd rfl hne
      | cons c whole =>
        have hc := hwhole c List.mem_cons_self
        exact absurd (List.cons.inj heq).1 (ne_of_isDigit hc (by decide))
    case h_2 => exact hmagnitude

end Reading

section Values

theorem decimalValue_leadingZeros (negative : Bool) (n : Nat) (digits : List Char) (e : ℤ) :
    decimalValue negative (List.replicate n '0' ++ digits) e = decimalValue negative digits e := by
  rw [decimalValue, Nat.ofDigitChars_append, Nat.ofDigitChars_replicate_zero, Nat.mul_zero,
    decimalValue]

theorem decimalValue_trailingZeros (negative : Bool) (digits : List Char) (n : Nat) (e : ℤ) :
    decimalValue negative (digits ++ List.replicate n '0') e =
      decimalValue negative digits (e + n) := by
  have hshift : (10 : ℚ) ^ (e + n) = 10 ^ n * 10 ^ e := by
    rw [zpow_add₀ (by norm_num), zpow_natCast, mul_comm]
  rw [decimalValue, Nat.ofDigitChars_append, Nat.ofDigitChars_replicate_zero, decimalValue, hshift]
  push_cast
  ring

end Values

section Forms

/-- An optional minus sign, at least one digit, and a point only in front of further digits. -/
def IsPlain (cs : List Char) : Prop :=
  ∃ negative whole fraction, cs = minusPart negative ++ (whole ++ pointPart fraction) ∧
    whole ≠ [] ∧ (∀ c ∈ whole, c.isDigit = true) ∧ ∀ c ∈ fraction, c.isDigit = true

/-- The letter `E`, a sign and at least two digits. -/
def IsExponentPart (cs : List Char) : Prop :=
  ∃ sign exponent, cs = 'E' :: sign :: exponent ∧ (sign = '+' ∨ sign = '-') ∧
    2 ≤ exponent.length ∧ ∀ c ∈ exponent, c.isDigit = true

/-- A plain numeral with an exponent behind it. -/
def IsExponential (cs : List Char) : Prop :=
  ∃ front tail, cs = front ++ tail ∧ IsPlain front ∧ IsExponentPart tail

theorem IsPlain.char_cases {cs : List Char} (h : IsPlain cs) {c : Char} (hc : c ∈ cs) :
    c = '-' ∨ c = '.' ∨ c.isDigit = true := by
  obtain ⟨negative, whole, fraction, rfl, -, hwhole, hfraction⟩ := h
  simp only [minusPart, pointPart, List.mem_append] at hc
  rcases hc with hminus | hc | hpoint
  · cases negative with
    | false => cases hminus
    | true => exact .inl (List.mem_singleton.mp hminus)
  · exact .inr (.inr (hwhole c hc))
  · by_cases hnone : fraction = []
    · simp [hnone] at hpoint
    · rw [if_neg hnone, List.mem_cons] at hpoint
      rcases hpoint with rfl | hc
      · exact .inr (.inl rfl)
      · exact .inr (.inr (hfraction c hc))

theorem IsPlain.notMem {cs : List Char} (h : IsPlain cs) {c : Char} (hc : c = 'e' ∨ c = 'E') :
    c ∉ cs := by
  intro hmem
  have hcases := h.char_cases hmem
  rcases hc with rfl | rfl <;> exact absurd hcases (by decide)

theorem IsExponential.mem {cs : List Char} (h : IsExponential cs) : 'E' ∈ cs := by
  obtain ⟨front, tail, rfl, -, sign, exponent, rfl, -⟩ := h
  simp

theorem filter_minusPart (negative : Bool) : (minusPart negative).filter Char.isDigit = [] := by
  cases negative <;> decide

theorem filter_pointPart (h : ∀ c ∈ fraction, c.isDigit = true) :
    (pointPart fraction).filter Char.isDigit = fraction := by
  unfold pointPart
  split
  next hnone => rw [hnone, List.filter_nil]
  next => rw [List.filter_cons_of_neg (by decide), List.filter_eq_self.mpr h]

end Forms

namespace Scientific

variable {x : Scientific} {places : Nat}

/-- The digits of `x` stand in `whole` and `fraction`, zeros apart, and the point and the exponent
`e` behind them make up for the exponent of `x`. -/
structure Placed (x : Scientific) (whole fraction : List Char) (e : ℤ) : Prop where
  ne_nil : whole ≠ []
  digits : ∃ front back, whole ++ fraction =
      List.replicate front '0' ++ (x.digits ++ List.replicate back '0') ∧
    e - fraction.length + back = x.exponent - x.fraction.length

theorem Placed.value (h : x.Placed whole fraction e) :
    decimalValue x.negative (whole ++ fraction) (e - fraction.length) =
      decimalValue x.negative x.digits (x.exponent - x.fraction.length) := by
  obtain ⟨front, back, hdigits, hexponent⟩ := h.digits
  rw [hdigits, decimalValue_leadingZeros, decimalValue_trailingZeros, hexponent]

theorem Placed.isDigit (h : x.Placed whole fraction e) (hx : ∀ c ∈ x.digits, c.isDigit = true) :
    ∀ c ∈ whole ++ fraction, c.isDigit = true := by
  obtain ⟨front, back, hdigits, -⟩ := h.digits
  have hzeros : ∀ n, ∀ c ∈ List.replicate n '0', c.isDigit = true := by
    intro n c hc
    rw [List.eq_of_mem_replicate hc]
    rfl
  rw [hdigits]
  simp only [List.forall_mem_append]
  exact ⟨hzeros front, hx, hzeros back⟩

theorem pointed_eq (n : Nat) (digits : List Char) :
    pointed n digits = digits.take n ++ pointPart (digits.drop n) := by
  unfold pointed pointPart
  by_cases h : n < digits.length
  · have hdrop : digits.drop n ≠ [] := by simpa using h
    rw [if_pos h, if_neg hdrop]
  · have hdrop : digits.drop n = [] := by simpa using h
    rw [if_neg h, if_pos hdrop, List.take_of_length_le (Nat.le_of_not_lt h), List.append_nil]

theorem toList_exponential (x : Scientific) : x.exponential.toList =
    minusPart x.negative ++ ([x.lead] ++ (pointPart x.fraction ++
      'E' :: (if x.exponent < 0 then '-' else '+') ::
        (Text.decimal 2 x.exponent.natAbs).toList)) := by
  simp [exponential, pointed_eq, digits, sign, minusPart]

theorem placed_exponential (x : Scientific) : x.Placed [x.lead] x.fraction x.exponent where
  ne_nil := by simp
  digits := ⟨0, 0, by simp [digits], by simp⟩

/-- Everything that a positional text can be: its digits are behind the point, on both sides of it
or in front of it. -/
theorem positional_cases (x : Scientific) :
    (x.exponent < 0 ∧ x.positional.toList = minusPart x.negative ++
        '0' :: '.' :: (List.replicate (x.exponent.natAbs - 1) '0' ++ x.digits)) ∨
      (¬ x.exponent < 0 ∧ x.exponent.natAbs + 1 < x.digits.length ∧
        x.positional.toList = minusPart x.negative ++ (x.digits.take (x.exponent.natAbs + 1) ++
          '.' :: x.digits.drop (x.exponent.natAbs + 1))) ∨
      (¬ x.exponent < 0 ∧ x.digits.length ≤ x.exponent.natAbs + 1 ∧
        x.positional.toList = minusPart x.negative ++ (x.digits ++
          List.replicate (x.exponent.natAbs + 1 - x.digits.length) '0')) := by
  by_cases hneg : x.exponent < 0
  · left
    simp [positional, hneg, sign, minusPart]
  · right
    by_cases hlong : x.exponent.natAbs + 1 < x.digits.length
    · left
      have hnone : x.exponent.natAbs + 1 - x.digits.length = 0 := by omega
      simp [positional, hneg, sign, minusPart, pointed, hlong, hnone]
    · right
      have hshort : x.digits.length ≤ x.exponent.natAbs + 1 := Nat.le_of_not_lt hlong
      simp [positional, hneg, sign, minusPart, pointed, hlong, hshort]

/-- Where the digits of a positional text stand. -/
theorem exists_placed_positional (x : Scientific) : ∃ whole fraction,
    x.positional.toList = minusPart x.negative ++ (whole ++ pointPart fraction) ∧
      x.Placed whole fraction 0 := by
  have hlength : x.digits.length = x.fraction.length + 1 := rfl
  rcases x.positional_cases with ⟨hneg, htext⟩ | ⟨hneg, hlong, htext⟩ | ⟨hneg, hshort, htext⟩
  · refine ⟨['0'], List.replicate (x.exponent.natAbs - 1) '0' ++ x.digits, ?_, by simp,
      x.exponent.natAbs, 0, ?_, ?_⟩
    · rw [htext]
      simp [pointPart, digits]
    · have hzeros : List.replicate x.exponent.natAbs '0' =
          '0' :: List.replicate (x.exponent.natAbs - 1) '0' := by
        rw [← List.replicate_succ]
        congr 1
        omega
      simp [hzeros]
    · rw [List.length_append, List.length_replicate, hlength]
      omega
  · have hfraction : x.digits.drop (x.exponent.natAbs + 1) ≠ [] := by simpa using hlong
    refine ⟨x.digits.take (x.exponent.natAbs + 1), x.digits.drop (x.exponent.natAbs + 1), ?_,
      by simp [digits], 0, 0, by simp, ?_⟩
    · rw [htext, pointPart, if_neg hfraction]
    · rw [hlength] at hlong
      rw [List.length_drop, hlength]
      omega
  · refine ⟨x.digits ++ List.replicate (x.exponent.natAbs + 1 - x.digits.length) '0', [], ?_,
      by simp [digits], 0, x.exponent.natAbs + 1 - x.digits.length, by simp, ?_⟩
    · rw [htext, pointPart, if_pos rfl, List.append_nil]
    · rw [hlength] at hshort
      rw [List.length_nil, hlength]
      omega

end Scientific

/-- A decimal number as `[-]d[.d…]e[-]x`: one digit in front of the point, a point only in front of
further digits, and an exponent. -/
structure Spelling where
  negative : Bool
  lead : Char
  fraction : List Char
  exponentNegative : Bool
  exponentDigits : List Char
  lead_isDigit : lead.isDigit = true
  fraction_isDigit : ∀ c ∈ fraction, c.isDigit = true
  exponentDigits_isDigit : ∀ c ∈ exponentDigits, c.isDigit = true
  exponentDigits_ne_nil : exponentDigits ≠ []

namespace Spelling

def exponent (s : Spelling) : ℤ :=
  if s.exponentNegative then -(Nat.ofDigitChars 10 s.exponentDigits 0 : ℤ)
  else (Nat.ofDigitChars 10 s.exponentDigits 0 : ℤ)

/-- The number that is spelled. -/
def number (s : Spelling) : Scientific := ⟨s.negative, s.lead, s.fraction, s.exponent⟩

/-- The characters in front of the exponent. -/
def mantissa (s : Spelling) : List Char :=
  minusPart s.negative ++ ([s.lead] ++ pointPart s.fraction)

def text (s : Spelling) : List Char :=
  s.mantissa ++ 'e' :: (minusPart s.exponentNegative ++ s.exponentDigits)

theorem isDigit_of_mem_digits (s : Spelling) : ∀ c ∈ s.number.digits, c.isDigit = true := by
  rw [Scientific.digits, List.forall_mem_cons]
  exact ⟨s.lead_isDigit, s.fraction_isDigit⟩

theorem readSigned?_exponent (s : Spelling) :
    readSigned? (minusPart s.exponentNegative ++ s.exponentDigits) = some s.exponent :=
  readSigned?_minusPart s.exponentDigits_ne_nil s.exponentDigits_isDigit

theorem readDecimal?_text (s : Spelling) : readDecimal? s.text = some (s.negative,
    decimalValue s.negative s.number.digits (s.exponent - s.fraction.length)) := by
  have htail : readExponent? ('e' :: (minusPart s.exponentNegative ++ s.exponentDigits)) =
      some s.exponent := by
    rw [readExponent?, if_pos (.inl rfl), readSigned?_exponent]
  have hread := readDecimal?_numeral s.negative (List.cons_ne_nil s.lead [])
    (by simpa using s.lead_isDigit) s.fraction_isDigit htail
  simpa [text, mantissa, number, Scientific.digits] using hread

end Spelling

section Checked

/-- The first `n` characters and the others, if there are as many. -/
def cut? (n : Nat) (cs : List Char) : Option (List Char × List Char) :=
  if n ≤ cs.length then some (cs.splitAt n) else none

/-- Puts the point behind the digit of the given exponent. Every cut and every subtraction is
checked. -/
def placePoint? (exponent : ℤ) (digits : List Char) : Option (List Char) :=
  if exponent < 0 then
    (Nat.psub exponent.natAbs 1).map fun zeros =>
      '0' :: '.' :: (List.replicate zeros '0' ++ digits)
  else if exponent.natAbs + 1 < digits.length then
    (cut? (exponent.natAbs + 1) digits).map fun (whole, fraction) => whole ++ '.' :: fraction
  else
    (Nat.psub (exponent.natAbs + 1) digits.length).map fun zeros =>
      digits ++ List.replicate zeros '0'

/-- The layout of a number, straight from the characters of its spelling. -/
def layOut? (places : Nat) (spelling : List Char) : Option (List Char) :=
  let mantissa := spelling.takeWhile (· ≠ 'e')
  (readSigned? (spelling.drop (mantissa.length + 1))).bind fun exponent =>
    if places ≤ exponent ∨ exponent < -4 then
      some (mantissa ++ 'E' :: (if exponent < 0 then '-' else '+') ::
        (Text.decimal 2 exponent.natAbs).toList)
    else
      (placePoint? exponent (mantissa.filter Char.isDigit)).map fun placed =>
        minusPart (mantissa.head? = some '-') ++ placed

theorem cut?_of_le {cs : List Char} (h : n ≤ cs.length) :
    cut? n cs = some (cs.take n, cs.drop n) := by
  rw [cut?, if_pos h, List.splitAt_eq]

/-- No cut and no subtraction fails, and the text is the positional one. -/
theorem Scientific.placePoint?_digits (x : Scientific) : ∃ placed,
    placePoint? x.exponent x.digits = some placed ∧
      x.positional.toList = minusPart x.negative ++ placed := by
  unfold placePoint?
  rcases x.positional_cases with ⟨hneg, htext⟩ | ⟨hneg, hlong, htext⟩ | ⟨hneg, hshort, htext⟩
  · have hsub : 1 ≤ x.exponent.natAbs := by omega
    refine ⟨_, ?_, htext⟩
    rw [if_pos hneg, Nat.psub_eq_sub hsub, Option.map_some]
  · refine ⟨_, ?_, htext⟩
    rw [if_neg hneg, if_pos hlong, cut?_of_le hlong.le, Option.map_some]
  · refine ⟨_, ?_, htext⟩
    rw [if_neg hneg, if_neg (Nat.not_lt.mpr hshort), Nat.psub_eq_sub hshort, Option.map_some]

namespace Spelling

theorem filter_isDigit_mantissa (s : Spelling) :
    s.mantissa.filter Char.isDigit = s.number.digits := by
  rw [mantissa, List.filter_append, List.filter_append, filter_minusPart,
    filter_pointPart s.fraction_isDigit]
  simp [s.lead_isDigit, number, Scientific.digits]

theorem head?_mantissa (s : Spelling) :
    decide (s.mantissa.head? = some '-') = s.negative := by
  cases hneg : s.negative with
  | true => simp [mantissa, hneg, minusPart]
  | false =>
    have hlead : s.lead ≠ '-' := ne_of_isDigit s.lead_isDigit (by decide)
    simp [mantissa, hneg, minusPart, hlead]

theorem isPlain_mantissa (s : Spelling) : IsPlain s.mantissa :=
  ⟨s.negative, [s.lead], s.fraction, rfl, List.cons_ne_nil s.lead [],
    by simpa using s.lead_isDigit, s.fraction_isDigit⟩

theorem takeWhile_text (s : Spelling) : s.text.takeWhile (· ≠ 'e') = s.mantissa := by
  have hmantissa : ∀ c ∈ s.mantissa, decide (c ≠ 'e') = true := by
    intro c hc
    rw [decide_eq_true_eq]
    rintro rfl
    exact s.isPlain_mantissa.notMem (.inl rfl) hc
  rw [text, List.takeWhile_append_of_pos hmantissa]
  simp

theorem layOut?_text (s : Spelling) (places : Nat) :
    layOut? places s.text = some (s.number.text places).toList := by
  have hdrop : s.text.drop (s.mantissa.length + 1) =
      minusPart s.exponentNegative ++ s.exponentDigits := by simp [text]
  have hexponent : s.number.exponent = s.exponent := rfl
  rw [layOut?, takeWhile_text, hdrop, readSigned?_exponent, Option.bind_some, Scientific.text,
    hexponent]
  split
  · rw [Scientific.toList_exponential, mantissa, List.append_assoc, List.append_assoc]
    rfl
  · obtain ⟨placed, hplaced, htext⟩ := s.number.placePoint?_digits
    rw [filter_isDigit_mantissa, ← hexponent, hplaced, htext, head?_mantissa]
    rfl

end Spelling

end Checked

section Preserved

variable {x : Scientific} {places : Nat}

theorem readExponent?_exponential (z : ℤ) : readExponent? ('E' :: (if z < 0 then '-' else '+') ::
    (Text.decimal 2 z.natAbs).toList) = some z := by
  have hne : (Text.decimal 2 z.natAbs).toList ≠ [] := by
    simp [Text.toList_decimal, Nat.toDigits_ne_nil]
  have hnatural : readNatural? (Text.decimal 2 z.natAbs).toList = some z.natAbs := by
    rw [readNatural?_of_digits hne fun c => Text.isDigit_of_mem_decimal,
      Text.ofDigitChars_decimal]
  rw [readExponent?, if_pos (.inr rfl)]
  by_cases hneg : z < 0
  · rw [if_pos hneg, readSigned?, hnatural, Option.map_some]
    congr 1
    omega
  · rw [if_neg hneg, readSigned?, hnatural, Option.map_some]
    congr 1
    omega

theorem isExponentPart_exponential (z : ℤ) : IsExponentPart ('E' ::
    (if z < 0 then '-' else '+') :: (Text.decimal 2 z.natAbs).toList) := by
  refine ⟨_, _, rfl, ?_, ?_, fun c => Text.isDigit_of_mem_decimal⟩
  · by_cases hneg : z < 0
    · exact .inr (if_pos hneg)
    · exact .inl (if_neg hneg)
  · rw [Text.toList_decimal, List.length_append, List.length_replicate]
    omega

/-- Every text of a number is a numeral with its digits in their places, and with an exponent
behind them or not. -/
theorem Scientific.exists_placed (x : Scientific) (places : Nat) : ∃ whole fraction tail e,
    (x.text places).toList = minusPart x.negative ++ (whole ++ (pointPart fraction ++ tail)) ∧
      x.Placed whole fraction e ∧ readExponent? tail = some e ∧
      (((places ≤ x.exponent ∨ x.exponent < -4) ∧ IsExponentPart tail) ∨
        (¬ (places ≤ x.exponent ∨ x.exponent < -4) ∧ tail = [])) := by
  by_cases hform : places ≤ x.exponent ∨ x.exponent < -4
  · rw [text, if_pos hform]
    exact ⟨[x.lead], x.fraction, _, x.exponent, x.toList_exponential, x.placed_exponential,
      readExponent?_exponential x.exponent, .inl ⟨hform, isExponentPart_exponential x.exponent⟩⟩
  · rw [text, if_neg hform]
    obtain ⟨whole, fraction, htext, hplaced⟩ := x.exists_placed_positional
    refine ⟨whole, fraction, [], 0, ?_, hplaced, rfl, .inr ⟨hform, rfl⟩⟩
    rw [htext, List.append_nil]

/-- The digits of a number are found together among the digits of its text. -/
theorem Scientific.Placed.digits_infix (h : x.Placed whole fraction e)
    (hx : ∀ c ∈ x.digits, c.isDigit = true) (negative : Bool) :
    x.digits <:+: (minusPart negative ++ (whole ++ pointPart fraction)).filter Char.isDigit := by
  have hdigits := h.isDigit hx
  rw [List.forall_mem_append] at hdigits
  obtain ⟨front, back, hplaces, -⟩ := h.digits
  rw [List.filter_append, List.filter_append, filter_minusPart, filter_pointPart hdigits.2,
    List.filter_eq_self.mpr hdigits.1, List.nil_append, hplaces]
  exact ⟨List.replicate front '0', List.replicate back '0', by rw [List.append_assoc]⟩

theorem takeWhile_plain_append {front : List Char} (hfront : IsPlain front)
    (htail : IsExponentPart tail ∨ tail = []) :
    (front ++ tail).takeWhile (· ≠ 'E') = front := by
  have hchars : ∀ c ∈ front, decide (c ≠ 'E') = true := by
    intro c hc
    rw [decide_eq_true_eq]
    rintro rfl
    exact hfront.notMem (.inr rfl) hc
  rw [List.takeWhile_append_of_pos hchars]
  obtain ⟨sign, exponent, rfl, -⟩ | rfl := htail <;> simp

namespace Spelling

theorem readDecimal?_layout (s : Spelling) (places : Nat) :
    readDecimal? (s.number.text places).toList = some (s.negative,
      decimalValue s.negative s.number.digits (s.exponent - s.fraction.length)) := by
  obtain ⟨whole, fraction, tail, e, htext, hplaced, htail, -⟩ := s.number.exists_placed places
  have hdigits := hplaced.isDigit s.isDigit_of_mem_digits
  rw [List.forall_mem_append] at hdigits
  have hvalue := hplaced.value
  rw [htext, readDecimal?_numeral _ hplaced.ne_nil hdigits.1 hdigits.2 htail, hvalue]
  rfl

/-- A text comes in one of two forms, and the exponent decides which. -/
theorem form_cases (s : Spelling) (places : Nat) : ∃ front tail,
    (s.number.text places).toList = front ++ tail ∧ IsPlain front ∧
      s.number.digits <:+: front.filter Char.isDigit ∧
      (((places ≤ s.exponent ∨ s.exponent < -4) ∧ IsExponentPart tail) ∨
        (¬ (places ≤ s.exponent ∨ s.exponent < -4) ∧ tail = [])) := by
  obtain ⟨whole, fraction, tail, e, htext, hplaced, -, hform⟩ := s.number.exists_placed places
  have hdigits := hplaced.isDigit s.isDigit_of_mem_digits
  rw [List.forall_mem_append] at hdigits
  refine ⟨minusPart s.negative ++ (whole ++ pointPart fraction), tail, ?_,
    ⟨s.negative, whole, fraction, rfl, hplaced.ne_nil, hdigits.1, hdigits.2⟩,
    hplaced.digits_infix s.isDigit_of_mem_digits s.negative, hform⟩
  rw [htext, List.append_assoc, List.append_assoc]
  rfl

theorem digits_infix_layout (s : Spelling) (places : Nat) : s.number.digits <:+:
    ((s.number.text places).toList.takeWhile (· ≠ 'E')).filter Char.isDigit := by
  obtain ⟨front, tail, htext, hplain, hdigits, hform⟩ := s.form_cases places
  rw [htext, takeWhile_plain_append hplain (hform.imp And.right And.right)]
  exact hdigits

theorem form_iff (s : Spelling) (places : Nat) :
    (IsExponential (s.number.text places).toList ↔ places ≤ s.exponent ∨ s.exponent < -4) ∧
      (IsPlain (s.number.text places).toList ↔
        ¬ (places ≤ s.exponent ∨ s.exponent < -4)) := by
  obtain ⟨front, tail, htext, hplain, -, hform⟩ := s.form_cases places
  rcases hform with ⟨hlarge, htail⟩ | ⟨hsmall, rfl⟩
  · have hexponential : IsExponential (s.number.text places).toList :=
      ⟨front, tail, htext, hplain, htail⟩
    have hnot : ¬ IsPlain (s.number.text places).toList := fun h =>
      h.notMem (.inr rfl) hexponential.mem
    exact ⟨iff_of_true hexponential hlarge, iff_of_false hnot (not_not_intro hlarge)⟩
  · rw [List.append_nil] at htext
    rw [← htext] at hplain
    have hnot : ¬ IsExponential (s.number.text places).toList := fun h =>
      hplain.notMem (.inr rfl) h.mem
    exact ⟨iff_of_false hnot hsmall, iff_of_true hplain hsmall⟩

end Spelling

/-- The trimmed digits of a shortest decimal are digits. -/
theorem Magnitude.isDigit_of_mem_shortest (negative : Bool) (m : Magnitude) :
    ∀ c ∈ (m.shortest negative).digits, c.isDigit = true := by
  unfold shortest
  split
  · simp [Scientific.digits]
  · generalize hsignificant : ((Nat.toDigits 10 (m.interval.search enoughDigits
      m.interval.decimalExponent).1).reverse.dropWhile (· = '0')).reverse = significant
    have hdigits : ∀ c ∈ significant, c.isDigit = true := by
      intro c hc
      rw [← hsignificant, List.mem_reverse] at hc
      have hmem := List.mem_reverse.mp ((List.dropWhile_sublist (· = '0')).subset hc)
      exact Nat.isDigit_of_mem_toDigits (by decide) (by decide) hmem
    simp only [hsignificant, Scientific.digits]
    cases significant with
    | nil => simp
    | cons d ds => exact hdigits

theorem Scientific.exists_spelling (h : ∀ c ∈ x.digits, c.isDigit = true) :
    ∃ s : Spelling, s.number = x := by
  have hexponent : (if decide (x.exponent < 0) then (-x.exponent.natAbs : ℤ)
      else (x.exponent.natAbs : ℤ)) = x.exponent := by
    by_cases hneg : x.exponent < 0
    · simp only [hneg, decide_true, if_pos]
      omega
    · simp only [hneg, decide_false, Bool.false_eq_true, if_false]
      omega
  refine ⟨⟨x.negative, x.lead, x.fraction, x.exponent < 0, Nat.toDigits 10 x.exponent.natAbs,
    h x.lead List.mem_cons_self, fun c hc => h c (List.mem_cons_of_mem _ hc),
    fun c hc => Nat.isDigit_of_mem_toDigits (by decide) (by decide) hc, Nat.toDigits_ne_nil⟩, ?_⟩
  simp only [Spelling.number, Spelling.exponent, Nat.ofDigitChars_ten_toDigits, hexponent]

end Preserved

/-- However a decimal number is laid out, its text reads as the number that was spelled, with the
same sign and the same digits. It has an exponent if the one that was spelled is large or less
than `-4`, and is a plain numeral otherwise. No cut and no subtraction of the layout fails. The
finite floating-point literals of both widths are laid out like this. -/
theorem decimal_layout_preserves_value :
    (∀ (s : Spelling) (places : Nat), ∃ value : ℚ,
      readDecimal? s.text = some (s.negative, value) ∧
      readDecimal? (s.number.text places).toList = some (s.negative, value) ∧
      s.number.digits <:+:
        ((s.number.text places).toList.takeWhile (· ≠ 'E')).filter Char.isDigit ∧
      (IsExponential (s.number.text places).toList ↔ places ≤ s.exponent ∨ s.exponent < -4) ∧
      (IsPlain (s.number.text places).toList ↔ ¬ (places ≤ s.exponent ∨ s.exponent < -4)) ∧
      layOut? places s.text = some (s.number.text places).toList) ∧
    (∀ (x : Binary32) (negative : Bool) (m : Magnitude), x.value = .finite negative m →
      ∃ s : Spelling, s.number = m.shortest negative ∧ x.text = s.number.text 7) ∧
    ∀ (x : Binary64) (negative : Bool) (m : Magnitude), x.value = .finite negative m →
      ∃ s : Spelling, s.number = m.shortest negative ∧ x.text = s.number.text 15 := by
  refine ⟨?_, ?_, ?_⟩
  · intro s places
    exact ⟨_, s.readDecimal?_text, s.readDecimal?_layout places, s.digits_infix_layout places,
      (s.form_iff places).1, (s.form_iff places).2, s.layOut?_text places⟩
  · intro x negative m hvalue
    obtain ⟨s, hs⟩ := Scientific.exists_spelling (m.isDigit_of_mem_shortest negative)
    refine ⟨s, hs, ?_⟩
    rw [Binary32.text, hvalue, BinaryValue.text, hs]
  · intro x negative m hvalue
    obtain ⟨s, hs⟩ := Scientific.exists_spelling (m.isDigit_of_mem_shortest negative)
    refine ⟨s, hs, ?_⟩
    rw [Binary64.text, hvalue, BinaryValue.text, hs]

/-- The spelling `-1.25e-3`, of which all digits are behind the point, and the double-precision
number nearest to a tenth. -/
theorem decimal_layout_preserves_value_tenth :
    (∃ value : ℚ, readDecimal? "-1.25e-3".toList = some (true, value) ∧
      readDecimal? "-0.00125".toList = some (true, value)) ∧
    (Binary64.mk 0x3FB999999999999A).value = .finite false ⟨0x1999999999999A, -56, false⟩ ∧
    ∃ s : Spelling, s.number = ⟨false, '1', [], -1⟩ ∧
      (Binary64.mk 0x3FB999999999999A).text = s.number.text 15 := by
  have hvalue : (Binary64.mk 0x3FB999999999999A).value =
      .finite false ⟨0x1999999999999A, -56, false⟩ := by decide +kernel
  have hshortest : Magnitude.shortest false ⟨0x1999999999999A, -56, false⟩ =
      ⟨false, '1', [], -1⟩ := by decide +kernel
  refine ⟨?_, hvalue, ?_⟩
  · obtain ⟨value, hspelled, hshown, -⟩ := decimal_layout_preserves_value.1
      ⟨true, '1', ['2', '5'], true, ['3'], by decide, by simp, by simp, by simp⟩ 15
    exact ⟨value, hspelled, hshown⟩
  · rw [← hshortest]
    exact decimal_layout_preserves_value.2.2 _ _ _ hvalue

end Cil
