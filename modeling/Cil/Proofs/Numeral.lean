import Mathlib
import Cil.Text

/-! Numerals and lists of them can be read back: which characters they have, and that different
numbers have different ones. -/
namespace Cil.Text

variable {b m n width width' : Nat} {c : Char}

theorem exists_of_mem_toDigits (hb : 1 < b) (h : c ∈ Nat.toDigits b n) :
    ∃ d < b, c = Nat.digitChar d := by
  induction n using Nat.strongRecOn with
  | ind n ih =>
    by_cases hn : n < b
    · rw [Nat.toDigits_of_lt_base hn, List.mem_singleton] at h
      exact ⟨n, hn, h⟩
    · have hle : b ≤ n := Nat.le_of_not_lt hn
      rw [Nat.toDigits_of_base_le hb hle, List.mem_append, List.mem_singleton] at h
      rcases h with h | h
      · exact ih (n / b) (Nat.div_lt_self (by omega) hb) h
      · exact ⟨n % b, Nat.mod_lt n (by omega), h⟩

theorem isDigit_of_mem_repr (h : c ∈ (Nat.repr n).toList) : c.isDigit = true := by
  rw [Nat.toList_repr] at h
  exact Nat.isDigit_of_mem_toDigits (by decide) (by decide) h

theorem toList_decimal (width n : Nat) : (decimal width n).toList =
    List.replicate (width - (Nat.toDigits 10 n).length) '0' ++ Nat.toDigits 10 n := by
  rw [decimal, zeroFill, String.toList_ofList]

theorem isDigit_of_mem_decimal (h : c ∈ (decimal width n).toList) : c.isDigit = true := by
  rw [toList_decimal, List.mem_append] at h
  rcases h with h | h
  · rw [List.eq_of_mem_replicate h]
    rfl
  · exact Nat.isDigit_of_mem_toDigits (by decide) (by decide) h

/-- The zeros in front do not count. -/
theorem ofDigitChars_decimal (width n : Nat) :
    Nat.ofDigitChars 10 (decimal width n).toList 0 = n := by
  rw [toList_decimal, Nat.ofDigitChars_append, Nat.ofDigitChars_replicate_zero, Nat.mul_zero,
    Nat.ofDigitChars_ten_toDigits]

/-- Numerals of any two widths agree only if the numbers do. -/
theorem eq_of_decimal_eq (h : decimal width m = decimal width' n) : m = n := by
  rw [← ofDigitChars_decimal width m, h, ofDigitChars_decimal]

theorem isDigit_or_eq_of_mem_integer {z : Int} (h : c ∈ (integer z).toList) :
    c.isDigit = true ∨ c = '-' := by
  cases z with
  | ofNat n => exact Or.inl (isDigit_of_mem_repr h)
  | negSucc n =>
    rw [integer, String.toList_append, List.mem_append] at h
    rcases h with h | h
    · exact Or.inr (by simpa using h)
    · exact Or.inl (isDigit_of_mem_repr h)

theorem repr_ne_integer_negSucc (m n : Nat) : Nat.repr m ≠ integer (.negSucc n) := by
  intro h
  have hmem : '-' ∈ (Nat.repr m).toList := by simp [h, integer]
  exact absurd (isDigit_of_mem_repr hmem) (by decide)

theorem integer_injective : Function.Injective integer := by
  intro x y h
  cases x with
  | ofNat m =>
    cases y with
    | ofNat n => rw [Nat.repr_injective h]
    | negSucc n => exact absurd h (repr_ne_integer_negSucc m n)
  | negSucc m =>
    cases y with
    | ofNat n => exact absurd h.symm (repr_ne_integer_negSucc n m)
    | negSucc n =>
      have hdigits : Nat.repr (m + 1) = Nat.repr (n + 1) := by
        simpa [integer, ← String.toList_inj] using h
      rw [Nat.succ_injective (Nat.repr_injective hdigits)]

/-- A text is cut in one way only at the first occurrence of a character. -/
theorem eq_of_append_cons_eq {front front' back back' : List Char} (hfront : c ∉ front)
    (hfront' : c ∉ front') (h : front ++ c :: back = front' ++ c :: back') :
    front = front' ∧ back = back' := by
  have hsplit := congrArg (List.splitOn c) h
  rw [List.splitOn_append_cons_self_of_not_mem hfront,
    List.splitOn_append_cons_self_of_not_mem hfront'] at hsplit
  obtain rfl := (List.cons.inj hsplit).1
  exact ⟨rfl, (List.cons.inj (List.append_cancel_left h)).2⟩

theorem intercalate_comma (s t : List Char) (ts : List (List Char)) :
    [',', ' '].intercalate (s :: t :: ts) =
      s ++ ',' :: ' ' :: [',', ' '].intercalate (t :: ts) := by
  simp [List.intercalate_cons_cons]

theorem intercalate_ne_nil {s : List Char} (hs : s ≠ []) (ss : List (List Char)) :
    [',', ' '].intercalate (s :: ss) ≠ [] := by
  cases ss with
  | nil => simpa using hs
  | cons t ts => simp

theorem ne_append_comma {s : List Char} (hs : ',' ∉ s) (front back : List Char) :
    s ≠ front ++ ',' :: back := by
  intro h
  exact hs (by simp [h])

/-- Items without a comma are recovered from the text in which commas separate them. -/
theorem eq_of_intercalate_eq {ss ts : List (List Char)} (hs : ∀ s ∈ ss, s ≠ [] ∧ ',' ∉ s)
    (ht : ∀ t ∈ ts, t ≠ [] ∧ ',' ∉ t)
    (h : [',', ' '].intercalate ss = [',', ' '].intercalate ts) : ss = ts := by
  induction ss generalizing ts with
  | nil =>
    cases ts with
    | nil => rfl
    | cons t ts => exact absurd h.symm (intercalate_ne_nil (ht t List.mem_cons_self).1 ts)
  | cons s ss ih =>
    have hfirst := hs s List.mem_cons_self
    cases ts with
    | nil => exact absurd h (intercalate_ne_nil hfirst.1 ss)
    | cons t ts =>
      have hfirst' := ht t List.mem_cons_self
      cases ss with
      | nil =>
        cases ts with
        | nil => simpa using h
        | cons t' ts =>
          rw [List.intercalate_singleton, intercalate_comma] at h
          exact absurd h (ne_append_comma hfirst.2 _ _)
      | cons s' ss =>
        cases ts with
        | nil =>
          rw [List.intercalate_singleton, intercalate_comma] at h
          exact absurd h.symm (ne_append_comma hfirst'.2 _ _)
        | cons t' ts =>
          rw [intercalate_comma, intercalate_comma] at h
          obtain ⟨rfl, hrest⟩ := eq_of_append_cons_eq hfirst.2 hfirst'.2 h
          have htail := ih (fun u hu => hs u (List.mem_cons_of_mem s hu))
            (fun u hu => ht u (List.mem_cons_of_mem s hu)) (List.cons.inj hrest).2
          rw [htail]

theorem eq_of_commaSeparated_repr_eq {ms ns : List Nat}
    (h : commaSeparated (ms.map Nat.repr) = commaSeparated (ns.map Nat.repr)) : ms = ns := by
  have hdigits : ∀ ks : List Nat, ∀ s ∈ ks.map (String.toList ∘ Nat.repr), s ≠ [] ∧ ',' ∉ s := by
    intro ks s hs
    obtain ⟨k, -, rfl⟩ := List.mem_map.mp hs
    refine ⟨by simp [Nat.toDigits_ne_nil], ?_⟩
    intro hcomma
    exact absurd (isDigit_of_mem_repr hcomma) (by decide)
  have hlist := congrArg String.toList h
  simp only [commaSeparated, String.toList_intercalate, List.map_map] at hlist
  have hmap := eq_of_intercalate_eq (hdigits ms) (hdigits ns) hlist
  refine List.map_injective_iff.mpr ?_ hmap
  intro m n hmn
  exact Nat.repr_injective (String.toList_inj.mp hmn)

end Cil.Text
