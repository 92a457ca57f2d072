import Mathlib
import Cil.Text

/-! String literals can be read back: where they end, what they stand for and which characters they
are written with. -/
namespace Cil.Text

namespace Quoted

variable {c : Char} {s s' t t' : List Char}

/-- The characters that a literal has only in escaped form, quote and backslash apart. -/
def controls : List Char := ['\n', '\r', '\t', '\x00']

/-- Everything that `escape` can do to a character. -/
theorem escape_cases (c : Char) :
    (∃ letter, escape c = ['\\', letter] ∧ unescape? letter = some c ∧ letter ∉ controls) ∨
      (escape c = [c] ∧ c ≠ '\\' ∧ c ≠ '"' ∧ c ∉ controls) := by
  unfold escape
  split
  case h_1 => exact .inl ⟨'\\', rfl, by decide, by decide⟩
  case h_2 => exact .inl ⟨'"', rfl, by decide, by decide⟩
  case h_3 => exact .inl ⟨'n', rfl, by decide, by decide⟩
  case h_4 => exact .inl ⟨'r', rfl, by decide, by decide⟩
  case h_5 => exact .inl ⟨'t', rfl, by decide, by decide⟩
  case h_6 => exact .inl ⟨'0', rfl, by decide, by decide⟩
  case h_7 hbackslash hquote hlf hcr htab hnull =>
    refine .inr ⟨rfl, hbackslash, hquote, ?_⟩
    simp only [controls, List.mem_cons, List.not_mem_nil, or_false, not_or]
    exact ⟨hlf, hcr, htab, hnull⟩

section Scanning

theorem scanOpen?_escaped {letter : Char} (h : unescape? letter = some c) (rest : List Char) :
    scanOpen? ('\\' :: letter :: rest) =
      (scanOpen? rest).map fun (s, after) => (c :: s, after) := by
  rw [scanOpen?, h]
  cases scanOpen? rest <;> rfl

theorem scanOpen?_plain (hbackslash : c ≠ '\\') (hquote : c ≠ '"') (rest : List Char) :
    scanOpen? (c :: rest) = (scanOpen? rest).map fun (s, after) => (c :: s, after) := by
  rw [scanOpen?.eq_def]
  split
  case h_1 heq => cases heq
  case h_2 heq => exact absurd (List.cons.inj heq).1 hquote
  case h_3 heq => exact absurd (List.cons.inj heq).1 hbackslash
  case h_4 heq =>
    obtain ⟨rfl, rfl⟩ := List.cons.inj heq
    cases scanOpen? rest <;> rfl

theorem scanOpen?_escape (c : Char) (rest : List Char) :
    scanOpen? (escape c ++ rest) = (scanOpen? rest).map fun (s, after) => (c :: s, after) := by
  obtain ⟨letter, hescape, hletter, -⟩ | ⟨hescape, hbackslash, hquote, -⟩ := escape_cases c
  · rw [hescape]
    exact scanOpen?_escaped hletter rest
  · rw [hescape]
    exact scanOpen?_plain hbackslash hquote rest

theorem scanOpen?_flatMap (s t : List Char) :
    scanOpen? (s.flatMap escape ++ '"' :: t) = some (s, t) := by
  induction s with
  | nil => rfl
  | cons c s ih => rw [List.flatMap_cons, List.append_assoc, scanOpen?_escape, ih, Option.map_some]

/-- A literal is read back from the start of any text, with what follows left over. -/
theorem scan?_encode_append (s t : List Char) : scan? (encode s ++ t) = some (s, t) := by
  have hopen := scanOpen?_flatMap s t
  simpa [encode, scan?] using hopen

/-- Two texts that start with literals are equal only if the literals and what follows are. -/
theorem eq_of_encode_append_eq (h : encode s ++ t = encode s' ++ t') : s = s' ∧ t = t' := by
  have hscan := congrArg scan? h
  rw [scan?_encode_append, scan?_encode_append] at hscan
  exact Prod.mk.inj (Option.some.inj hscan)

end Scanning

section Characters

theorem notMem_escape_of_mem_controls (hc : c ∈ controls) (d : Char) : c ∉ escape d := by
  have hbackslash : '\\' ∉ controls := by decide
  obtain ⟨letter, hescape, -, hletter⟩ | ⟨hescape, -, -, hplain⟩ := escape_cases d
  · rw [hescape, List.mem_cons, List.mem_singleton]
    rintro (rfl | rfl)
    · exact hbackslash hc
    · exact hletter hc
  · rw [hescape, List.mem_singleton]
    rintro rfl
    exact hplain hc

theorem notMem_encode_of_mem_controls (hc : c ∈ controls) (s : List Char) : c ∉ encode s := by
  have hquote : c ≠ '"' := by
    rintro rfl
    exact absurd hc (by decide)
  simp only [encode, List.mem_cons, List.mem_append, List.mem_flatMap, List.not_mem_nil, or_false,
    not_or, not_exists, not_and]
  exact ⟨hquote, fun d _ => notMem_escape_of_mem_controls hc d, hquote⟩

/-- The places of the double quotes that are not escaped, counted from `k`. A backslash escapes
the character after it. -/
def bareQuotes : (k : Nat) → List Char → List Nat
  | _, [] => []
  | k, '\\' :: _ :: rest => bareQuotes (k + 2) rest
  | k, c :: rest => if c = '"' then k :: bareQuotes (k + 1) rest else bareQuotes (k + 1) rest

theorem bareQuotes_plain (h : c ≠ '\\') (k : Nat) (rest : List Char) :
    bareQuotes k (c :: rest) =
      if c = '"' then k :: bareQuotes (k + 1) rest else bareQuotes (k + 1) rest := by
  rw [bareQuotes]
  intro _ _ heq
  exact absurd heq h

theorem bareQuotes_escape (k : Nat) (c : Char) (rest : List Char) :
    bareQuotes k (escape c ++ rest) = bareQuotes (k + (escape c).length) rest := by
  obtain ⟨letter, hescape, -, -⟩ | ⟨hescape, hbackslash, hquote, -⟩ := escape_cases c
  · rw [hescape]
    rfl
  · rw [hescape, List.singleton_append, bareQuotes_plain hbackslash, if_neg hquote]
    rfl

theorem bareQuotes_flatMap (k : Nat) (s : List Char) :
    bareQuotes k (s.flatMap escape ++ ['"']) = [k + (s.flatMap escape).length] := by
  induction s generalizing k with
  | nil => rfl
  | cons c s ih =>
    rw [List.flatMap_cons, List.append_assoc, bareQuotes_escape, ih, List.length_append,
      Nat.add_assoc]

theorem bareQuotes_encode (s : List Char) :
    bareQuotes 0 (encode s) = [0, (encode s).length - 1] := by
  have hopen := bareQuotes_flatMap 1 s
  rw [encode, bareQuotes_plain (by decide), if_pos rfl, hopen]
  simp [Nat.add_comm]

end Characters

end Quoted

theorem toList_quote (s : String) : (quote s).toList = Quoted.encode s.toList := by
  rw [quote, String.toList_ofList]

/-- A string literal can be read back whatever follows it, so different strings have different
literals, and none of them is the start of another. A literal has no control character that could
break a line or end a text, and no double quotes but its own ones and escaped ones. -/
theorem quote_self_delimiting :
    (∀ s t : String, Quoted.scan? (quote s ++ t).toList = some (s.toList, t.toList)) ∧
      Function.Injective quote ∧
      (∀ s s' : String, (quote s).toList <+: (quote s').toList → s = s') ∧
      (∀ s : String, ∀ c ∈ Quoted.controls, c ∉ (quote s).toList) ∧
      ∀ s : String, Quoted.bareQuotes 0 (quote s).toList = [0, (quote s).toList.length - 1] := by
  refine ⟨?_, ?_, ?_, ?_, ?_⟩
  · intro s t
    rw [String.toList_append, toList_quote, Quoted.scan?_encode_append]
  · intro s s' h
    have hchars : Quoted.encode s.toList ++ [] = Quoted.encode s'.toList ++ [] := by
      rw [← toList_quote, ← toList_quote, h]
    exact String.toList_inj.mp (Quoted.eq_of_encode_append_eq hchars).1
  · rintro s s' ⟨rest, hrest⟩
    rw [toList_quote, toList_quote, ← List.append_nil (Quoted.encode s'.toList)] at hrest
    exact String.toList_inj.mp (Quoted.eq_of_encode_append_eq hrest).1
  · intro s c hc
    rw [toList_quote]
    exact Quoted.notMem_encode_of_mem_controls hc s.toList
  · intro s
    rw [toList_quote]
    exact Quoted.bareQuotes_encode s.toList

/-- A string that looks escaped already and ends with a backslash, in front of a quote. -/
theorem quote_self_delimiting_backslashes :
    quote "\\n\"\n\\" = "\"\\\\n\\\"\\n\\\\\"" ∧
      Quoted.scan? (quote "\\n\"\n\\" ++ "\"rest").toList =
        some ("\\n\"\n\\".toList, "\"rest".toList) ∧
      '\n' ∉ (quote "\\n\"\n\\").toList ∧ ¬ (quote "\\").toList <+: (quote "\\n\"\n\\").toList := by
  obtain ⟨hscan, -, hstart, hcontrols, -⟩ := quote_self_delimiting
  refine ⟨by decide, hscan _ _, hcontrols _ '\n' (by decide), ?_⟩
  intro h
  exact absurd (hstart _ _ h) (by decide)

end Cil.Text
