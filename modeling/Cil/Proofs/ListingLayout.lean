import Mathlib
import Cil.Proofs.Refusal

/-! How a listing is laid out: its lines, the column of the offsets, and the empty lines behind
instructions that interrupt straight execution. -/
namespace Cil

variable {options : ListingOptions} {width m n : Nat} {i j : Instruction} {body : List Instruction}
  {line : String} {lines : List String}

section Column

theorem Text.length_toDigits_mono (h : m ≤ n) :
    (Nat.toDigits 10 m).length ≤ (Nat.toDigits 10 n).length := by
  have hpos : 0 < (Nat.toDigits 10 n).length := List.length_pos_iff.mpr Nat.toDigits_ne_nil
  have hn : n < 10 ^ (Nat.toDigits 10 n).length :=
    (Nat.length_toDigits_le_iff (by decide) hpos).mp (Nat.le_refl _)
  exact (Nat.length_toDigits_le_iff (by decide) hpos).mpr (Nat.lt_of_le_of_lt h hn)

/-- A numeral fills its width if its digits have room. -/
theorem Text.length_decimal (h : (Nat.toDigits 10 n).length ≤ width) :
    (decimal width n).toList.length = width := by
  rw [toList_decimal, List.length_append, List.length_replicate]
  omega

namespace Listing

theorem offset_le_foldl (hi : i ∈ body) : i.offset ≤ (body.map (·.offset)).foldl max 0 := by
  have hmem : i.offset ∈ body.map (·.offset) := List.mem_map_of_mem hi
  rw [List.foldl_max]
  cases hmax : (body.map (·.offset)).max? with
  | none => simp [List.max?_eq_none_iff.mp hmax] at hmem
  | some largest =>
    have hle := (List.max?_eq_some_iff.mp hmax).2 i.offset hmem
    simpa using hle

theorem length_toDigits_le_offsetWidth (hi : i ∈ body) :
    (Nat.toDigits 10 i.offset).length ≤ offsetWidth body :=
  Text.length_toDigits_mono (offset_le_foldl hi)

theorem offsetWidth_eq (hj : j ∈ body) (hlargest : ∀ i ∈ body, i.offset ≤ j.offset) :
    offsetWidth body = (Nat.repr j.offset).length := by
  have hmax : (body.map (·.offset)).max? = some j.offset := by
    rw [List.max?_eq_some_iff]
    refine ⟨List.mem_map_of_mem hj, ?_⟩
    intro n hn
    obtain ⟨i, hi, rfl⟩ := List.mem_map.mp hn
    exact hlargest i hi
  rw [offsetWidth, List.foldl_max, hmax]
  simp [← String.length_toList]

end Listing

/-- What stands in front of the first colon of a line. -/
def offsetColumn (line : List Char) : List Char := line.takeWhile (· ≠ ':')

theorem Instruction.offsetColumn_line (h : i.line width = .ok line) :
    offsetColumn line.toList = (Text.decimal width i.offset).toList := by
  obtain ⟨operand, -, hline⟩ := line_eq_ok_iff.mp h
  have hdigits : ∀ c ∈ (Text.decimal width i.offset).toList, decide (c ≠ ':') = true := by
    intro c hc
    have hdigit := Text.isDigit_of_mem_decimal hc
    simp only [decide_eq_true_eq]
    rintro rfl
    exact absurd hdigit (by decide)
  rw [offsetColumn, toList_line hline, List.takeWhile_append_of_pos hdigits]
  simp

/-- A line of a listing that shows an instruction, its offset in a column of the given width. -/
structure Instruction.ShownBy (i : Instruction) (width : Nat) (line : List Char) : Prop where
  line_eq : i.line width = .ok (String.ofList line)
  colon_mem : ':' ∈ line
  digits : ∀ c ∈ offsetColumn line, c.isDigit = true
  length_eq : (offsetColumn line).length = width
  offset_eq : Nat.ofDigitChars 10 (offsetColumn line) 0 = i.offset

theorem Instruction.shownBy (hwidth : (Nat.toDigits 10 i.offset).length ≤ width)
    (h : i.line width = .ok line) : i.ShownBy width line.toList := by
  have hcolumn := offsetColumn_line h
  constructor
  · rw [String.ofList_toList, h]
  · obtain ⟨operand, -, hline⟩ := line_eq_ok_iff.mp h
    simp [toList_line hline]
  · rw [hcolumn]
    exact fun c => Text.isDigit_of_mem_decimal
  · rw [hcolumn, Text.length_decimal hwidth]
  · rw [hcolumn, Text.ofDigitChars_decimal]

end Column

section EmptyLines

/-- The flows behind which a listing leaves an empty line. -/
def Flow.separated : List Flow := [.branch, .conditional, .returns, .throws, .modifier, .breakpoint]

theorem Flow.interrupts_iff (f : Flow) : f.interrupts = true ↔ f ∈ Flow.separated := by
  cases f <;> decide

/-- The lines of a text that are not empty, each with its line feed. -/
def withoutEmptyLines (s : String) : String :=
  String.join ((textLines s).map fun line => String.ofList line ++ "\n")

namespace Listing

/-- A line of a separated listing, with the empty line behind it, if any. -/
def separatedLines (i : Instruction) (line : List Char) : List (List Char) :=
  line :: if i.flow ∈ Flow.separated then [[]] else []

theorem splitOn_block_append (hline : OneLine line) (i : Instruction) (rest : String) :
    (block .separated i line ++ rest).toList.splitOn '\n' =
      separatedLines i line.toList ++ rest.toList.splitOn '\n' := by
  by_cases hflow : i.flow ∈ Flow.separated
  · have hinterrupts := i.flow.interrupts_iff.mpr hflow
    have hchars : (block .separated i line ++ rest).toList =
        line.toList ++ '\n' :: ([] ++ '\n' :: rest.toList) := by
      simp [block, ListingOptions.separated, hinterrupts]
    rw [hchars, List.splitOn_append_cons_self_of_not_mem hline,
      List.splitOn_append_cons_self_of_not_mem List.not_mem_nil]
    simp [separatedLines, hflow]
  · have hinterrupts : i.flow.interrupts = false := by
      rw [← Bool.not_eq_true, i.flow.interrupts_iff]
      exact hflow
    have hchars : (block .separated i line ++ rest).toList =
        line.toList ++ '\n' :: rest.toList := by
      simp [block, ListingOptions.separated, hinterrupts]
    rw [hchars, List.splitOn_append_cons_self_of_not_mem hline]
    simp [separatedLines, hflow]

theorem splitOn_blocks {p : Instruction → String → Prop} (hlines : List.Forall₂ p body lines)
    (h : ∀ line ∈ lines, OneLine line) :
    (String.join (List.zipWith (block .separated) body lines)).toList.splitOn '\n' =
      (List.zipWith separatedLines body (lines.map String.toList)).flatten ++ [[]] := by
  induction hlines with
  | nil => rfl
  | @cons i line body lines _ _ ih =>
    have hlater := ih fun l hl => h l (List.mem_cons_of_mem line hl)
    rw [List.zipWith_cons_cons, String.join_cons,
      splitOn_block_append (h line List.mem_cons_self), hlater]
    simp

theorem join_blocks_compact {p : Instruction → String → Prop}
    (hlines : List.Forall₂ p body lines) :
    String.join (List.zipWith (block .compact) body lines) =
      String.join (lines.map (· ++ "\n")) := by
  induction hlines with
  | nil => rfl
  | cons _ _ ih =>
    rw [List.zipWith_cons_cons, String.join_cons, ih, List.map_cons, String.join_cons]
    simp [block, ListingOptions.compact]

end Listing

end EmptyLines

section Layout

/-- An instruction that has a line of its own in a listing. -/
structure Instruction.Listable (i : Instruction) : Prop where
  mnemonic : OneLine i.mnemonic
  notField : i.operand.isField = false
  names : ∀ n ∈ i.operand.names, OneLine n

/-- With an opcode of the table only the operand counts. -/
theorem Instruction.listable_of_mem_table (hopcode : i.opcode ∈ Opcode.table)
    (hfield : i.operand.isField = false) (hnames : ∀ n ∈ i.operand.names, OneLine n) :
    i.Listable :=
  ⟨(Opcode.name_isWord hopcode).2, hfield, hnames⟩

/-- The two listings of a body, compact and separated, with the lines that they have in common. -/
structure Listing.LaidOut (body : List Instruction) (width : Nat) (lines : List (List Char))
    (compact separated : String) : Prop where
  compact_lines : textLines compact = lines
  separated_lines : textLines separated = lines
  shown : List.Forall₂ (fun i line => i.ShownBy width line) body lines
  width_eq : ∀ j ∈ body, (∀ i ∈ body, i.offset ≤ j.offset) → width = (Nat.repr j.offset).length
  empty_lines : separated.toList.splitOn '\n' =
    (List.zipWith separatedLines body lines).flatten ++ [[]]
  compact_eq : withoutEmptyLines separated = compact

namespace Listing

theorem exists_lines_of_listable (h : ∀ i ∈ body, i.Listable) (width : Nat) :
    ∃ lines, List.Forall₂ (fun i line => i.line width = .ok line) body lines := by
  apply exists_lines
  intro i hi
  obtain ⟨operand, htext⟩ := Operand.exists_text (h i hi).notField
  exact ⟨_, Instruction.line_eq_ok_iff.mpr ⟨operand, htext, rfl⟩⟩

theorem isLine_of_listable (h : ∀ i ∈ body, i.Listable)
    (hlines : List.Forall₂ (fun i line => i.line width = .ok line) body lines) :
    ∀ line ∈ lines, IsLine line := by
  induction hlines with
  | nil => simp
  | @cons i line body lines hline _ ih =>
    have hi := h i List.mem_cons_self
    have hlater := ih fun j hj => h j (List.mem_cons_of_mem i hj)
    rw [List.forall_mem_cons]
    exact ⟨⟨Instruction.line_ne_empty hline, Instruction.oneLine_line hi.mnemonic hi.names hline⟩,
      hlater⟩

theorem shown_of_lines
    (hlines : List.Forall₂ (fun i line => i.line (offsetWidth body) = .ok line) body lines) :
    List.Forall₂ (fun i line => i.ShownBy (offsetWidth body) line) body
      (lines.map String.toList) := by
  have hfits : ∀ i ∈ body, (Nat.toDigits 10 i.offset).length ≤ offsetWidth body :=
    fun i hi => length_toDigits_le_offsetWidth hi
  rw [List.forall₂_map_right_iff]
  apply ((List.forall₂_and_left body lines).mpr ⟨hfits, hlines⟩).imp
  rintro i line ⟨hwidth, hline⟩
  exact Instruction.shownBy hwidth hline

/-- A listing has one line for each instruction, with the offsets in one column. The separated
listing differs from the compact one by the empty lines behind interruptions only. -/
theorem exists_laidOut (h : ∀ i ∈ body, i.Listable) :
    (∀ options, text options [] = .ok "") ∧
    ∃ width lines compact separated, text .compact body = .ok compact ∧
      text .separated body = .ok separated ∧ LaidOut body width lines compact separated := by
  refine ⟨fun options => text_of_lines options .nil, ?_⟩
  obtain ⟨lines, hlines⟩ := exists_lines_of_listable h (offsetWidth body)
  have hisLine := isLine_of_listable h hlines
  have hseparated : textLines (String.join (List.zipWith (block .separated) body lines)) =
      lines.map String.toList :=
    textLines_blocks hlines hisLine
  refine ⟨offsetWidth body, lines.map String.toList, _, _, text_of_lines .compact hlines,
    text_of_lines .separated hlines, textLines_blocks hlines hisLine, hseparated,
    shown_of_lines hlines, fun j => offsetWidth_eq,
    splitOn_blocks hlines fun line hline => (hisLine line hline).oneLine, ?_⟩
  rw [withoutEmptyLines, hseparated, join_blocks_compact hlines, List.map_map]
  simp [Function.comp_def]

/-- Offsets out of order, a string of two lines and an operand that does not fit its opcode. -/
def scatteredBody : List Instruction :=
  [⟨12, 5, ⟨"ldstr", 0x72, .string, .next⟩, .string "a\nb"⟩,
    ⟨3, 2, ⟨"br.s", 0x2B, .shortBranch, .branch⟩, .target 12⟩,
    ⟨7, 5, ⟨"call", 0x28, .method, .call⟩, .member (.type (.system "System.Int32"))⟩]

theorem listable_scatteredBody : ∀ i ∈ scatteredBody, i.Listable := by
  have hopcodes : ∀ i ∈ scatteredBody, i.opcode ∈ Opcode.table := by decide +kernel
  have hfields : ∀ i ∈ scatteredBody, i.operand.isField = false := by decide
  have hnames : ∀ i ∈ scatteredBody, ∀ n ∈ i.operand.names, OneLine n := by decide
  intro i hi
  exact Instruction.listable_of_mem_table (hopcodes i hi) (hfields i hi) (hnames i hi)

theorem exists_laidOut_scattered : (∀ i ∈ scatteredBody, i.Listable) ∧
    ∃ lines compact separated, text .compact scatteredBody = .ok compact ∧
      text .separated scatteredBody = .ok separated ∧
      LaidOut scatteredBody 2 lines compact separated := by
  refine ⟨listable_scatteredBody, ?_⟩
  obtain ⟨-, width, lines, compact, separated, hcompact, hseparated, hlaidOut⟩ :=
    exists_laidOut listable_scatteredBody
  obtain rfl : width = 2 := hlaidOut.width_eq _ List.mem_cons_self (by decide)
  exact ⟨lines, compact, separated, hcompact, hseparated, hlaidOut⟩

end Listing

end Layout

end Cil
