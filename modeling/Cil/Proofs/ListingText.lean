import Mathlib
import Cil.Proofs.OneLine
import Cil.Proofs.ScriptText

/-! The text of a listing, and how its lines are found in it again. -/
namespace Cil

open Writer (margin)

variable {options : ListingOptions} {width : Nat} {i : Instruction} {body : List Instruction}
  {line text : String} {lines : List String} {e : Error}

/-- A text that takes up one line of a listing. -/
structure IsLine (s : String) : Prop where
  ne_empty : s ≠ ""
  oneLine : OneLine s

namespace Instruction

/-- What follows the mnemonic on a line. -/
def operandPart : Option String → String
  | some operand => " " ++ operand
  | none => ""

theorem line_eq_ok_iff : i.line width = .ok line ↔ ∃ operand, i.operand.text = .ok operand ∧
    line = Text.decimal width i.offset ++ ": " ++ i.mnemonic ++ operandPart operand := by
  unfold Instruction.line
  cases i.operand.text with
  | error e => simp [bind, Except.bind]
  | ok operand =>
    cases operand <;> simp [bind, Except.bind, pure, Except.pure, operandPart, eq_comm,
      String.append_assoc]

theorem toList_line {o : Option String} (h : line =
    Text.decimal width i.offset ++ ": " ++ i.mnemonic ++ operandPart o) : line.toList =
      (Text.decimal width i.offset).toList ++
        ':' :: ' ' :: (i.mnemonic.toList ++ (operandPart o).toList) := by
  simp [h]

theorem line_ne_empty (h : i.line width = .ok line) : line ≠ "" := by
  obtain ⟨operand, -, rfl⟩ := line_eq_ok_iff.mp h
  intro hempty
  have hcolon : ':' ∈ (Text.decimal width i.offset ++ ": " ++ i.mnemonic ++
      operandPart operand).toList := by simp
  rw [hempty] at hcolon
  exact absurd hcolon (by decide)

theorem oneLine_line (hmnemonic : OneLine i.mnemonic) (hnames : ∀ n ∈ i.operand.names, OneLine n)
    (h : i.line width = .ok line) : OneLine line := by
  obtain ⟨operand, htext, rfl⟩ := line_eq_ok_iff.mp h
  have hpart : OneLine (operandPart operand) := by
    cases operand with
    | none => decide
    | some text =>
      rw [operandPart, oneLine_append]
      exact ⟨by decide, Operand.oneLine_text htext hnames⟩
  simp only [oneLine_append]
  exact ⟨⟨⟨oneLine_decimal width i.offset, by decide⟩, hmnemonic⟩, hpart⟩

theorem line_isLine (hmem : i.opcode ∈ Opcode.table) (hnames : ∀ n ∈ i.operand.names, OneLine n)
    (h : i.line width = .ok line) : IsLine line :=
  ⟨line_ne_empty h, oneLine_line (Opcode.name_isWord hmem).2 hnames h⟩

end Instruction

/-- Steps among which one is bound to fail do not succeed. -/
theorem Step.runAll_of_fail_mem {σ : Type} [ByteSink σ] {steps : List Step} (h : .fail e ∈ steps)
    (w : Writer σ) : ∃ e' w', runAll steps w = .error e' w' := by
  induction steps generalizing w with
  | nil => cases h
  | cons step steps ih =>
    rw [runAll]
    cases hrun : step.run w with
    | error e' w' => exact ⟨e', w', bind_of_error hrun⟩
    | ok a w' =>
      rw [bind_of_ok hrun]
      rcases List.mem_cons.mp h with rfl | hmem
      · cases hrun
      · exact ih hmem w'

namespace Listing

/-- What a listing has for an instruction with the given line. -/
def block (options : ListingOptions) (i : Instruction) (line : String) : String :=
  line ++ "\n" ++ if options.separateJumps && i.flow.interrupts then "\n" else ""

/-- The lines of a body at the given depth. -/
def blocksAt (options : ListingOptions) (depth : Nat) (body : List Instruction)
    (lines : List String) : String :=
  String.join (List.zipWith (fun i line => margin depth ++ block options i line) body lines)

theorem leaveOpen_instructionSteps (options : ListingOptions) (width : Nat) (i : Instruction) :
    Step.leaveOpen (instructionSteps options width i) false = false := by
  unfold instructionSteps
  split
  · split <;> rfl
  · rw [Step.leaveOpen_append, Step.leaveOpen_notes]
    rfl

theorem textsAt_instructionSteps (options : ListingOptions) (depth : Nat)
    (hline : i.line width = .ok line) :
    Step.textsAt (instructionSteps options width i) depth false =
      margin depth ++ block options i line := by
  simp only [instructionSteps, hline, block]
  have hpiece := Writer.pieceAt_closed depth (Instruction.line_ne_empty hline)
  split <;> simp [Step.textsAt, Step.textAt, hpiece, String.append_assoc]

theorem textsAt_flatMap_instructionSteps (options : ListingOptions) (depth : Nat)
    (hlines : List.Forall₂ (fun i line => i.line width = .ok line) body lines) :
    Step.textsAt (body.flatMap (instructionSteps options width)) depth false =
      blocksAt options depth body lines := by
  rw [Step.textsAt_flatMap _ _ (leaveOpen_instructionSteps options _), blocksAt]
  congr 1
  induction hlines with
  | nil => rfl
  | cons hline _ ih =>
    rw [List.map_cons, List.zipWith_cons_cons, ih, textsAt_instructionSteps options depth hline]

theorem textsAt_steps (options : ListingOptions) (depth : Nat)
    (hlines : List.Forall₂ (fun i line => i.line (offsetWidth body) = .ok line) body lines) :
    Step.textsAt (steps options body) depth false = blocksAt options depth body lines :=
  textsAt_flatMap_instructionSteps options depth hlines

theorem leaveOpen_steps (options : ListingOptions) (body : List Instruction) :
    Step.leaveOpen (steps options body) false = false :=
  Step.leaveOpen_flatMap body (leaveOpen_instructionSteps options _)

theorem allPlain_instructionSteps (options : ListingOptions) (h : i.line width = .ok line) :
    Step.allPlain (instructionSteps options width i) = true := by
  simp only [instructionSteps, h]
  split <;> rfl

theorem allPlain_of_lines (options : ListingOptions)
    (hlines : List.Forall₂ (fun i line => i.line width = .ok line) body lines) :
    Step.allPlain (body.flatMap (instructionSteps options width)) = true := by
  induction hlines with
  | nil => rfl
  | cons hline _ ih =>
    rw [List.flatMap_cons, Step.allPlain_append, allPlain_instructionSteps options hline, ih]
    rfl

theorem blocksAt_zero (options : ListingOptions) (body : List Instruction) (lines : List String) :
    blocksAt options 0 body lines = String.join (List.zipWith (block options) body lines) := by
  simp [blocksAt, Writer.margin]

theorem text_of_lines (options : ListingOptions)
    (hlines : List.Forall₂ (fun i line => i.line (offsetWidth body) = .ok line) body lines) :
    Listing.text options body = .ok (String.join (List.zipWith (block options) body lines)) := by
  have htext := Script.text_of_plain (allPlain_of_lines options hlines)
  rwa [textsAt_flatMap_instructionSteps options 0 hlines, blocksAt_zero] at htext

theorem exists_lines (h : ∀ i ∈ body, ∃ line, i.line width = .ok line) :
    ∃ lines, List.Forall₂ (fun i line => i.line width = .ok line) body lines := by
  induction body with
  | nil => exact ⟨[], .nil⟩
  | cons i body ih =>
    obtain ⟨line, hline⟩ := h i List.mem_cons_self
    obtain ⟨lines, hlines⟩ := ih fun j hj => h j (List.mem_cons_of_mem i hj)
    exact ⟨line :: lines, .cons hline hlines⟩

theorem fail_mem_script (options : ListingOptions) (hi : i ∈ body)
    (hline : i.line (offsetWidth body) = .error e) : .fail e ∈ script options body := by
  have hstep : .fail e ∈ instructionSteps options (offsetWidth body) i := by
    simp [instructionSteps, hline]
  exact List.mem_append_left _ (List.mem_flatMap.mpr ⟨i, hi, hstep⟩)

/-- A listing that can be printed consists of the blocks of its instructions. -/
theorem exists_lines_of_text (h : Listing.text options body = .ok text) :
    ∃ lines,
      List.Forall₂ (fun i line => i.line (offsetWidth body) = .ok line) body lines ∧
        text = String.join (List.zipWith (block options) body lines) := by
  have hlines : ∀ i ∈ body, ∃ line, i.line (offsetWidth body) = .ok line := by
    intro i hi
    cases hline : i.line (offsetWidth body) with
    | ok line => exact ⟨line, rfl⟩
    | error e =>
      -- one instruction that cannot be printed makes the whole script fail
      have hfail := fail_mem_script options hi hline
      obtain ⟨e', w', hrun⟩ := Step.runAll_of_fail_mem hfail (Writer.ofSink Sink.unlimited)
      simp [Listing.text, Script.text, Script.run, hrun] at h
  obtain ⟨lines, hlines⟩ := exists_lines hlines
  rw [text_of_lines options hlines] at h
  exact ⟨lines, hlines, (Except.ok.inj h).symm⟩

end Listing

/-- The lines of a text that are not empty. -/
def textLines (s : String) : List (List Char) := (s.toList.splitOn '\n').filter (· ≠ [])

theorem textLines_empty : textLines "" = [] := rfl

theorem textLines_line_append (hline : IsLine line) (rest : String) :
    textLines (line ++ "\n" ++ rest) = line.toList :: textLines rest := by
  have hchars : (line ++ "\n" ++ rest).toList = line.toList ++ '\n' :: rest.toList := by simp
  rw [textLines, hchars, List.splitOn_append_cons_self_of_not_mem hline.oneLine,
    List.filter_cons_of_pos (by simpa using hline.ne_empty), textLines]

theorem textLines_lineFeed_append (rest : String) : textLines ("\n" ++ rest) = textLines rest := by
  have hchars : ("\n" ++ rest).toList = [] ++ '\n' :: rest.toList := by simp
  rw [textLines, hchars, List.splitOn_append_cons_self_of_not_mem List.not_mem_nil,
    List.filter_cons_of_neg (by simp), textLines]

theorem Listing.textLines_block_append (hline : IsLine line) (rest : String) :
    textLines (block options i line ++ rest) = line.toList :: textLines rest := by
  rw [block, String.append_assoc, textLines_line_append hline]
  split
  · rw [textLines_lineFeed_append]
  · rw [String.empty_append]

/-- The lines of a listing are found again, whatever empty lines are between them. -/
theorem Listing.textLines_blocks {p : Instruction → String → Prop}
    (hlines : List.Forall₂ p body lines) (h : ∀ line ∈ lines, IsLine line) :
    textLines (String.join (List.zipWith (block options) body lines)) =
      lines.map String.toList := by
  induction hlines with
  | nil => exact textLines_empty
  | @cons i line body lines _ _ ih =>
    have hlater := ih fun l hl => h l (List.mem_cons_of_mem line hl)
    rw [List.zipWith_cons_cons, String.join_cons,
      textLines_block_append (h line List.mem_cons_self), hlater, List.map_cons]

/-- Two listings with the same text have the same lines. -/
theorem Listing.lines_eq_of_text_eq {body' : List Instruction} {lines' : List String}
    {p p' : Instruction → String → Prop} (hlines : List.Forall₂ p body lines)
    (hlines' : List.Forall₂ p' body' lines') (h : ∀ line ∈ lines, IsLine line)
    (h' : ∀ line ∈ lines', IsLine line)
    (htext : String.join (List.zipWith (block options) body lines) =
      String.join (List.zipWith (block options) body' lines')) : lines = lines' := by
  have hsplit := congrArg textLines htext
  rw [textLines_blocks hlines h, textLines_blocks hlines' h'] at hsplit
  exact List.map_injective_iff.mpr (fun _ _ => String.toList_inj.mp) hsplit

end Cil
