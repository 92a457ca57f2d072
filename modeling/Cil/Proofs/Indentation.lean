import Mathlib
import Cil.Proofs.OneLine
import Cil.Proofs.ScriptText

/-! To print one level deeper is to print and then to indent every line. -/
namespace Cil

variable {cs : List Char} {text : String} {steps : List Step}

/-- The line with an indentation in front of it, unless it is empty. -/
def indentLine (line : List Char) : List Char :=
  if line = [] then [] else Writer.indentation.toList ++ line

/-- The text with four spaces in front of every line that is not empty. -/
def indent (s : String) : String :=
  String.ofList (['\n'].intercalate ((s.toList.splitOn '\n').map indentLine))

/-- Indentation character by character, from a line that has text already or not. -/
def indentChars : (lineOpen : Bool) → List Char → List Char
  | _, [] => []
  | lineOpen, c :: cs =>
    if c = '\n' then '\n' :: indentChars false cs
    else if lineOpen then c :: indentChars true cs
    else Writer.indentation.toList ++ c :: indentChars true cs

/-- Whether the last line has text after some characters. -/
def openAfter : (lineOpen : Bool) → List Char → Bool
  | lineOpen, [] => lineOpen
  | _, c :: cs => openAfter (c ≠ '\n') cs

theorem openAfter_append (lineOpen : Bool) (front back : List Char) :
    openAfter lineOpen (front ++ back) = openAfter (openAfter lineOpen front) back := by
  induction front generalizing lineOpen with
  | nil => rfl
  | cons c front ih => exact ih _

theorem indentChars_append (lineOpen : Bool) (front back : List Char) :
    indentChars lineOpen (front ++ back) =
      indentChars lineOpen front ++ indentChars (openAfter lineOpen front) back := by
  induction front generalizing lineOpen with
  | nil => rfl
  | cons c front ih =>
    by_cases hc : c = '\n'
    · simp [indentChars, openAfter, hc, ih]
    · cases lineOpen <;> simp [indentChars, openAfter, hc, ih]

theorem openAfter_of_oneLine (h : '\n' ∉ cs) (lineOpen : Bool) :
    openAfter lineOpen cs = (lineOpen || cs ≠ []) := by
  induction cs generalizing lineOpen with
  | nil => simp [openAfter]
  | cons c cs ih =>
    obtain ⟨hc, hcs⟩ := List.ne_and_not_mem_of_not_mem_cons h
    have hc' : c ≠ '\n' := hc.symm
    rw [openAfter, ih hcs]
    simp [hc']

/-- Where a line has text already, the rest of it stays as it is. -/
theorem indentChars_open (h : '\n' ∉ cs) : indentChars true cs = cs := by
  induction cs with
  | nil => rfl
  | cons c cs ih =>
    obtain ⟨hc, hcs⟩ := List.ne_and_not_mem_of_not_mem_cons h
    have hc' : c ≠ '\n' := hc.symm
    simp [indentChars, hc', ih hcs]

theorem indentChars_closed (h : '\n' ∉ cs) : indentChars false cs = indentLine cs := by
  cases cs with
  | nil => rfl
  | cons c cs =>
    obtain ⟨hc, hcs⟩ := List.ne_and_not_mem_of_not_mem_cons h
    have hc' : c ≠ '\n' := hc.symm
    simp [indentChars, indentLine, hc', indentChars_open hcs]

/-- Going through the characters comes to the same as going through the lines. -/
theorem indentChars_eq (cs : List Char) :
    indentChars false cs = ['\n'].intercalate ((cs.splitOn '\n').map indentLine) := by
  by_cases hmem : '\n' ∈ cs
  · obtain ⟨line, rest, rfl, hline⟩ := List.eq_append_cons_of_mem hmem
    have hrest : ((rest.splitOn '\n').map indentLine) ≠ [] := by simp
    have hlater : indentChars (openAfter false line) ('\n' :: rest) =
        '\n' :: indentChars false rest := by simp [indentChars]
    rw [List.splitOn_append_cons_self_of_not_mem hline, List.map_cons,
      List.intercalate_cons_of_ne_nil hrest, ← indentChars_eq rest, indentChars_append,
      indentChars_closed hline, hlater]
    simp
  · rw [List.splitOn_eq_singleton hmem, indentChars_closed hmem]
    simp
termination_by cs.length
decreasing_by
  subst_vars
  simp
  omega

theorem toList_indent (s : String) : (indent s).toList = indentChars false s.toList := by
  rw [indent, String.toList_ofList, indentChars_eq]

example : indent "a\n\n  b\n" = "    a\n\n      b\n" := by cbv

/-- `deeper` is `text` one level deeper, where the line has text before it and after it or not. -/
structure Indents (before : Bool) (text deeper : String) (after : Bool) : Prop where
  deeper_eq : deeper.toList = indentChars before text.toList
  after_eq : openAfter before text.toList = after

theorem Indents.nothing (lineOpen : Bool) : Indents lineOpen "" "" lineOpen := ⟨rfl, rfl⟩

theorem Indents.append {before middle after : Bool} {s s' t t' : String}
    (hs : Indents before s s' middle) (ht : Indents middle t t' after) :
    Indents before (s ++ t) (s' ++ t') after := by
  constructor
  · rw [String.toList_append, String.toList_append, indentChars_append, hs.after_eq, hs.deeper_eq,
      ht.deeper_eq]
  · rw [String.toList_append, openAfter_append, hs.after_eq, ht.after_eq]

theorem Indents.lineFeed (lineOpen : Bool) : Indents lineOpen "\n" "\n" false := by
  constructor <;> simp [indentChars, openAfter]

theorem Indents.eq_indent {deeper : String} {after : Bool} (h : Indents false text deeper after) :
    deeper = indent text := by
  apply String.toList_inj.mp
  rw [toList_indent]
  exact h.deeper_eq

namespace Writer

theorem oneLine_margin (depth : Nat) : OneLine (margin depth) := by
  induction depth with
  | zero => decide
  | succ depth ih =>
    rw [margin, oneLine_append]
    exact ⟨by decide, ih⟩

theorem indents_pieceAt (h : OneLine text) (depth : Nat) (lineOpen : Bool) :
    Indents lineOpen (pieceAt depth lineOpen text) (pieceAt (depth + 1) lineOpen text)
      (lineOpen || text ≠ "") := by
  by_cases hempty : text = ""
  · subst hempty
    simpa using Indents.nothing lineOpen
  · cases lineOpen with
    | true =>
      rw [pieceAt_open, pieceAt_open]
      exact ⟨(indentChars_open h).symm, by rw [openAfter_of_oneLine h]; simp⟩
    | false =>
      have hline : OneLine (margin depth ++ text) := oneLine_append.mpr ⟨oneLine_margin depth, h⟩
      have hchars : (margin depth ++ text).toList ≠ [] := by simp [hempty]
      rw [pieceAt_closed _ hempty, pieceAt_closed _ hempty]
      constructor
      · rw [indentChars_closed hline, indentLine, if_neg hchars, margin, String.append_assoc,
          String.toList_append]
      · rw [openAfter_of_oneLine hline]
        simp [hempty]

end Writer

namespace Step

mutual

/-- The pieces of text that a step writes. -/
def pieces : Step → List String
  | append text | line text => [text]
  | endLine | flush | note _ | fail _ => []
  | group body | indented body => allPieces body

def allPieces : List Step → List String
  | [] => []
  | step :: steps => step.pieces ++ allPieces steps

end

theorem allPieces_append (front back : List Step) :
    allPieces (front ++ back) = allPieces front ++ allPieces back := by
  induction front with
  | nil => rfl
  | cons step front ih => rw [List.cons_append, allPieces, allPieces, ih, List.append_assoc]

theorem allPieces_notes (notes : List LogRecord) : allPieces (notes.map note) = [] := by
  induction notes with
  | nil => rfl
  | cons record notes ih => exact ih

theorem allPieces_flatMap {α : Type} (f : α → List Step) (items : List α) :
    allPieces (items.flatMap f) = items.flatMap fun a => allPieces (f a) := by
  induction items with
  | nil => rfl
  | cons a items ih => rw [List.flatMap_cons, allPieces_append, ih, List.flatMap_cons]

mutual

theorem indents_textAt : (step : Step) → (∀ p ∈ step.pieces, OneLine p) →
    ∀ (depth : Nat) (lineOpen : Bool), Indents lineOpen (step.textAt depth lineOpen)
      (step.textAt (depth + 1) lineOpen) (step.leavesOpen lineOpen)
  | append text, h, depth, lineOpen => Writer.indents_pieceAt (h text (by simp [pieces])) _ _
  | endLine, _, _, lineOpen => .lineFeed lineOpen
  | line text, h, depth, lineOpen =>
    (Writer.indents_pieceAt (h text (by simp [pieces])) _ _).append (.lineFeed _)
  | flush, _, _, lineOpen | note _, _, _, lineOpen | fail _, _, _, lineOpen => .nothing lineOpen
  | group body, h, depth, lineOpen => indents_textsAt body h depth lineOpen
  | indented body, h, depth, lineOpen => indents_textsAt body h (depth + 1) lineOpen

theorem indents_textsAt : (steps : List Step) → (∀ p ∈ allPieces steps, OneLine p) →
    ∀ (depth : Nat) (lineOpen : Bool), Indents lineOpen (textsAt steps depth lineOpen)
      (textsAt steps (depth + 1) lineOpen) (leaveOpen steps lineOpen)
  | [], _, _, lineOpen => .nothing lineOpen
  | step :: steps, h, depth, lineOpen =>
    (indents_textAt step (fun p hp => h p (List.mem_append_left _ hp)) depth lineOpen).append
      (indents_textsAt steps (fun p hp => h p (List.mem_append_right _ hp)) depth _)

end

/-- Steps whose pieces have no line feed are printed one level deeper by indenting what they are
printed as. -/
theorem textsAt_succ (h : ∀ p ∈ allPieces steps, OneLine p) (depth : Nat) :
    textsAt steps (depth + 1) false = indent (textsAt steps depth false) :=
  (indents_textsAt steps h depth false).eq_indent

end Step

end Cil
