import Mathlib
import Cil.Declaration.Script
import Cil.Proofs.ListingText
import Cil.Proofs.ScriptText

/-! The text of declarations: their headers, and the blocks between their braces. -/
namespace Cil

open Writer (margin)

namespace MethodDecl

/-- The parameters of a method whose header is at the given depth. -/
def parametersAt (depth : Nat) (m : MethodDecl) : String :=
  let list := Text.commaSeparated (m.parameters.map Parameter.text)
  if m.parameters.length ≤ 1 then " (" ++ list ++ ") "
  else " (\n" ++ margin (depth + 1) ++ list ++ ") "

/-- The header of a method at the given depth: one line, or two if it has several parameters. -/
def headerAt (depth : Nat) (m : MethodDecl) : String :=
  margin depth ++ ".method " ++ spaced m.attributes.keywords ++
    (if m.isStatic then "" else "instance ") ++ m.returnType.declaredText ++ " " ++ m.name ++
    GenericParameter.listText m.genericParameters ++ m.parametersAt depth ++
    " ".intercalate m.implementation.keywords ++ "\n"

theorem commaSeparated_ne_empty {items : List String} (h : ¬ items.length ≤ 1) :
    Text.commaSeparated items ≠ "" := by
  match items with
  | [] | [_] => simp at h
  | s :: t :: items =>
    intro hempty
    rw [Text.commaSeparated, String.intercalate_cons_cons] at hempty
    simp at hempty

theorem leaveOpen_parameterSteps (m : MethodDecl) : Step.leaveOpen m.parameterSteps true = true := by
  unfold parameterSteps
  split <;> simp [Step.leaveOpen, Step.leavesOpen]

theorem textsAt_parameterSteps (depth : Nat) (m : MethodDecl) :
    Step.textsAt m.parameterSteps depth true = m.parametersAt depth := by
  unfold parameterSteps parametersAt
  by_cases hone : m.parameters.length ≤ 1
  · simp [hone, Step.textsAt, Step.textAt, Step.leavesOpen, String.append_assoc]
  · have hlist : Text.commaSeparated (m.parameters.map Parameter.text) ≠ "" :=
      commaSeparated_ne_empty (by simpa using hone)
    simp [hone, Step.textsAt, Step.textAt, Step.leavesOpen, Step.leaveOpen, hlist,
      Writer.pieceAt_closed, String.append_assoc]

theorem leaveOpen_steps (options : ListingOptions) (m : MethodDecl) :
    Step.leaveOpen (m.steps options) false = false := by
  simp [steps, Step.leaveOpen_append, Step.leaveOpen, Step.leavesOpen]

/-- A method is its header and its listing, one level deeper, in braces. -/
theorem textsAt_steps (options : ListingOptions) (depth : Nat) (m : MethodDecl) :
    Step.textsAt (m.steps options) depth false =
      m.headerAt depth ++ (margin depth ++ "\x7b\n") ++
        Step.textsAt (Listing.steps options m.body) (depth + 1) false ++
          (margin depth ++ "\x7d\n") := by
  simp [steps, headerAt, Step.textsAt_append, Step.textsAt, Step.textAt, Step.leavesOpen,
    leaveOpen_parameterSteps, textsAt_parameterSteps, Listing.leaveOpen_steps,
    Writer.pieceAt_closed, String.append_assoc]

end MethodDecl

theorem MemberDecl.leaveOpen_steps (options : ListingOptions) (member : MemberDecl) :
    Step.leaveOpen (member.steps options) false = false := by
  cases member with
  | method m => exact m.leaveOpen_steps options
  | _ => rfl

namespace TypeDecl

/-- The first line of a type. -/
def header (t : TypeDecl) : String :=
  ".class " ++ spaced t.attributes.keywords ++ t.fullName ++
    GenericParameter.listText t.genericParameters ++ "\n"

/-- The line of the base type, if there is one. -/
def baseLine (t : TypeDecl) : String :=
  match t.baseType with
  | some base => Writer.indentation ++ "extends " ++ base.text ++ "\n"
  | none => ""

theorem leaveOpen_baseSteps (t : TypeDecl) : Step.leaveOpen t.baseSteps false = false := by
  unfold baseSteps
  split <;> rfl

theorem textsAt_baseSteps (t : TypeDecl) : Step.textsAt t.baseSteps 0 false = t.baseLine := by
  unfold baseSteps baseLine
  cases t.baseType with
  | none => rfl
  | some base =>
    simp [Step.textsAt, Step.textAt, Step.leavesOpen, Writer.pieceAt_closed, margin,
      String.append_assoc]

theorem leaveOpen_steps (options : ListingOptions) (t : TypeDecl) :
    Step.leaveOpen (t.steps options) false = false := by
  simp [steps, Step.leaveOpen_append, Step.leaveOpen, Step.leavesOpen]

/-- A type is its header and its members, one level deeper, in braces, and an empty line. -/
theorem textsAt_steps (options : ListingOptions) (t : TypeDecl) :
    Step.textsAt (t.steps options) 0 false =
      t.header ++ t.baseLine ++ "\x7b\n" ++
        String.join (t.members.map fun member => Step.textsAt (member.steps options) 1 false) ++
          "\x7d\n\n" := by
  have hmembers := Step.textsAt_flatMap t.members 1 (MemberDecl.leaveOpen_steps options)
  have hclosed := Step.leaveOpen_flatMap t.members (MemberDecl.leaveOpen_steps options)
  simp [steps, header, Step.textsAt_append, Step.textsAt, Step.textAt, Step.leavesOpen,
    leaveOpen_baseSteps, textsAt_baseSteps, hmembers, hclosed, Writer.pieceAt_closed, margin,
    String.append_assoc]

end TypeDecl

/-- The two lines of an assembly. -/
def AssemblyDecl.header (a : AssemblyDecl) : String :=
  ".assembly " ++ a.name ++ "\n" ++ "\x7b\x7d\n"

theorem AssemblyDecl.textsAt_steps (options : ListingOptions) (a : AssemblyDecl) :
    Step.textsAt (a.steps options) 0 false =
      a.header ++ String.join (a.types.map fun t => Step.textsAt (t.steps options) 0 false) := by
  have htypes := Step.textsAt_flatMap a.types 0 (TypeDecl.leaveOpen_steps options)
  have hheader : ∀ s, a.header ++ s = ".assembly " ++ (a.name ++ ("\n" ++ ("\x7b\x7d\n" ++ s))) := by
    intro s
    simp only [header, String.append_assoc]
  rw [hheader]
  simp [steps, Step.textsAt, Step.textAt, Step.leavesOpen, htypes, Writer.pieceAt_closed, margin,
    String.append_assoc]

end Cil
