import Cil.Declaration.Basic
import Cil.Listing

/-! The printed form of declarations. -/
namespace Cil

/-- Every word followed by a space. -/
def spaced (words : List String) : String := String.join (words.map (· ++ " "))

namespace GenericParameter

def text (p : GenericParameter) : String :=
  spaced p.attributes.constraintKeywords ++
    (if p.constraints.isEmpty then ""
      else "(" ++ Text.commaSeparated (p.constraints.map TypeRef.declaredText) ++ ") ") ++
    String.join p.attributes.varianceMarks ++ p.name

/-- The list of generic parameters after a name; there is none if it is empty. -/
def listText (ps : List GenericParameter) : String :=
  if ps.isEmpty then "" else "<" ++ Text.commaSeparated (ps.map text) ++ ">"

end GenericParameter

def Parameter.text (p : Parameter) : String :=
  match p.name with
  | some name => p.type.declaredText ++ " " ++ name
  | none => p.type.declaredText

namespace MethodDecl

/-- A single parameter stays on the line of the method's name, several get a line of their own. -/
def parameterSteps (m : MethodDecl) : List Step :=
  let list := Text.commaSeparated (m.parameters.map Parameter.text)
  if m.parameters.length ≤ 1 then [.append " (", .append list, .append ") "]
  else [.line " (", .indented [.append list], .append ") "]

def steps (options : ListingOptions) (m : MethodDecl) : List Step :=
  [ .append ".method ",
    .append (spaced m.attributes.keywords),
    .append (if m.isStatic then "" else "instance "),
    .append m.returnType.declaredText,
    .append " ",
    .append m.name,
    .append (GenericParameter.listText m.genericParameters) ] ++
  m.parameterSteps ++
  [ .line (" ".intercalate m.implementation.keywords),
    .line "\x7b",
    .indented (Listing.steps options m.body),
    .line "\x7d" ]

end MethodDecl

def MemberDecl.steps (options : ListingOptions) : MemberDecl → List Step
  | method m => m.steps options
  | _ => []

namespace TypeDecl

def baseSteps (t : TypeDecl) : List Step :=
  match t.baseType with
  | some base => [.indented [.append "extends ", .line base.text]]
  | none => []

def steps (options : ListingOptions) (t : TypeDecl) : List Step :=
  [ .append ".class ",
    .append (spaced t.attributes.keywords),
    .append t.fullName,
    .append (GenericParameter.listText t.genericParameters),
    .endLine ] ++
  t.baseSteps ++
  [ .line "\x7b",
    .indented (t.members.flatMap (MemberDecl.steps options)),
    .line "\x7d",
    .endLine ]

end TypeDecl

def AssemblyDecl.steps (options : ListingOptions) (a : AssemblyDecl) : List Step :=
  [ .note (.assembly a.name a.types.length),
    .append ".assembly ",
    .line a.name,
    .line "\x7b\x7d" ] ++
  a.types.flatMap (TypeDecl.steps options)

namespace Declaration

def steps (options : ListingOptions) : Declaration → List Step
  | assembly a => a.steps options
  | type t => t.steps options
  | method m => m.steps options

/-- A declaration on its own, flushed at the end. One with an unsupported member is refused before
anything is written. -/
def script (options : ListingOptions) (d : Declaration) : List Step :=
  match d.unsupported? with
  | some kind => [.note (.refused kind), .fail (.unsupportedMember kind)]
  | none => d.steps options ++ [.flush]

end Declaration

end Cil
