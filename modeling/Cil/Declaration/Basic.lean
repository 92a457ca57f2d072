import Cil.Attributes
import Cil.Error
import Cil.Instruction

/-! Declarations of assemblies, types and methods, and what of them has no printed form. -/
namespace Cil

structure GenericParameter where
  name : String
  attributes : GenericAttributes
  constraints : List TypeRef
  deriving DecidableEq, Repr

structure Parameter where
  type : TypeRef
  name : Option String
  deriving DecidableEq, Repr

structure MethodDecl where
  name : String
  attributes : MethodAttributes
  implementation : ImplAttributes
  returnType : TypeRef
  parameters : List Parameter
  genericParameters : List GenericParameter
  body : List Instruction
  deriving DecidableEq, Repr

/-- A member of a type. Only methods are ever printed. All others are refused for their kind and
never looked into, so that a name is all there is to a field, and to a nested type as well: what it
declares has no effect on anything. -/
inductive MemberDecl where
  | method (method : MethodDecl)
  | field (name : String)
  | event (name : String)
  | property (name : String)
  | constructor (method : MethodDecl)
  | nestedType (name : String)
  deriving DecidableEq, Repr

structure TypeDecl where
  fullName : String
  attributes : TypeAttributes
  genericParameters : List GenericParameter
  baseType : Option TypeRef
  members : List MemberDecl
  deriving DecidableEq, Repr

structure AssemblyDecl where
  name : String
  types : List TypeDecl
  deriving DecidableEq, Repr

inductive Declaration where
  | assembly (decl : AssemblyDecl)
  | type (decl : TypeDecl)
  | method (decl : MethodDecl)
  deriving DecidableEq, Repr

def Operand.isField : Operand → Bool
  | member (.field _) => true
  | _ => false

namespace MethodDecl

def isStatic (m : MethodDecl) : Bool := MethodAttributes.static.isIn m.attributes.bits

def isPinvoke (m : MethodDecl) : Bool := MethodAttributes.pinvoke.isIn m.attributes.bits

/-- What makes a method unprintable: foreign code first, then a field operand in its body. -/
def unsupported? (m : MethodDecl) : Option MemberKind :=
  if m.isPinvoke then some .pinvoke
  else if m.body.any (·.operand.isField) then some .field
  else none

end MethodDecl

def MemberDecl.unsupported? : MemberDecl → Option MemberKind
  | method m => m.unsupported?
  | field _ => some .field
  | event _ => some .event
  | property _ => some .property
  | constructor _ => some .constructor
  | nestedType _ => some .nestedType

/-- The kind of the first member that has no printed form. -/
def TypeDecl.unsupported? (t : TypeDecl) : Option MemberKind :=
  t.members.findSome? MemberDecl.unsupported?

def AssemblyDecl.unsupported? (a : AssemblyDecl) : Option MemberKind :=
  a.types.findSome? TypeDecl.unsupported?

def Declaration.unsupported? : Declaration → Option MemberKind
  | assembly a => a.unsupported?
  | type t => t.unsupported?
  | method m => m.unsupported?

end Cil
