import Cil.Error
import Cil.Reference.Basic

/-! The notation for types and members in instruction operands and declarations. -/
namespace Cil

/-- Types with a keyword of their own, by full name. The assembly does not matter. -/
def primitives : List (String × String) :=
  [ ("System.Object", "object"),
    ("System.Void", "void"),
    ("System.Boolean", "bool"),
    ("System.Char", "char"),
    ("System.String", "string"),
    ("System.TypedReference", "typedref"),
    ("System.SByte", "int8"),
    ("System.Int16", "int16"),
    ("System.Int32", "int32"),
    ("System.Int64", "int64"),
    ("System.Byte", "unsigned int8"),
    ("System.UInt16", "unsigned int16"),
    ("System.UInt32", "unsigned int32"),
    ("System.UInt64", "unsigned int64"),
    ("System.IntPtr", "native int"),
    ("System.UIntPtr", "native unsigned int"),
    ("System.Single", "float32"),
    ("System.Double", "float64") ]

def primitive? (fullName : String) : Option String := primitives.lookup fullName

/-- How a generic parameter is written: references give its position, declarations its name. -/
inductive ParameterStyle where
  | position
  | name
  deriving DecidableEq, Repr

def ParameterStyle.text : ParameterStyle → Nat → String → String
  | position, p, _ => Nat.repr p
  | name, _, n => n

namespace TypeRef

mutual

def textIn (style : ParameterStyle) : TypeRef → String
  | named assembly fullName =>
    match primitive? fullName with
    | some keyword => keyword
    | none => "[" ++ assembly ++ "]" ++ fullName
  | typeParameter p n => "!" ++ style.text p n
  | methodParameter p n => "!!" ++ style.text p n
  | pointer t => t.textIn style ++ "*"
  | byRef t => t.textIn style ++ "&"
  | array t rank => t.textIn style ++ "[" ++ String.ofList (List.replicate (rank - 1) ',') ++ "]"
  | instantiation t args =>
    t.textIn style ++ "<" ++ Text.commaSeparated (textsIn style args) ++ ">"

def textsIn (style : ParameterStyle) : List TypeRef → List String
  | [] => []
  | t :: ts => t.textIn style :: textsIn style ts

end

/-- The text of a type in a reference. -/
def text (t : TypeRef) : String := t.textIn .position

/-- The text of a type inside the declaration that names its generic parameters. -/
def declaredText (t : TypeRef) : String := t.textIn .name

/-- The texts of a list of types, comma separated. -/
def listText (ts : List TypeRef) : String := Text.commaSeparated (ts.map text)

end TypeRef

/-- The return type as printed; a constructor's is void whatever its signature says. -/
def MethodRef.returnText (m : MethodRef) : String :=
  match m.kind with
  | .constructor => "void"
  | .method => m.displaySignature.returnType.text

def MethodRef.text (m : MethodRef) : String :=
  (if m.isStatic then "" else "instance ") ++ m.returnText ++ " " ++ m.declaringType.text ++
    "::" ++ m.name ++
    (if m.isGeneric then "<" ++ TypeRef.listText m.genericArguments ++ ">" else "") ++
    "(" ++ TypeRef.listText m.displaySignature.parameters ++ ")"

/-- Fields have no printed form. -/
def FieldRef.text (_ : FieldRef) : Except Error String := .error (.unsupportedMember .field)

def MemberRef.text : MemberRef → Except Error String
  | type t => .ok t.text
  | method m => .ok m.text
  | field f => f.text

end Cil
