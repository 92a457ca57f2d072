import Cil.Text

/-! Metadata tokens, and the types, methods and fields that they refer to. -/
namespace Cil

/-- A table number in the high byte and a row number in the other three. -/
structure Token where
  raw : UInt32
  deriving DecidableEq, Hashable, Repr

namespace Token

def table (t : Token) : UInt8 := (t.raw >>> 24).toUInt8

def row (t : Token) : UInt32 := t.raw &&& 0x00FFFFFF

/-- A token with row zero refers to nothing, whatever its table. -/
def isNull (t : Token) : Bool := t.row == 0

def compare (a b : Token) : Ordering := Ord.compare a.raw b.raw

def text (t : Token) : String := "0x" ++ Text.hexLower 8 t.raw.toNat

/-- The token taken apart into table and row, for diagnostics. -/
def details (t : Token) : String :=
  "Token(" ++ t.text ++ ", table: 0x" ++ Text.hexLower 2 t.table.toNat ++ ", row: " ++
    Nat.repr t.row.toNat ++ ")"

end Token

/-- A reference to a type. Generic parameters carry a position and the name they were declared
under. -/
inductive TypeRef where
  | named (assembly fullName : String)
  | typeParameter (position : Nat) (name : String)
  | methodParameter (position : Nat) (name : String)
  | pointer (target : TypeRef)
  | byRef (target : TypeRef)
  | array (element : TypeRef) (rank : Nat)
  | instantiation (definition : TypeRef) (arguments : List TypeRef)
  deriving Repr

namespace TypeRef

mutual

def decEq : (s t : TypeRef) → Decidable (s = t)
  | named a f, named b g =>
    if h : a = b ∧ f = g then .isTrue (by rw [h.1, h.2]) else .isFalse (by simpa using h)
  | typeParameter p n, typeParameter q m =>
    if h : p = q ∧ n = m then .isTrue (by rw [h.1, h.2]) else .isFalse (by simpa using h)
  | methodParameter p n, methodParameter q m =>
    if h : p = q ∧ n = m then .isTrue (by rw [h.1, h.2]) else .isFalse (by simpa using h)
  | pointer s, pointer t =>
    match decEq s t with
    | .isTrue h => .isTrue (by rw [h])
    | .isFalse h => .isFalse (by simpa using h)
  | byRef s, byRef t =>
    match decEq s t with
    | .isTrue h => .isTrue (by rw [h])
    | .isFalse h => .isFalse (by simpa using h)
  | array s m, array t n =>
    match decEq s t with
    | .isTrue h =>
      if hr : m = n then .isTrue (by rw [h, hr]) else .isFalse (by simp [hr])
    | .isFalse h => .isFalse (by simp [h])
  | instantiation s ss, instantiation t ts =>
    match decEq s t with
    | .isTrue h =>
      match decEqList ss ts with
      | .isTrue hs => .isTrue (by rw [h, hs])
      | .isFalse hs => .isFalse (by simp [hs])
    | .isFalse h => .isFalse (by simp [h])
  | named .., typeParameter .. | named .., methodParameter .. | named .., pointer ..
  | named .., byRef .. | named .., array .. | named .., instantiation ..
  | typeParameter .., named .. | typeParameter .., methodParameter ..
  | typeParameter .., pointer .. | typeParameter .., byRef .. | typeParameter .., array ..
  | typeParameter .., instantiation .. | methodParameter .., named ..
  | methodParameter .., typeParameter .. | methodParameter .., pointer ..
  | methodParameter .., byRef .. | methodParameter .., array ..
  | methodParameter .., instantiation .. | pointer .., named .. | pointer .., typeParameter ..
  | pointer .., methodParameter .. | pointer .., byRef .. | pointer .., array ..
  | pointer .., instantiation .. | byRef .., named .. | byRef .., typeParameter ..
  | byRef .., methodParameter .. | byRef .., pointer .. | byRef .., array ..
  | byRef .., instantiation .. | array .., named .. | array .., typeParameter ..
  | array .., methodParameter .. | array .., pointer .. | array .., byRef ..
  | array .., instantiation .. | instantiation .., named .. | instantiation .., typeParameter ..
  | instantiation .., methodParameter .. | instantiation .., pointer ..
  | instantiation .., byRef .. | instantiation .., array .. => .isFalse (by simp)

def decEqList : (ss ts : List TypeRef) → Decidable (ss = ts)
  | [], [] => .isTrue rfl
  | [], _ :: _ | _ :: _, [] => .isFalse (by simp)
  | s :: ss, t :: ts =>
    match decEq s t with
    | .isTrue h =>
      match decEqList ss ts with
      | .isTrue hs => .isTrue (by rw [h, hs])
      | .isFalse hs => .isFalse (by simp [hs])
    | .isFalse h => .isFalse (by simp [h])

end

instance : DecidableEq TypeRef := decEq

/-- The assembly that holds the primitive types. -/
def coreLibrary : String := "System.Private.CoreLib"

/-- A type of the core library. -/
def system (fullName : String) : TypeRef := named coreLibrary fullName

def isGenericParameter : TypeRef → Bool
  | typeParameter .. | methodParameter .. => true
  | _ => false

end TypeRef

structure MethodSignature where
  returnType : TypeRef
  parameters : List TypeRef
  deriving DecidableEq, Repr

inductive MethodKind where
  | method
  | constructor
  deriving DecidableEq, Repr

/-- A reference to a method. An instantiated generic method also carries the signature of its
definition, in terms of its generic parameters. -/
structure MethodRef where
  declaringType : TypeRef
  name : String
  kind : MethodKind
  isStatic : Bool
  signature : MethodSignature
  genericArguments : List TypeRef
  genericDefinition : Option MethodSignature
  deriving DecidableEq, Repr

namespace MethodRef

def isGeneric (m : MethodRef) : Bool := !m.genericArguments.isEmpty

/-- The signature to print: that of the generic definition if there is one. -/
def displaySignature (m : MethodRef) : MethodSignature := m.genericDefinition.getD m.signature

end MethodRef

structure FieldRef where
  declaringType : TypeRef
  name : String
  type : TypeRef
  deriving DecidableEq, Repr

/-- What a type, method or field token refers to. -/
inductive MemberRef where
  | type (type : TypeRef)
  | method (method : MethodRef)
  | field (field : FieldRef)
  deriving DecidableEq, Repr

end Cil
