/-! Attribute columns of declarations: named flags and the keywords they stand for. -/
namespace Cil

/-- A named pattern of bits in an attribute column. -/
structure Flag where
  name : String
  mask : UInt32
  deriving DecidableEq, Repr

namespace Flag

/-- Whether all bits of the flag are set. -/
def isIn (f : Flag) (bits : UInt32) : Bool := bits &&& f.mask == f.mask

/-- The keywords of those flags that are set, in the order given. -/
def keywords (bits : UInt32) (table : List (Flag × String)) : List String :=
  (table.filter (·.1.isIn bits)).map (·.2)

end Flag

/-- The attributes of a type. -/
structure TypeAttributes where
  bits : UInt32
  deriving DecidableEq, Repr

namespace TypeAttributes

def sequentialLayout : Flag := ⟨"SEQUENTIAL_LAYOUT", 0x8⟩

def explicitLayout : Flag := ⟨"EXPLICIT_LAYOUT", 0x10⟩

def interface : Flag := ⟨"INTERFACE", 0x20⟩

def abstract : Flag := ⟨"ABSTRACT", 0x80⟩

def sealed : Flag := ⟨"SEALED", 0x100⟩

def specialName : Flag := ⟨"SPECIAL_NAME", 0x400⟩

def runtimeSpecialName : Flag := ⟨"RT_SPECIAL_NAME", 0x800⟩

def serializable : Flag := ⟨"SERIALIZABLE", 0x2000⟩

def beforeFieldInit : Flag := ⟨"BEFORE_FIELD_INIT", 0x100000⟩

def flags : List Flag :=
  [ ⟨"PUBLIC", 0x1⟩,
    ⟨"NESTED_PUBLIC", 0x2⟩,
    ⟨"NESTED_PRIVATE", 0x3⟩,
    ⟨"NESTED_FAMILY", 0x4⟩,
    ⟨"NESTED_ASSEMBLY", 0x5⟩,
    ⟨"NESTED_FAM_AND_ASSEM", 0x6⟩,
    ⟨"NESTED_FAM_OR_ASSEM", 0x7⟩,
    sequentialLayout,
    explicitLayout,
    interface,
    abstract,
    sealed,
    specialName,
    runtimeSpecialName,
    ⟨"IMPORT", 0x1000⟩,
    serializable,
    ⟨"UNICODE_CLASS", 0x10000⟩,
    ⟨"AUTO_CLASS", 0x20000⟩,
    beforeFieldInit ]

/-- The lowest three bits; a type at the top level that is not public is private. -/
def visibility (a : TypeAttributes) : String :=
  match (a.bits &&& 0x7).toNat with
  | 0 => "private"
  | 1 => "public"
  | 2 => "nested public"
  | 3 => "nested private"
  | 4 => "nested family"
  | 5 => "nested assembly"
  | 6 => "nested famandassem"
  | _ => "nested famorassem"

/-- The explicit layout wins if both layout bits are set. -/
def layout (a : TypeAttributes) : String :=
  if explicitLayout.isIn a.bits then "explicit"
  else if sequentialLayout.isIn a.bits then "sequential"
  else "auto"

def stringFormat (a : TypeAttributes) : String :=
  match (a.bits &&& 0x30000).toNat with
  | 0 => "ansi"
  | 0x10000 => "unicode"
  | _ => "autochar"

/-- The keywords of a type declaration, in order. -/
def keywords (a : TypeAttributes) : List String :=
  Flag.keywords a.bits [(interface, "interface"), (abstract, "abstract")] ++
    [a.visibility, a.layout, a.stringFormat] ++
    Flag.keywords a.bits
      [ (sealed, "sealed"),
        (serializable, "serializable"),
        (beforeFieldInit, "beforefieldinit"),
        (specialName, "specialname"),
        (runtimeSpecialName, "rtspecialname") ]

end TypeAttributes

/-- The attributes of a method. -/
structure MethodAttributes where
  bits : UInt32
  deriving DecidableEq, Repr

namespace MethodAttributes

def static : Flag := ⟨"STATIC", 0x10⟩

def final : Flag := ⟨"FINAL", 0x20⟩

def virtual : Flag := ⟨"VIRTUAL", 0x40⟩

def hideBySig : Flag := ⟨"HIDE_BY_SIG", 0x80⟩

def newSlot : Flag := ⟨"NEW_SLOT", 0x100⟩

def strict : Flag := ⟨"STRICT", 0x200⟩

def specialName : Flag := ⟨"SPECIAL_NAME", 0x800⟩

def runtimeSpecialName : Flag := ⟨"RT_SPECIAL_NAME", 0x1000⟩

def pinvoke : Flag := ⟨"PINVOKE_IMPL", 0x2000⟩

def flags : List Flag :=
  [ ⟨"PRIVATE", 0x1⟩,
    ⟨"FAM_AND_ASSEM", 0x2⟩,
    ⟨"ASSEM", 0x3⟩,
    ⟨"FAMILY", 0x4⟩,
    ⟨"FAM_OR_ASSEM", 0x5⟩,
    ⟨"PUBLIC", 0x6⟩,
    static,
    final,
    virtual,
    hideBySig,
    newSlot,
    strict,
    ⟨"ABSTRACT", 0x400⟩,
    specialName,
    runtimeSpecialName,
    pinvoke,
    ⟨"HAS_SECURITY", 0x4000⟩,
    ⟨"REQUIRE_SEC_OBJECT", 0x8000⟩ ]

/-- The lowest three bits; the unused value 7 counts as public. -/
def access (a : MethodAttributes) : String :=
  match (a.bits &&& 0x7).toNat with
  | 0 => "compilercontrolled"
  | 1 => "private"
  | 2 => "famandassem"
  | 3 => "assembly"
  | 4 => "family"
  | 5 => "famorassem"
  | _ => "public"

/-- The keywords of a method declaration, in order. -/
def keywords (a : MethodAttributes) : List String :=
  a.access ::
    Flag.keywords a.bits
      [ (hideBySig, "hidebysig"),
        (final, "final"),
        (newSlot, "newslot"),
        (specialName, "specialname"),
        (runtimeSpecialName, "rtspecialname"),
        (static, "static"),
        (strict, "strict"),
        (virtual, "virtual") ]

end MethodAttributes

/-- The attributes of a method's implementation. -/
structure ImplAttributes where
  bits : UInt32
  deriving DecidableEq, Repr

namespace ImplAttributes

def unmanaged : Flag := ⟨"UNMANAGED", 0x4⟩

def noInlining : Flag := ⟨"NO_INLINING", 0x8⟩

def forwardRef : Flag := ⟨"FORWARD_REF", 0x10⟩

def synchronized : Flag := ⟨"SYNCHRONIZED", 0x20⟩

def noOptimization : Flag := ⟨"NO_OPTIMIZATION", 0x40⟩

def internalCall : Flag := ⟨"INTERNAL_CALL", 0x1000⟩

def flags : List Flag :=
  [ ⟨"NATIVE", 0x1⟩,
    ⟨"OPTIL", 0x2⟩,
    ⟨"RUNTIME", 0x3⟩,
    unmanaged,
    noInlining,
    forwardRef,
    synchronized,
    noOptimization,
    ⟨"PRESERVE_SIG", 0x80⟩,
    ⟨"AGGRESSIVE_INLINING", 0x100⟩,
    internalCall ]

def codeType (a : ImplAttributes) : String :=
  match (a.bits &&& 0x3).toNat with
  | 0 => "cil"
  | 1 => "native"
  | 2 => "optil"
  | _ => "runtime"

def management (a : ImplAttributes) : String :=
  if unmanaged.isIn a.bits then "unmanaged" else "managed"

/-- The keywords after the parameters of a method declaration, in order. -/
def keywords (a : ImplAttributes) : List String :=
  a.codeType :: a.management ::
    Flag.keywords a.bits
      [ (forwardRef, "forwardref"),
        (internalCall, "internalcall"),
        (noInlining, "noinlining"),
        (noOptimization, "nooptimization"),
        (synchronized, "synchronized") ]

end ImplAttributes

/-- The attributes of a generic parameter. -/
structure GenericAttributes where
  bits : UInt16
  deriving DecidableEq, Repr

namespace GenericAttributes

def covariant : Flag := ⟨"COVARIANT", 0x1⟩

def contravariant : Flag := ⟨"CONTRAVARIANT", 0x2⟩

def referenceType : Flag := ⟨"REFERENCE_TYPE_CONSTRAINT", 0x4⟩

def valueType : Flag := ⟨"NOT_NULLABLE_VALUE_TYPE_CONSTRAINT", 0x8⟩

def defaultConstructor : Flag := ⟨"DEFAULT_CONSTRUCTOR_CONSTRAINT", 0x10⟩

def flags : List Flag :=
  [covariant, contravariant, referenceType, valueType, defaultConstructor]

/-- The constraints that a keyword expresses, in order. -/
def constraintKeywords (a : GenericAttributes) : List String :=
  Flag.keywords a.bits.toUInt32
    [(valueType, "valuetype"), (referenceType, "class"), (defaultConstructor, ".ctor")]

def varianceMarks (a : GenericAttributes) : List String :=
  Flag.keywords a.bits.toUInt32 [(covariant, "+"), (contravariant, "-")]

end GenericAttributes

end Cil
