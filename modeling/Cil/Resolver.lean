import Cil.Error
import Cil.Reference.Basic
import Std.Data.HashMap

/-! What the tokens of a body refer to. -/
namespace Cil

/-- The three lookups that decoding makes. -/
structure Resolver where
  member : Token → Except ResolutionError MemberRef
  string : Token → Except ResolutionError String
  signature : Token → Except ResolutionError (List UInt8)

/-- The same lookups, but every failure is reported as `error`. -/
def Resolver.failingWith (r : Resolver) (error : ResolutionError) : Resolver where
  member t := (r.member t).mapError fun _ => error
  string t := (r.string t).mapError fun _ => error
  signature t := (r.signature t).mapError fun _ => error

/-- What can be registered under a token. -/
inductive Entry where
  | member (value : MemberRef)
  | string (value : String)
  | signature (blob : List UInt8)
  deriving DecidableEq, Repr

/-- Members, strings and signatures by token. The three are separate: one token may have an entry
in each. -/
structure TokenTable where
  members : Std.HashMap Token MemberRef
  strings : Std.HashMap Token String
  signatures : Std.HashMap Token (List UInt8)

namespace TokenTable

def empty : TokenTable := ⟨∅, ∅, ∅⟩

/-- Registers an entry, in place of an earlier one of the same sort. -/
def insert (table : TokenTable) (token : Token) : Entry → TokenTable
  | .member m => { table with members := table.members.insert token m }
  | .string s => { table with strings := table.strings.insert token s }
  | .signature b => { table with signatures := table.signatures.insert token b }

section Registering

variable (table : TokenTable) (token : Token)

def insertMember (m : MemberRef) : TokenTable := table.insert token (.member m)

/-- `insertMember`, as a link in a chain of registrations. -/
def withMember (m : MemberRef) : TokenTable := table.insertMember token m

def withType (type : TypeRef) : TokenTable := table.withMember token (.type type)

def withMethod (method : MethodRef) : TokenTable := table.withMember token (.method method)

def withField (field : FieldRef) : TokenTable := table.withMember token (.field field)

def withString (s : String) : TokenTable := table.insert token (.string s)

def withSignature (blob : List UInt8) : TokenTable := table.insert token (.signature blob)

end Registering

def ofEntries (entries : List (Token × Entry)) : TokenTable :=
  entries.foldl (fun table (token, entry) => table.insert token entry) empty

def size (table : TokenTable) : Nat :=
  table.members.size + table.strings.size + table.signatures.size

def isEmpty (table : TokenTable) : Bool := table.size == 0

def member (table : TokenTable) (token : Token) : Except ResolutionError MemberRef :=
  match table.members[token]? with
  | some m => .ok m
  | none => .error ⟨token, .member⟩

def string (table : TokenTable) (token : Token) : Except ResolutionError String :=
  match table.strings[token]? with
  | some s => .ok s
  | none => .error ⟨token, .string⟩

def signature (table : TokenTable) (token : Token) : Except ResolutionError (List UInt8) :=
  match table.signatures[token]? with
  | some b => .ok b
  | none => .error ⟨token, .signature⟩

def resolver (table : TokenTable) : Resolver := ⟨table.member, table.string, table.signature⟩

end TokenTable

end Cil
