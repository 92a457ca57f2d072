import Cil.Reference.Basic

/-! Everything that can go wrong, as causes, and the wording of each cause. -/
namespace Cil

/-- What a token was looked up as. -/
inductive LookupKind where
  | member
  | string
  | signature
  deriving DecidableEq, Repr

def LookupKind.text : LookupKind → String
  | .member => "member"
  | .string => "string"
  | .signature => "signature"

/-- A resolver knows nothing under a token. -/
structure ResolutionError where
  token : Token
  kind : LookupKind
  deriving DecidableEq, Repr

def ResolutionError.message (e : ResolutionError) : String :=
  "no " ++ e.kind.text ++ " is known for token " ++ e.token.text

/-- The kinds of members that have no printed form. -/
inductive MemberKind where
  | field
  | event
  | property
  | constructor
  | nestedType
  | pinvoke
  deriving DecidableEq, Repr

namespace MemberKind

def all : List MemberKind := [field, event, property, constructor, nestedType, pinvoke]

def text : MemberKind → String
  | field => "field"
  | event => "event"
  | property => "property"
  | constructor => "constructor"
  | nestedType => "nested type"
  | pinvoke => "pinvoke method"

end MemberKind

inductive Error where
  /-- No opcode has this value. -/
  | unknownOpcode (offset : Nat) (value : UInt16)
  /-- The body ends inside the instruction at this offset. -/
  | truncated (offset : Nat)
  /-- The resolver rejects the token of the instruction at this offset. -/
  | unresolvedToken (offset : Nat) (token : Token) (source : ResolutionError)
  /-- A branch leads to a place where no instruction starts. -/
  | invalidTarget (offset : Nat) (target : Int)
  /-- A member of this kind has no printed form. -/
  | unsupportedMember (kind : MemberKind)
  /-- A read goes past the end of the data. -/
  | outOfBounds
  /-- The sink reports a failure in its own words. -/
  | sink (reason : String)
  deriving DecidableEq, Repr

def Error.message : Error → String
  | unknownOpcode offset value =>
    "Unknown opcode 0x" ++ Text.hexUpper 2 value.toNat ++ " at offset " ++ Nat.repr offset
  | truncated offset => "Unexpected end of stream in instruction at offset " ++ Nat.repr offset
  | unresolvedToken offset token source =>
    "Unresolved token " ++ token.text ++ " in instruction at offset " ++ Nat.repr offset ++ ": " ++
      source.message
  | invalidTarget offset target =>
    "Branch at offset " ++ Nat.repr offset ++ " targets " ++ Text.integer target ++
      ", which is not an instruction boundary"
  | unsupportedMember kind => "Formatting of " ++ kind.text ++ " members is not supported"
  | outOfBounds => "Out of Bound read would have occurred!"
  | sink reason => reason

section Sequencing

/-! Two steps in a row, each of which may fail and keeps its state either way. -/

variable {ε σ α β : Type} {x : EStateM ε σ α} {f : α → EStateM ε σ β} {s s' : σ} {a : α} {e : ε}

theorem bind_of_ok (h : x s = .ok a s') : (x >>= f) s = f a s' := by
  change EStateM.bind x f s = _
  simp only [EStateM.bind, h]

theorem bind_of_error (h : x s = .error e s') : (x >>= f) s = .error e s' := by
  change EStateM.bind x f s = _
  simp only [EStateM.bind, h]

theorem bind_eq_ok {b : β} {s'' : σ} (h : (x >>= f) s = .ok b s'') :
    ∃ a s', x s = .ok a s' ∧ f a s' = .ok b s'' := by
  cases hx : x s with
  | ok a s' =>
    rw [bind_of_ok hx] at h
    exact ⟨a, s', rfl, h⟩
  | error e s' =>
    rw [bind_of_error hx] at h
    cases h

/-- Two sequences agree if their first steps do and, behind these, the later ones. -/
theorem bind_congr_of_eq {y : EStateM ε σ α} {g : α → EStateM ε σ β} (hx : x s = y s)
    (hf : ∀ a s', y s = .ok a s' → f a s' = g a s') : (x >>= f) s = (y >>= g) s := by
  cases hy : y s with
  | ok a s' => rw [bind_of_ok (hx.trans hy), bind_of_ok hy, hf a s' hy]
  | error e s' => rw [bind_of_error (hx.trans hy), bind_of_error hy]

end Sequencing

end Cil
