import Cil.Decode.Progress
import Cil.Log

/-! Decoding a whole body: a sweep over its instructions, then a check of its branch targets. -/
namespace Cil

/-- A set of offsets below `bound`, one bit each in words of 64. -/
structure OffsetSet where
  bound : Nat
  words : Array UInt64
  deriving DecidableEq, Repr

namespace OffsetSet

def empty (bound : Nat) : OffsetSet := ⟨bound, Array.replicate ((bound + 63) / 64) 0⟩

/-- The bit that stands for an offset inside its word. -/
def bit (offset : Nat) : UInt64 := 1 <<< UInt64.ofNat (offset % 64)

/-- Adds an offset; one that is not below the bound is ignored. -/
def insert (s : OffsetSet) (offset : Nat) : OffsetSet :=
  if offset < s.bound then { s with words := s.words.modify (offset / 64) (· ||| bit offset) }
  else s

def ofList (bound : Nat) (offsets : List Nat) : OffsetSet := offsets.foldl insert (empty bound)

/-- Whether the set has this offset. A negative number is no offset. -/
def contains (s : OffsetSet) : Int → Bool
  | .ofNat offset =>
    offset < s.bound && s.words[offset / 64]?.any fun word => word &&& bit offset != 0
  | .negSucc _ => false

end OffsetSet

/-- A maximal run of instructions: those that decode, where the cursor stops, and the error that
stopped it, if it is not the end of the body. -/
structure Sweep where
  instructions : List Instruction
  cursor : Cursor
  error : Option Error
  deriving DecidableEq, Repr

namespace Decode

def sweep (r : Resolver) (c : Cursor) : Sweep :=
  if c.hasMore then
    match _h : instruction r c with
    | .error e c' => ⟨[], c', some e⟩
    | .ok i c' =>
      let later := sweep r c'
      { later with instructions := i :: later.instructions }
  else
    ⟨[], c, none⟩
termination_by c.remaining
decreasing_by exact remaining_instruction_lt (by assumption)

/-- The first branch, in order, that leads to no instruction of a body of `length` bytes. -/
def strayTarget? (length : Nat) (body : List Instruction) : Option Error :=
  let starts := OffsetSet.ofList length (body.map (·.offset))
  body.findSome? fun i =>
    (i.branchTargets.find? fun t : Nat => !starts.contains t).map fun t : Nat =>
      .invalidTarget i.offset t

/-- Decodes from the cursor to the end of the body. Offsets count from the start of the body. -/
def stream (r : Resolver) : DecodeM (List Instruction) := fun c =>
  let run := sweep r c
  match run.error with
  | some e => .error e run.cursor
  | none =>
    match strayTarget? c.length run.instructions with
    | some e => .error e run.cursor
    | none => .ok run.instructions run.cursor

/-- What decoding from the cursor leaves in the log. -/
def streamLog (r : Resolver) (c : Cursor) : List LogRecord :=
  let run := sweep r c
  let verdict : LogRecord :=
    match run.error with
    | some e => .undecodable e
    | none =>
      match strayTarget? c.length run.instructions with
      | some e => .rejected e
      | none => .finished run.instructions.length
  .decoding c.remaining c.pos ::
    (run.instructions.map fun i => .decoded i.offset i.mnemonic i.size) ++ [verdict]

end Decode

/-- Decodes a whole body. -/
def decode (r : Resolver) (bytes : List UInt8) : Except Error (List Instruction) :=
  match Decode.stream r (Cursor.ofBytes bytes) with
  | .ok body _ => .ok body
  | .error e _ => .error e

/-- What decoding a whole body leaves in the log. -/
def decodeLog (r : Resolver) (bytes : List UInt8) : List LogRecord :=
  Decode.streamLog r (Cursor.ofBytes bytes)

end Cil
