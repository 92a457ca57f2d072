import Cil.Error

/-! The records that decoding and printing leave in the log. -/
namespace Cil

inductive LogLevel where
  | trace
  | debug
  | warn
  deriving DecidableEq, Repr

def LogLevel.text : LogLevel → String
  | trace => "TRACE"
  | debug => "DEBUG"
  | warn => "WARN"

inductive LogRecord where
  /-- Decoding begins at an offset, with this many bytes to go. -/
  | decoding (remaining offset : Nat)
  /-- One more instruction has been decoded. -/
  | decoded (offset : Nat) (mnemonic : String) (size : Nat)
  /-- The bytes are not a sequence of instructions. -/
  | undecodable (cause : Error)
  /-- All instructions decode, but a branch target is wrong. -/
  | rejected (cause : Error)
  /-- Decoding has succeeded with this many instructions. -/
  | finished (instructions : Nat)
  /-- A field reference was to be printed. -/
  | fieldReference (name : String)
  /-- A member was refused for its kind. -/
  | refused (kind : MemberKind)
  /-- An assembly is about to be printed. -/
  | assembly (name : String) (types : Nat)
  deriving DecidableEq, Repr

namespace LogRecord

def level : LogRecord → LogLevel
  | decoded .. => .trace
  | decoding .. | finished _ | fieldReference _ | assembly .. => .debug
  | undecodable _ | rejected _ | refused _ => .warn

def message : LogRecord → String
  | decoding remaining offset =>
    "decoding " ++ Nat.repr remaining ++ " bytes of CIL starting at offset " ++ Nat.repr offset
  | decoded offset mnemonic size =>
    Text.decimal 4 offset ++ ": " ++ mnemonic ++ " (" ++ Nat.repr size ++ " bytes)"
  | undecodable cause => "failed to decode method body: " ++ cause.message
  | rejected cause => "rejecting method body: " ++ cause.message
  | finished n => "decoded " ++ Nat.repr n ++ " instructions"
  | fieldReference name => "field reference " ++ name ++ " cannot be formatted"
  | refused kind => "refusing to format unsupported member kind: " ++ kind.text
  | assembly name types => "formatting assembly " ++ name ++ " with " ++ Nat.repr types ++ " types"

end LogRecord

end Cil
