/-! Pieces of text: numerals filled up with zeros, byte blobs and string literals. -/
namespace Cil.Text

/-- Puts zeros in front until the digits fill `width` places. -/
def zeroFill (width : Nat) (digits : List Char) : String :=
  String.ofList (List.replicate (width - digits.length) '0' ++ digits)

/-- The decimal numeral of `n`, at least `width` digits long. -/
def decimal (width n : Nat) : String := zeroFill width (Nat.toDigits 10 n)

/-- The decimal numeral of an integer, with a sign only if it is negative. -/
def integer : Int → String
  | .ofNat n => Nat.repr n
  | .negSucc n => "-" ++ Nat.repr (n + 1)

/-- The hexadecimal numeral of `n` in lower case, at least `width` digits long. -/
def hexLower (width n : Nat) : String := zeroFill width (Nat.toDigits 16 n)

/-- The hexadecimal numeral of `n` in upper case, at least `width` digits long. -/
def hexUpper (width n : Nat) : String := zeroFill width ((Nat.toDigits 16 n).map Char.toUpper)

/-- Items separated by a comma and a space. -/
def commaSeparated (items : List String) : String := ", ".intercalate items

/-! Byte blobs: two upper-case hexadecimal digits a byte, between parentheses. -/

def blob (bytes : List UInt8) : String :=
  "(" ++ " ".intercalate (bytes.map fun b => hexUpper 2 b.toNat) ++ ")"

/-- The value of an upper-case hexadecimal digit. -/
def hexDigit? (c : Char) : Option Nat :=
  if '0' ≤ c ∧ c ≤ '9' then some (c.toNat - '0'.toNat)
  else if 'A' ≤ c ∧ c ≤ 'F' then some (c.toNat - 'A'.toNat + 10)
  else none

/-- Reads a byte, which is two digits long. -/
def readByte? : List Char → Option UInt8
  | [high, low] => do return UInt8.ofNat (16 * (← hexDigit? high) + (← hexDigit? low))
  | _ => none

/-- What stands between the parentheses around a text. -/
def stripParentheses? : List Char → Option (List Char)
  | '(' :: rest => if rest.getLast? = some ')' then some rest.dropLast else none
  | _ => none

/-- Reads bytes with single spaces between them. -/
def readSpaced? (cs : List Char) : Option (List UInt8) :=
  if cs = [] then some [] else (cs.splitOn ' ').mapM readByte?

/-- Reads a blob back. -/
def readBlob? (s : String) : Option (List UInt8) := (stripParentheses? s.toList).bind readSpaced?

/-! String literals: text between double quotes, with escapes. -/

namespace Quoted

/-- Backslash and quote are escaped by a backslash, and the line feed, the carriage return, the tab
and the null character by a letter. Everything else stands for itself. -/
def escape (c : Char) : List Char :=
  match c with
  | '\\' => ['\\', '\\']
  | '"' => ['\\', '"']
  | '\n' => ['\\', 'n']
  | '\r' => ['\\', 'r']
  | '\t' => ['\\', 't']
  | '\x00' => ['\\', '0']
  | c => [c]

def encode (s : List Char) : List Char := '"' :: (s.flatMap escape ++ ['"'])

/-- The character that an escape letter stands for. -/
def unescape? : Char → Option Char
  | '\\' => some '\\'
  | '"' => some '"'
  | 'n' => some '\n'
  | 'r' => some '\r'
  | 't' => some '\t'
  | '0' => some '\x00'
  | _ => none

/-- Reads up to the closing quote and returns the text and what follows. -/
def scanOpen? : List Char → Option (List Char × List Char)
  | [] => none
  | '"' :: rest => some ([], rest)
  | '\\' :: c :: rest => do
    let d ← unescape? c
    let (s, after) ← scanOpen? rest
    return (d :: s, after)
  | c :: rest => do
    let (s, after) ← scanOpen? rest
    return (c :: s, after)

/-- Reads a literal at the start of a text and returns its content and what follows. -/
def scan? : List Char → Option (List Char × List Char)
  | '"' :: rest => scanOpen? rest
  | _ => none

end Quoted

def quote (s : String) : String := String.ofList (Quoted.encode s.toList)

end Cil.Text
