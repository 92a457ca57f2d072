import Cil.Error
import Cil.Scalar

/-! Reading position in a sequence of bytes. -/
namespace Cil

/-- `pos` bytes have been read, and `rest` is still to come. -/
structure Cursor where
  pos : Nat
  rest : List UInt8
  deriving DecidableEq, Repr

namespace Cursor

def ofBytes (bytes : List UInt8) : Cursor := ⟨0, bytes⟩

/-- The cursor after the first `pos` bytes. -/
def startingAt (bytes : List UInt8) (pos : Nat) : Cursor := ⟨pos, bytes.drop pos⟩

def remaining (c : Cursor) : Nat := c.rest.length

/-- The length of the whole sequence. -/
def length (c : Cursor) : Nat := c.pos + c.remaining

def isEmpty (c : Cursor) : Bool := c.length == 0

def hasMore (c : Cursor) : Bool := !c.rest.isEmpty

/-- Reads one value and moves past it; fails if fewer bytes are left than it takes. -/
def read? (s : Scalar) (c : Cursor) : Option (s.Value × Cursor) :=
  let front := c.rest.take s.width
  if front.length = s.width then
    some (s.ofBytes front, ⟨c.pos + s.width, c.rest.drop s.width⟩)
  else
    none

end Cursor

/-- A step that moves a cursor and may fail, keeping the cursor either way. -/
abbrev DecodeM := EStateM Error Cursor

namespace Cursor

/-- Reads one value, or fails with the given error and leaves the cursor where it was. -/
def readOr (e : Error) (s : Scalar) : DecodeM s.Value := fun c =>
  match c.read? s with
  | some (v, c') => .ok v c'
  | none => .error e c

theorem readOr_eq_ok_iff {e : Error} {s : Scalar} {v : s.Value} {c c' : Cursor} :
    readOr e s c = .ok v c' ↔ c.read? s = some (v, c') := by
  unfold readOr
  cases c.read? s <;> simp [Prod.ext_iff]

theorem readOr_eq_error_iff {e e' : Error} {s : Scalar} {c c' : Cursor} :
    readOr e s c = .error e' c' ↔ c.read? s = none ∧ e = e' ∧ c = c' := by
  unfold readOr
  cases c.read? s <;> simp

def readValue (s : Scalar) : DecodeM s.Value := readOr .outOfBounds s

/-- The next byte, without moving past it. -/
def peekByte : DecodeM UInt8 := fun c =>
  match c.rest with
  | [] => .error .outOfBounds c
  | b :: _ => .ok b c

end Cursor

/-- Reads the value at an offset. The new offset is just after it, or the old one on failure. -/
def Scalar.readAt (s : Scalar) (bytes : List UInt8) (offset : Nat) :
    Except Error s.Value × Nat :=
  match Cursor.readValue s (.startingAt bytes offset) with
  | .ok v c => (.ok v, c.pos)
  | .error e _ => (.error e, offset)

end Cil
