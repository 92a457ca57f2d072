import Cil.Log

/-! Text in indented lines, on its way to a sink. -/
namespace Cil

/-- Where bytes go. Writing takes all of the bytes or fails, and so does flushing; the reason for a
failure is given in the words of the sink. -/
class ByteSink (σ : Type) where
  write : ByteArray → EStateM String σ Unit
  flush : EStateM String σ Unit

/-- A sink that takes up to `capacity` bytes in total, or any number if there is no capacity, and
may refuse to flush. -/
structure Sink where
  capacity : Option Nat
  flushFails : Bool
  contents : ByteArray

namespace Sink

/-- A sink that never fails. -/
def unlimited : Sink := ⟨none, false, .empty⟩

def ofCapacity (capacity : Nat) : Sink := ⟨some capacity, false, .empty⟩

/-- Takes all of the bytes, or as many as still fit and then fails. -/
def write (bytes : ByteArray) : EStateM String Sink Unit := fun s =>
  match s.capacity with
  | none => .ok () { s with contents := s.contents ++ bytes }
  | some capacity =>
    let room := capacity - s.contents.size
    if bytes.size ≤ room then .ok () { s with contents := s.contents ++ bytes }
    else .error "sink closed" { s with contents := s.contents ++ bytes.extract 0 room }

def flush : EStateM String Sink Unit := fun s =>
  if s.flushFails then .error "flush failed" s else .ok () s

instance : ByteSink Sink := ⟨write, flush⟩

/-- The contents as text, if they are valid UTF-8. -/
def text? (s : Sink) : Option String := String.fromUTF8? s.contents

end Sink

/-- A sink with the current nesting depth, whether the current line has text on it yet, and the
records noted so far. -/
structure Writer (σ : Type) where
  sink : σ
  depth : Nat
  lineOpen : Bool
  log : List LogRecord

/-- A step that writes and may fail; what was written before the failure stays. -/
abbrev WriteM (σ : Type) := EStateM Error (Writer σ)

namespace Writer

variable {σ : Type}

def ofSink (sink : σ) : Writer σ := ⟨sink, 0, false, []⟩

/-- Four spaces for each level of nesting. -/
def indentation : String := "    "

/-- Runs a step on the sink. -/
def onSink (x : EStateM String σ Unit) : WriteM σ Unit := fun w =>
  match x w.sink with
  | .ok _ sink => .ok () { w with sink }
  | .error reason sink => .error (.sink reason) { w with sink }

def note (record : LogRecord) : WriteM σ Unit :=
  modify fun w => { w with log := w.log ++ [record] }

/-- Runs a step one level deeper. The old level is back afterwards, also after a failure. -/
def indented (x : WriteM σ Unit) : WriteM σ Unit := fun w =>
  match x { w with depth := w.depth + 1 } with
  | .ok _ w' => .ok () { w' with depth := w'.depth - 1 }
  | .error e w' => .error e { w' with depth := w'.depth - 1 }

variable [ByteSink σ]

def write (text : String) : WriteM σ Unit := onSink (ByteSink.write text.toUTF8)

def flush : WriteM σ Unit := onSink ByteSink.flush

def writeIndentation : (depth : Nat) → WriteM σ Unit
  | 0 => return ()
  | depth + 1 => do
    write indentation
    writeIndentation depth

/-- Indents the current line unless it has text already. -/
def openLine : WriteM σ Unit := do
  let w ← get
  if w.lineOpen then return ()
  else
    writeIndentation w.depth
    modify ({ · with lineOpen := true })

/-- Adds text to the current line. Empty text leaves the line as it is. -/
def append (text : String) : WriteM σ Unit :=
  if text = "" then return ()
  else do
    openLine
    write text

def endLine : WriteM σ Unit := do
  write "\n"
  modify ({ · with lineOpen := false })

def line (text : String) : WriteM σ Unit := do
  append text
  endLine

end Writer

end Cil
