import Cil.Output.Writer

/-! Scripts: what is to be written, as data. -/
namespace Cil

inductive Step where
  /-- Adds text to the current line. -/
  | append (text : String)
  /-- Ends the current line. -/
  | endLine
  /-- Adds text to the current line and ends it. -/
  | line (text : String)
  | flush
  /-- Leaves a record in the log. -/
  | note (record : LogRecord)
  /-- Writes nothing and fails. -/
  | fail (error : Error)
  /-- Several steps that count as one. -/
  | group (body : List Step)
  /-- Several steps that count as one and run one level deeper. -/
  | indented (body : List Step)

namespace Step

variable {σ : Type}

/-- What can be seen when a step finishes. -/
structure Report (σ : Type) where
  error : Option Error
  depth : Nat
  sink : σ

def Report.ofResult : EStateM.Result Error (Writer σ) Unit → Report σ
  | .ok _ w => ⟨none, w.depth, w.sink⟩
  | .error e w => ⟨some e, w.depth, w.sink⟩

variable [ByteSink σ]

mutual

def run : Step → WriteM σ Unit
  | append text => Writer.append text
  | endLine => Writer.endLine
  | line text => Writer.line text
  | flush => Writer.flush
  | note record => Writer.note record
  | fail error => throw error
  | group body => runAll body
  | indented body => Writer.indented (runAll body)

/-- Runs the steps in order, up to the first that fails. -/
def runAll : List Step → WriteM σ Unit
  | [] => return ()
  | step :: steps => do
    run step
    runAll steps

end

/-- The writer after a step, whether it failed or not. -/
def after (step : Step) (w : Writer σ) : Writer σ :=
  match run step w with
  | .ok _ w' => w'
  | .error _ w' => w'

mutual

/-- The reports of a step and of the steps nested in an indented one, in the order in which they
finish. -/
def reports : Step → Writer σ → List (Report σ)
  | indented body, w =>
    blockReports body { w with depth := w.depth + 1 } ++
      [Report.ofResult (run (indented body) w)]
  | step, w => [Report.ofResult (run step w)]

def blockReports : List Step → Writer σ → List (Report σ)
  | [], _ => []
  | step :: steps, w =>
    reports step w ++
      match run step w with
      | .ok _ w' => blockReports steps w'
      | .error _ _ => []

end

/-- Runs the steps in order, going on after those that fail. -/
def runEach : List Step → Writer σ → Writer σ
  | [], w => w
  | step :: steps, w => runEach steps (step.after w)

/-- The reports of steps that run in order, going on after those that fail. -/
def reportsOfEach : List Step → Writer σ → List (Report σ)
  | [], _ => []
  | step :: steps, w => step.reports w ++ reportsOfEach steps (step.after w)

end Step

namespace Script

variable {σ : Type} [ByteSink σ]

/-- Runs a script from a fresh line into a sink. -/
def run (steps : List Step) (sink : σ) : EStateM.Result Error (Writer σ) Unit :=
  Step.runAll steps (Writer.ofSink sink)

/-- The outcome of a script, and the sink after it. -/
def writeTo (steps : List Step) (sink : σ) : Except Error Unit × σ :=
  match run steps sink with
  | .ok _ w => (.ok (), w.sink)
  | .error e w => (.error e, w.sink)

/-- What a script leaves in the log. -/
def log (steps : List Step) (sink : σ) : List LogRecord :=
  match run steps sink with
  | .ok _ w => w.log
  | .error _ w => w.log

/-- The whole text that a script writes. -/
def text (steps : List Step) : Except Error String :=
  match run steps Sink.unlimited with
  | .ok _ w => .ok (w.sink.text?.getD "")
  | .error e _ => .error e

end Script

end Cil
