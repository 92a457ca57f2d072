import Mathlib
import Cil.Output.Script

/-! The text of a script: what its steps write, at which depth and on which line, when nothing
stops them, and that only the sink can. -/
namespace Cil

variable {σ : Type} {lineOpen : Bool} {steps : List Step} {text : String} {bytes : ByteArray}
  {limit : Nat} {s : Sink}

namespace Sink

theorem write_unlimited (h : s.capacity = none) :
    write bytes s = .ok () { s with contents := s.contents ++ bytes } := by
  simp only [write, h]

theorem write_of_le (hcap : s.capacity = some limit)
    (hfits : bytes.size ≤ limit - s.contents.size) :
    write bytes s = .ok () { s with contents := s.contents ++ bytes } := by
  simp only [write, hcap, if_pos hfits]

theorem write_of_not_le (hcap : s.capacity = some limit)
    (hfits : ¬ bytes.size ≤ limit - s.contents.size) :
    write bytes s = .error "sink closed"
      { s with contents := s.contents ++ bytes.extract 0 (limit - s.contents.size) } := by
  simp only [write, hcap, if_neg hfits]

theorem text?_eq_some (h : s.contents = text.toUTF8) : s.text? = some text := by
  simp only [text?, String.fromUTF8?, h, String.toUTF8_eq_toByteArray, dif_pos text.isValidUTF8]
  rfl

end Sink

namespace Writer

theorem onSink_of_ok {z : EStateM String σ Unit} {w : Writer σ} {sink : σ}
    (h : z w.sink = .ok () sink) : onSink z w = .ok () { w with sink } := by
  simp only [onSink, h]

theorem onSink_of_error {z : EStateM String σ Unit} {w : Writer σ} {sink : σ} {reason : String}
    (h : z w.sink = .error reason sink) :
    onSink z w = .error (.sink reason) { w with sink } := by
  simp only [onSink, h]

theorem write_eq (text : String) : write text = onSink (Sink.write text.toUTF8) := rfl

theorem flush_eq (w : Writer Sink) :
    flush w = if w.sink.flushFails then .error (.sink "flush failed") w else .ok () w := by
  by_cases hfails : w.sink.flushFails = true
  · rw [if_pos hfails]
    exact onSink_of_error (if_pos hfails)
  · rw [if_neg hfails]
    exact onSink_of_ok (if_neg hfails)

/-- The blanks in front of a line at the given depth. -/
def margin : (depth : Nat) → String
  | 0 => ""
  | depth + 1 => indentation ++ margin depth

/-- What a piece of text adds to a line: the margin comes first if the line has no text yet, and
empty text adds nothing. -/
def pieceAt (depth : Nat) (lineOpen : Bool) (text : String) : String :=
  if lineOpen ∨ text = "" then text else margin depth ++ text

@[simp]
theorem pieceAt_open (depth : Nat) (text : String) : pieceAt depth true text = text := by
  simp [pieceAt]

@[simp]
theorem pieceAt_empty (depth : Nat) (lineOpen : Bool) : pieceAt depth lineOpen "" = "" := by
  simp [pieceAt]

theorem pieceAt_closed (depth : Nat) (h : text ≠ "") :
    pieceAt depth false text = margin depth ++ text := by
  simp [pieceAt, h]

variable {w w' w'' : Writer Sink} {x y : WriteM Sink Unit}

/-- `w'` is `w` after it has written `text`; the line is left open or not. -/
structure Wrote (w : Writer Sink) (text : String) (lineOpen : Bool) (w' : Writer Sink) : Prop where
  sink_eq : w'.sink = { w.sink with contents := w.sink.contents ++ text.toUTF8 }
  depth_eq : w'.depth = w.depth
  lineOpen_eq : w'.lineOpen = lineOpen

theorem Wrote.nothing (w : Writer Sink) : w.Wrote "" w.lineOpen w := by
  refine ⟨?_, rfl, rfl⟩
  simp

theorem Wrote.trans {s t : String} {o o' : Bool} (h : w.Wrote s o w') (h' : w'.Wrote t o' w'') :
    w.Wrote (s ++ t) o' w'' := by
  refine ⟨?_, h'.depth_eq.trans h.depth_eq, h'.lineOpen_eq⟩
  rw [h'.sink_eq, h.sink_eq]
  simp only [String.toUTF8_eq_toByteArray, String.toByteArray_append, ByteArray.append_assoc]

theorem Wrote.capacity_eq (h : w.Wrote text lineOpen w') : w'.sink.capacity = w.sink.capacity := by
  rw [h.sink_eq]

/-- `x` writes `text` into every sink that takes any number of bytes. -/
def Writes (x : WriteM Sink Unit) (w : Writer Sink) (text : String) (lineOpen : Bool) : Prop :=
  ∃ w', x w = .ok () w' ∧ w.Wrote text lineOpen w'

theorem Writes.seq {s t : String} {o o' : Bool} (hx : Writes x w s o)
    (hy : ∀ w', w.Wrote s o w' → Writes y w' t o') : Writes (do x; y) w (s ++ t) o' := by
  obtain ⟨w', hrun, hwrote⟩ := hx
  obtain ⟨w'', hrun', hwrote'⟩ := hy w' hwrote
  exact ⟨w'', (bind_of_ok hrun).trans hrun', hwrote.trans hwrote'⟩

theorem writes_write (h : w.sink.capacity = none) (text : String) :
    Writes (write text) w text w.lineOpen := by
  exact ⟨_, onSink_of_ok (Sink.write_unlimited h), rfl, rfl, rfl⟩

theorem writes_writeIndentation (depth : Nat) (h : w.sink.capacity = none) :
    Writes (writeIndentation depth) w (margin depth) w.lineOpen := by
  induction depth generalizing w with
  | zero => exact ⟨w, rfl, .nothing w⟩
  | succ depth ih =>
    refine (writes_write h indentation).seq fun w' hw' => ?_
    rw [← hw'.lineOpen_eq]
    exact ih (hw'.capacity_eq.trans h)

theorem writes_openLine (h : w.sink.capacity = none) :
    Writes openLine w (if w.lineOpen then "" else margin w.depth) true := by
  unfold Writes openLine
  simp only [bind_of_ok (show (get : WriteM Sink (Writer Sink)) w = .ok w w from rfl)]
  cases hopen : w.lineOpen with
  | true =>
    refine ⟨w, rfl, ?_⟩
    have hnothing := Wrote.nothing w
    rwa [hopen] at hnothing
  | false =>
    obtain ⟨w', hrun, hwrote⟩ := writes_writeIndentation w.depth h
    refine ⟨{ w' with lineOpen := true }, ?_, hwrote.sink_eq, hwrote.depth_eq, rfl⟩
    exact bind_of_ok hrun

theorem writes_append (h : w.sink.capacity = none) (text : String) :
    Writes (append text) w (pieceAt w.depth w.lineOpen text) (w.lineOpen || text ≠ "") := by
  unfold append
  by_cases hempty : text = ""
  · refine ⟨w, ?_, ?_⟩
    · rw [if_pos hempty]
      rfl
    · simpa [hempty] using Wrote.nothing w
  · rw [if_neg hempty]
    have hpiece : pieceAt w.depth w.lineOpen text =
        (if w.lineOpen then "" else margin w.depth) ++ text := by
      cases hopen : w.lineOpen <;> simp [pieceAt, hempty]
    have hopens : (w.lineOpen || decide (text ≠ "")) = true := by simp [hempty]
    rw [hpiece, hopens]
    refine (writes_openLine h).seq fun w' hw' => ?_
    have hwrite := writes_write (hw'.capacity_eq.trans h) text
    rwa [hw'.lineOpen_eq] at hwrite

theorem writes_endLine (h : w.sink.capacity = none) : Writes endLine w "\n" false := by
  obtain ⟨w', hrun, hwrote⟩ := writes_write h "\n"
  exact ⟨{ w' with lineOpen := false }, bind_of_ok hrun, hwrote.sink_eq, hwrote.depth_eq, rfl⟩

theorem writes_line (h : w.sink.capacity = none) (text : String) :
    Writes (line text) w (pieceAt w.depth w.lineOpen text ++ "\n") false :=
  (writes_append h text).seq fun _ hw' => writes_endLine (hw'.capacity_eq.trans h)

theorem writes_indented (h : Writes x { w with depth := w.depth + 1 } text lineOpen) :
    Writes (indented x) w text lineOpen := by
  obtain ⟨w', hrun, hwrote⟩ := h
  refine ⟨{ w' with depth := w'.depth - 1 }, ?_, hwrote.sink_eq, ?_, hwrote.lineOpen_eq⟩
  · simp only [indented, hrun]
  · change w'.depth - 1 = w.depth
    rw [hwrote.depth_eq]
    rfl

end Writer

namespace Step

mutual

/-- Whether a step only writes: it neither fails by itself nor flushes the sink. -/
def isPlain : Step → Bool
  | fail _ | flush => false
  | group body | indented body => allPlain body
  | append _ | endLine | line _ | note _ => true

def allPlain : List Step → Bool
  | [] => true
  | step :: steps => step.isPlain && allPlain steps

end

mutual

/-- Whether the current line has text after a step, given whether it had some before. -/
def leavesOpen : Step → (lineOpen : Bool) → Bool
  | append text, lineOpen => lineOpen || text ≠ ""
  | endLine, _ | line _, _ => false
  | flush, lineOpen | note _, lineOpen | fail _, lineOpen => lineOpen
  | group body, lineOpen | indented body, lineOpen => leaveOpen body lineOpen

def leaveOpen : List Step → (lineOpen : Bool) → Bool
  | [], lineOpen => lineOpen
  | step :: steps, lineOpen => leaveOpen steps (step.leavesOpen lineOpen)

end

mutual

/-- The text that a step adds at the given depth, to a line that has text already or not. -/
def textAt : Step → (depth : Nat) → (lineOpen : Bool) → String
  | append text, depth, lineOpen => Writer.pieceAt depth lineOpen text
  | endLine, _, _ => "\n"
  | line text, depth, lineOpen => Writer.pieceAt depth lineOpen text ++ "\n"
  | flush, _, _ | note _, _, _ | fail _, _, _ => ""
  | group body, depth, lineOpen => textsAt body depth lineOpen
  | indented body, depth, lineOpen => textsAt body (depth + 1) lineOpen

def textsAt : List Step → (depth : Nat) → (lineOpen : Bool) → String
  | [], _, _ => ""
  | step :: steps, depth, lineOpen =>
    step.textAt depth lineOpen ++ textsAt steps depth (step.leavesOpen lineOpen)

end

theorem allPlain_append (front back : List Step) :
    allPlain (front ++ back) = (allPlain front && allPlain back) := by
  induction front with
  | nil => rfl
  | cons step front ih => rw [List.cons_append, allPlain, allPlain, ih, Bool.and_assoc]

theorem allPlain_flatMap {α : Type} {f : α → List Step} {items : List α}
    (h : ∀ a ∈ items, allPlain (f a) = true) : allPlain (items.flatMap f) = true := by
  induction items with
  | nil => rfl
  | cons a items ih =>
    rw [List.flatMap_cons, allPlain_append, h a List.mem_cons_self,
      ih fun b hb => h b (List.mem_cons_of_mem a hb)]
    rfl

theorem leaveOpen_append (front back : List Step) (lineOpen : Bool) :
    leaveOpen (front ++ back) lineOpen = leaveOpen back (leaveOpen front lineOpen) := by
  induction front generalizing lineOpen with
  | nil => rfl
  | cons step front ih => rw [List.cons_append, leaveOpen, leaveOpen, ih]

theorem textsAt_append (front back : List Step) (depth : Nat) (lineOpen : Bool) :
    textsAt (front ++ back) depth lineOpen =
      textsAt front depth lineOpen ++ textsAt back depth (leaveOpen front lineOpen) := by
  induction front generalizing lineOpen with
  | nil => simp [textsAt, leaveOpen]
  | cons step front ih =>
    rw [List.cons_append, textsAt, textsAt, leaveOpen, ih, String.append_assoc]

theorem leaveOpen_notes (notes : List LogRecord) (lineOpen : Bool) :
    leaveOpen (notes.map note) lineOpen = lineOpen := by
  induction notes with
  | nil => rfl
  | cons record notes ih => exact ih

/-- Pieces that each end their last line leave no line open. -/
theorem leaveOpen_flatMap {α : Type} {f : α → List Step} (items : List α)
    (h : ∀ a, leaveOpen (f a) false = false) : leaveOpen (items.flatMap f) false = false := by
  induction items with
  | nil => rfl
  | cons a items ih => rw [List.flatMap_cons, leaveOpen_append, h, ih]

/-- Pieces that each end their last line have their texts one after the other. -/
theorem textsAt_flatMap {α : Type} {f : α → List Step} (items : List α) (depth : Nat)
    (h : ∀ a, leaveOpen (f a) false = false) : textsAt (items.flatMap f) depth false =
      String.join (items.map fun a => textsAt (f a) depth false) := by
  induction items with
  | nil => rfl
  | cons a items ih =>
    rw [List.flatMap_cons, textsAt_append, h, ih, List.map_cons, String.join_cons]

mutual

/-- A step that only writes succeeds where the sink takes everything, and writes its text. -/
theorem writes_run : (step : Step) → (w : Writer Sink) → w.sink.capacity = none →
    step.isPlain = true →
      Writer.Writes step.run w (step.textAt w.depth w.lineOpen) (step.leavesOpen w.lineOpen)
  | append text, _, hcap, _ => Writer.writes_append hcap text
  | endLine, _, hcap, _ => Writer.writes_endLine hcap
  | line text, _, hcap, _ => Writer.writes_line hcap text
  | note record, w, _, _ => by
    refine ⟨{ w with log := w.log ++ [record] }, rfl, ?_, rfl, rfl⟩
    exact (Writer.Wrote.nothing w).sink_eq
  | group body, w, hcap, hplain => writes_runAll body w hcap hplain
  | indented body, w, hcap, hplain => Writer.writes_indented (writes_runAll body _ hcap hplain)

theorem writes_runAll : (steps : List Step) → (w : Writer Sink) → w.sink.capacity = none →
    allPlain steps = true →
      Writer.Writes (runAll steps) w (textsAt steps w.depth w.lineOpen)
        (leaveOpen steps w.lineOpen)
  | [], w, _, _ => ⟨w, rfl, .nothing w⟩
  | step :: steps, w, hcap, hplain => by
    obtain ⟨hstep, hsteps⟩ := Bool.and_eq_true_iff.mp hplain
    refine (writes_run step w hcap hstep).seq fun w' hw' => ?_
    have hlater := writes_runAll steps w' (hw'.capacity_eq.trans hcap) hsteps
    rwa [hw'.depth_eq, hw'.lineOpen_eq] at hlater

end

variable [ByteSink σ]

theorem runAll_append (front back : List Step) :
    (runAll (front ++ back) : WriteM σ Unit) = (do runAll front; runAll back) := by
  induction front with
  | nil => rfl
  | cons step front ih => rw [List.cons_append, runAll, runAll, ih, bind_assoc]

theorem runAll_singleton (step : Step) : (runAll [step] : WriteM σ Unit) = step.run := by
  rw [runAll, runAll]
  exact bind_pure_unit

end Step

namespace Script

/-- Steps that only write, and then a flush, get as far as the flush where the sink takes
everything. -/
theorem run_of_plain (hplain : Step.allPlain steps = true) {sink : Sink}
    (hcap : sink.capacity = none) : ∃ w : Writer Sink,
      w.sink = { sink with contents := sink.contents ++ (Step.textsAt steps 0 false).toUTF8 } ∧
        run (steps ++ [.flush]) sink =
          if sink.flushFails then .error (.sink "flush failed") w else .ok () w := by
  obtain ⟨w, hrun, hwrote⟩ := Step.writes_runAll steps (.ofSink sink) hcap hplain
  have hflush : w.sink.flushFails = sink.flushFails := by
    rw [hwrote.sink_eq]
    rfl
  refine ⟨w, hwrote.sink_eq, ?_⟩
  rw [run, Step.runAll_append, bind_of_ok hrun, Step.runAll_singleton]
  exact (Writer.flush_eq w).trans (by rw [hflush])

theorem writeTo_of_plain (hplain : Step.allPlain steps = true) {sink : Sink}
    (hcap : sink.capacity = none) (hflush : sink.flushFails = false) :
    writeTo (steps ++ [.flush]) sink =
      (.ok (), { sink with
        contents := sink.contents ++ (Step.textsAt steps 0 false).toUTF8 }) := by
  obtain ⟨w, hsink, hrun⟩ := run_of_plain hplain hcap
  rw [hflush, if_neg Bool.false_ne_true] at hrun
  simp only [writeTo, hrun, hsink]

theorem text_of_plain (hplain : Step.allPlain steps = true) :
    Script.text (steps ++ [.flush]) = .ok (Step.textsAt steps 0 false) := by
  have hcap : Sink.unlimited.capacity = none := rfl
  obtain ⟨w, hsink, hrun⟩ := run_of_plain hplain hcap
  have hcontents : w.sink.contents = (Step.textsAt steps 0 false).toUTF8 := by
    rw [hsink]
    exact ByteArray.empty_append
  rw [if_neg (by simp [Sink.unlimited])] at hrun
  simp only [Script.text, hrun, Sink.text?_eq_some hcontents, Option.getD_some]

end Script

section Failures

/-- Every write takes all of the bytes, and every flush works. -/
structure ByteSink.NeverFails (σ : Type) [ByteSink σ] : Prop where
  write : ∀ (bytes : ByteArray) (sink : σ), ∃ sink', ByteSink.write bytes sink = .ok () sink'
  flush : ∀ sink : σ, ∃ sink', ByteSink.flush sink = .ok () sink'

namespace Writer

variable {x y : WriteM σ Unit}

/-- Whatever goes wrong in `x` is reported by the sink. -/
def FailsBySink (x : WriteM σ Unit) : Prop :=
  ∀ w e w', x w = .error e w' → ∃ reason, e = .sink reason

theorem FailsBySink.seq (hx : FailsBySink x) (hy : FailsBySink y) : FailsBySink (do x; y) := by
  intro w e w'' h
  cases hrun : x w with
  | ok _ w' =>
    rw [bind_of_ok hrun] at h
    exact hy w' e w'' h
  | error e' w' =>
    rw [bind_of_error hrun] at h
    cases h
    exact hx w e w'' hrun

theorem failsBySink_modify (f : Writer σ → Writer σ) : FailsBySink (modify f) := by
  intro w e w' h
  cases h

theorem failsBySink_onSink (z : EStateM String σ Unit) : FailsBySink (onSink z) := by
  intro w e w' h
  cases hrun : z w.sink with
  | ok _ sink =>
    rw [onSink_of_ok hrun] at h
    cases h
  | error reason sink =>
    rw [onSink_of_error hrun] at h
    cases h
    exact ⟨reason, rfl⟩

theorem FailsBySink.indented (h : FailsBySink x) : FailsBySink (indented x) := by
  intro w e w' herror
  unfold Writer.indented at herror
  cases hrun : x { w with depth := w.depth + 1 } with
  | ok _ w' =>
    simp only [hrun] at herror
    cases herror
  | error e' w' =>
    simp only [hrun] at herror
    cases herror
    exact h _ e w' hrun

/-- Wherever `x` starts, it comes to its end. -/
def Succeeds (x : WriteM σ Unit) : Prop := ∀ w, ∃ w', x w = .ok () w'

theorem Succeeds.seq (hx : Succeeds x) (hy : Succeeds y) : Succeeds (do x; y) := by
  intro w
  obtain ⟨w', hrun⟩ := hx w
  obtain ⟨w'', hrun'⟩ := hy w'
  exact ⟨w'', (bind_of_ok hrun).trans hrun'⟩

theorem succeeds_onSink {z : EStateM String σ Unit} (h : ∀ sink, ∃ sink', z sink = .ok () sink') :
    Succeeds (onSink z) := by
  intro w
  obtain ⟨sink', hrun⟩ := h w.sink
  exact ⟨_, onSink_of_ok hrun⟩

theorem Succeeds.indented (h : Succeeds x) : Succeeds (indented x) := by
  intro w
  obtain ⟨w', hrun⟩ := h { w with depth := w.depth + 1 }
  refine ⟨{ w' with depth := w'.depth - 1 }, ?_⟩
  simp only [Writer.indented, hrun]

variable [ByteSink σ]

/-- What holds of the smallest steps of a writer, and of what is made of steps of which it holds.
Which step comes next may depend on how the line stands, and on nothing else. -/
structure Compositional (P : WriteM σ Unit → Prop) : Prop where
  nothing : P (pure ())
  seq : ∀ {x y}, P x → P y → P (do x; y)
  write : ∀ text, P (Writer.write text)
  flush : P Writer.flush
  note : ∀ record, P (Writer.note record)
  setOpen : ∀ lineOpen, P (modify ({ · with lineOpen }))
  choice : ∀ {f : Writer σ → WriteM σ Unit}, (∀ w, P (f w)) →
    (∀ w v, v.lineOpen = w.lineOpen → v.depth = w.depth → f v = f w) → P (get >>= f)
  indented : ∀ {x}, P x → P (Writer.indented x)

namespace Compositional

variable {P : WriteM σ Unit → Prop}

theorem writeIndentation (h : Compositional P) (depth : Nat) :
    P (Writer.writeIndentation depth) := by
  induction depth with
  | zero => exact h.nothing
  | succ depth ih => exact h.seq (h.write indentation) ih

theorem openLine (h : Compositional P) : P Writer.openLine := by
  apply h.choice
  · intro w
    split
    · exact h.nothing
    · exact h.seq (h.writeIndentation w.depth) (h.setOpen true)
  · intro w v hopen hdepth
    rw [hopen, hdepth]

theorem append (h : Compositional P) (text : String) : P (Writer.append text) := by
  unfold Writer.append
  split
  · exact h.nothing
  · exact h.seq h.openLine (h.write text)

theorem endLine (h : Compositional P) : P Writer.endLine :=
  h.seq (h.write "\n") (h.setOpen false)

theorem line (h : Compositional P) (text : String) : P (Writer.line text) :=
  h.seq (h.append text) h.endLine

mutual

/-- It holds of every step that only writes, and of all the others if it holds of failures. -/
theorem run (h : Compositional P) : (step : Step) →
    (step.isPlain = true ∨ ∀ e, P (throw e)) → P step.run
  | .append text, _ => h.append text
  | .endLine, _ => h.endLine
  | .line text, _ => h.line text
  | .flush, _ => h.flush
  | .note record, _ => h.note record
  | .fail e, hfail => hfail.resolve_left Bool.false_ne_true e
  | .group body, hfail => runAll h body hfail
  | .indented body, hfail => h.indented (runAll h body hfail)

theorem runAll (h : Compositional P) : (steps : List Step) →
    (Step.allPlain steps = true ∨ ∀ e, P (throw e)) → P (Step.runAll steps)
  | [], _ => h.nothing
  | step :: steps, hfail => by
    rw [Step.allPlain, Bool.and_eq_true] at hfail
    exact h.seq (run h step (hfail.imp_left And.left))
      (runAll h steps (hfail.imp_left And.right))

end

end Compositional

theorem compositional_failsBySink : Compositional (@FailsBySink σ) where
  nothing := failsBySink_modify id
  seq := .seq
  write _ := failsBySink_onSink _
  flush := failsBySink_onSink _
  note _ := failsBySink_modify _
  setOpen _ := failsBySink_modify _
  choice h _ w := h w w
  indented := .indented

theorem compositional_succeeds (hsink : ByteSink.NeverFails σ) :
    Compositional (@Succeeds σ) where
  nothing w := ⟨w, rfl⟩
  seq := .seq
  write text := succeeds_onSink (hsink.write text.toUTF8)
  flush := succeeds_onSink hsink.flush
  note _ _ := ⟨_, rfl⟩
  setOpen _ _ := ⟨_, rfl⟩
  choice h _ w := h w w
  indented := .indented

end Writer

namespace Script

variable [ByteSink σ]

/-- Steps that only write, and then a flush, are only ever stopped by the sink. -/
theorem eq_sink_of_writeTo (hplain : Step.allPlain steps = true) {sink : σ}
    {e : Error} (h : (writeTo (steps ++ [.flush]) sink).1 = .error e) :
    ∃ reason, e = .sink reason := by
  have hfails : Writer.FailsBySink (Step.runAll (steps ++ [.flush]) : WriteM σ Unit) := by
    rw [Step.runAll_append, Step.runAll_singleton]
    have hsteps : Writer.FailsBySink (Step.runAll steps : WriteM σ Unit) :=
      Writer.compositional_failsBySink.runAll steps (.inl hplain)
    exact hsteps.seq (Writer.failsBySink_onSink _)
  cases hrun : run (steps ++ [.flush]) sink with
  | ok _ w =>
    simp only [writeTo, hrun] at h
    cases h
  | error e' w =>
    simp only [writeTo, hrun] at h
    cases h
    exact hfails _ e w hrun

theorem writeTo_of_neverFails (hplain : Step.allPlain steps = true)
    (hsink : ByteSink.NeverFails σ) (sink : σ) :
    (writeTo (steps ++ [.flush]) sink).1 = .ok () := by
  have hsucceeds := Writer.compositional_succeeds hsink
  obtain ⟨w, hrun⟩ := hsucceeds.runAll steps (.inl hplain) (.ofSink sink)
  obtain ⟨w', hflush⟩ := hsucceeds.flush w
  have hall : run (steps ++ [.flush]) sink = .ok () w' := by
    rw [run, Step.runAll_append, bind_of_ok hrun, Step.runAll_singleton]
    exact hflush
  simp only [writeTo, hall]

end Script

end Failures

end Cil
