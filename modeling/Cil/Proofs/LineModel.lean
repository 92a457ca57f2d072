import Mathlib
import Cil.Proofs.BoundedSink

/-! What a writer writes, as lines: each has the indentation of its first text and nothing else has
any. The depth of the writer is that of the blocks around the current step, whatever fails. -/
namespace Cil

section Lines

/-- A piece of text, with the depth at which it is added. -/
structure Fragment where
  depth : Nat
  text : String
  deriving DecidableEq, Repr

/-- Whether some text has been added to a line. -/
def hasText (line : List Fragment) : Bool := line.any (·.text ≠ "")

/-- Four spaces for each level of the first fragment that is not empty, and then all fragments. A
line without text has no spaces either. -/
def lineText (line : List Fragment) : String :=
  match line.find? (·.text ≠ "") with
  | some first =>
    String.ofList (List.replicate (4 * first.depth) ' ') ++ String.join (line.map (·.text))
  | none => ""

/-- Lines that are finished, and the one that is being written. -/
structure Draft where
  finished : List (List Fragment)
  current : List Fragment
  deriving DecidableEq, Repr

namespace Draft

def empty : Draft := ⟨[], []⟩

def add (d : Draft) (f : Fragment) : Draft := { d with current := d.current ++ [f] }

def endLine (d : Draft) : Draft := ⟨d.finished ++ [d.current], []⟩

/-- All lines in order, the finished ones with a line feed each. -/
def text (d : Draft) : String :=
  String.join (d.finished.map fun line => lineText line ++ "\n") ++ lineText d.current

end Draft

theorem lineText_of_blank {line : List Fragment} (h : ∀ f ∈ line, f.text = "") :
    lineText line = "" := by
  have hnone : line.find? (·.text ≠ "") = none := by simpa using h
  rw [lineText, hnone]

theorem join_of_blank {line : List Fragment} (h : ∀ f ∈ line, f.text = "") :
    String.join (line.map (·.text)) = "" := by
  induction line with
  | nil => rfl
  | cons f line ih =>
    rw [List.map_cons, String.join_cons, h f List.mem_cons_self,
      ih fun g hg => h g (List.mem_cons_of_mem f hg), String.append_empty]

/-- The first text of a line decides on its indentation, at whatever depth it goes on. -/
theorem lineText_of_first {blank : List Fragment} (hblank : ∀ f ∈ blank, f.text = "")
    {first : Fragment} (hfirst : first.text ≠ "") (more : List Fragment) :
    lineText (blank ++ first :: more) = String.ofList (List.replicate (4 * first.depth) ' ') ++
      (first.text ++ String.join (more.map (·.text))) := by
  have hnone : blank.find? (·.text ≠ "") = none := by simpa using hblank
  have hfind : (blank ++ first :: more).find? (·.text ≠ "") = some first := by
    rw [List.find?_append, hnone, Option.none_or, List.find?_cons_of_pos (by simpa using hfirst)]
  rw [lineText, hfind, List.map_append, String.join_append, join_of_blank hblank,
    String.empty_append, List.map_cons, String.join_cons]

theorem hasText_eq_false_iff {line : List Fragment} :
    hasText line = false ↔ ∀ f ∈ line, f.text = "" := by
  simp [hasText]

/-- A line with text is blank up to the first text. -/
theorem exists_first {line : List Fragment} (h : hasText line = true) :
    ∃ blank first more, line = blank ++ first :: more ∧ (∀ f ∈ blank, f.text = "") ∧
      first.text ≠ "" := by
  induction line with
  | nil => cases h
  | cons f line ih =>
    by_cases hf : f.text = ""
    · obtain ⟨blank, first, more, rfl, hblank, hfirst⟩ := ih (by simpa [hasText, hf] using h)
      refine ⟨f :: blank, first, more, rfl, ?_, hfirst⟩
      rw [List.forall_mem_cons]
      exact ⟨hf, hblank⟩
    · exact ⟨[], f, line, rfl, by simp, hf⟩

theorem Writer.margin_eq (depth : Nat) :
    margin depth = String.ofList (List.replicate (4 * depth) ' ') := by
  induction depth with
  | zero => rfl
  | succ depth ih =>
    have hspaces : List.replicate (4 * (depth + 1)) ' ' =
        indentation.toList ++ List.replicate (4 * depth) ' ' := by
      rw [Nat.mul_add, Nat.add_comm, List.replicate_add]
      rfl
    rw [margin, ih, hspaces, String.ofList_append, String.ofList_toList]

/-- What a fragment adds to the text of a line. -/
theorem lineText_add (line : List Fragment) (depth : Nat) (text : String) :
    lineText (line ++ [⟨depth, text⟩]) =
      lineText line ++ Writer.pieceAt depth (hasText line) text := by
  cases hline : hasText line with
  | true =>
    obtain ⟨blank, first, more, rfl, hblank, hfirst⟩ := exists_first hline
    rw [List.append_assoc, List.cons_append, lineText_of_first hblank hfirst,
      lineText_of_first hblank hfirst, Writer.pieceAt_open]
    simp [String.append_assoc]
  | false =>
    have hblank := hasText_eq_false_iff.mp hline
    rw [lineText_of_blank hblank, String.empty_append]
    by_cases hempty : text = ""
    · subst hempty
      rw [Writer.pieceAt_empty]
      apply lineText_of_blank
      rw [List.forall_mem_append]
      exact ⟨hblank, by simp⟩
    · rw [lineText_of_first hblank hempty, Writer.pieceAt_closed _ hempty, Writer.margin_eq]
      simp

namespace Draft

theorem text_add (d : Draft) (depth : Nat) (text : String) :
    (d.add ⟨depth, text⟩).text = d.text ++ Writer.pieceAt depth (hasText d.current) text := by
  rw [Draft.text, add, lineText_add, Draft.text, String.append_assoc]

theorem hasText_add (d : Draft) (depth : Nat) (text : String) :
    hasText (d.add ⟨depth, text⟩).current = (hasText d.current || text ≠ "") := by
  simp [add, hasText]

theorem text_endLine (d : Draft) : d.endLine.text = d.text ++ "\n" := by
  simp [Draft.text, endLine, lineText, String.append_assoc]

end Draft

end Lines

namespace Step

mutual

/-- The error with which a step ends where the sink never fails. -/
def failure? : Step → Option Error
  | fail e => some e
  | group body | indented body => failureOfAll? body
  | append _ | endLine | line _ | flush | note _ => none

/-- Steps that count as one fail with the first failure among them. -/
def failureOfAll? : List Step → Option Error
  | [] => none
  | step :: steps =>
    match step.failure? with
    | some e => some e
    | none => failureOfAll? steps

end

mutual

/-- The draft after a step at the given depth. -/
def draft : Step → (depth : Nat) → Draft → Draft
  | append text, depth, d => d.add ⟨depth, text⟩
  | endLine, _, d => d.endLine
  | line text, depth, d => (d.add ⟨depth, text⟩).endLine
  | flush, _, d | note _, _, d | fail _, _, d => d
  | group body, depth, d => draftAll body depth d
  | indented body, depth, d => draftAll body (depth + 1) d

/-- The draft after steps that count as one: those behind the first failure are left out. -/
def draftAll : List Step → (depth : Nat) → Draft → Draft
  | [], _, d => d
  | step :: steps, depth, d =>
    match step.failure? with
    | some _ => step.draft depth d
    | none => draftAll steps depth (step.draft depth d)

end

/-- The draft after steps that do not depend on each other: what fails does not stop the others. -/
def draftEach : List Step → (depth : Nat) → Draft → Draft
  | [], _, d => d
  | step :: steps, depth, d => draftEach steps depth (step.draft depth d)

end Step

variable {steps : List Step} {step : Step} {n : Nat}

section Depth

variable {σ : Type} {w w' : Writer σ} {x y : WriteM σ Unit}

namespace Writer

/-- Whatever `x` does and wherever it fails, it leaves the depth as it was. -/
def KeepsDepth (x : WriteM σ Unit) : Prop := ∀ w : Writer σ, (left (x w)).depth = w.depth

theorem KeepsDepth.seq (hx : KeepsDepth x) (hy : KeepsDepth y) : KeepsDepth (do x; y) := by
  intro w
  have hfirst := hx w
  cases hrun : x w with
  | ok _ w' =>
    rw [hrun] at hfirst
    rw [bind_of_ok hrun]
    exact (hy w').trans hfirst
  | error e w' =>
    rw [hrun] at hfirst
    rw [bind_of_error hrun]
    exact hfirst

theorem keepsDepth_onSink (z : EStateM String σ Unit) : KeepsDepth (onSink z) := by
  intro w
  unfold onSink
  cases z w.sink <;> rfl

theorem KeepsDepth.indented (h : KeepsDepth x) : KeepsDepth (indented x) := by
  intro w
  have hdeeper := h { w with depth := w.depth + 1 }
  unfold Writer.indented
  cases hrun : x { w with depth := w.depth + 1 } with
  | ok _ w' =>
    rw [hrun] at hdeeper
    exact Nat.sub_eq_of_eq_add hdeeper
  | error e w' =>
    rw [hrun] at hdeeper
    exact Nat.sub_eq_of_eq_add hdeeper

variable [ByteSink σ]

theorem compositional_keepsDepth : Compositional (@KeepsDepth σ) where
  nothing _ := rfl
  seq := .seq
  write _ := keepsDepth_onSink _
  flush := keepsDepth_onSink _
  note _ _ := rfl
  setOpen _ _ := rfl
  choice h _ w := h w w
  indented := .indented

end Writer

namespace Step

variable [ByteSink σ]

theorem keepsDepth_run (step : Step) : Writer.KeepsDepth (step.run : WriteM σ Unit) :=
  Writer.compositional_keepsDepth.run step (.inr fun _ _ => rfl)

theorem keepsDepth_runAll (steps : List Step) :
    Writer.KeepsDepth (runAll steps : WriteM σ Unit) :=
  Writer.compositional_keepsDepth.runAll steps (.inr fun _ _ => rfl)

theorem depth_after (step : Step) (w : Writer σ) : (step.after w).depth = w.depth := by
  rw [after_eq_left]
  exact keepsDepth_run step w

theorem depth_ofResult (step : Step) (w : Writer σ) :
    (Report.ofResult (step.run w)).depth = (step.after w).depth := by
  unfold after
  cases step.run w <;> rfl

theorem runEach_append (front back : List Step) (w : Writer σ) :
    runEach (front ++ back) w = runEach back (runEach front w) := by
  induction front generalizing w with
  | nil => rfl
  | cons step front ih => exact ih (step.after w)

theorem depth_runEach (steps : List Step) (w : Writer σ) : (runEach steps w).depth = w.depth := by
  induction steps generalizing w with
  | nil => rfl
  | cons step steps ih => exact (ih (step.after w)).trans (depth_after step w)

theorem depth_of_run (h : step.run w = .ok () w') : w'.depth = w.depth := by
  have hdepth := keepsDepth_run step w
  rwa [h] at hdepth

theorem depth_of_runAll (h : runAll steps w = .ok () w') : w'.depth = w.depth := by
  have hdepth := keepsDepth_runAll steps w
  rwa [h] at hdepth

end Step

end Depth

section Drafting

variable {w w' : Writer Sink} {x y : WriteM Sink Unit} {d d' : Draft} {failure : Option Error}

namespace Writer

/-- What has been written is the draft, and the writer knows whether the current line has text. -/
structure Shows (w : Writer Sink) (d : Draft) : Prop where
  unlimited : w.sink.capacity = none
  flushes : w.sink.flushFails = false
  contents_eq : w.sink.contents = d.text.toUTF8
  lineOpen_eq : w.lineOpen = hasText d.current

theorem shows_empty : (ofSink Sink.unlimited).Shows .empty := ⟨rfl, rfl, rfl, rfl⟩

/-- What is shown does not depend on the depth. -/
theorem Shows.atDepth (h : w.Shows d) (depth : Nat) : { w with depth }.Shows d := { h with }

/-- A result with the given failure, if any. -/
def resultOf : Option Error → Writer Sink → EStateM.Result Error (Writer Sink) Unit
  | none, w => .ok () w
  | some e, w => .error e w

/-- `x` turns what `w` shows into `d`, and then fails or not. -/
def Drafts (x : WriteM Sink Unit) (w : Writer Sink) (d : Draft) (failure : Option Error) : Prop :=
  ∃ w', x w = resultOf failure w' ∧ w'.Shows d

theorem Shows.wrote {text : String} {lineOpen : Bool} (h : w.Shows d)
    (hwrote : w.Wrote text lineOpen w') (htext : d'.text = d.text ++ text)
    (hopen : lineOpen = hasText d'.current) : w'.Shows d' := by
  have hsink := hwrote.sink_eq
  refine ⟨?_, ?_, ?_, hwrote.lineOpen_eq.trans hopen⟩
  · rw [hsink]
    exact h.unlimited
  · rw [hsink]
    exact h.flushes
  · rw [hsink, htext]
    simp only [h.contents_eq, String.toUTF8_eq_toByteArray, String.toByteArray_append]

theorem Writes.drafts {text : String} {lineOpen : Bool} (hwrites : Writes x w text lineOpen)
    (h : w.Shows d) (htext : d'.text = d.text ++ text) (hopen : lineOpen = hasText d'.current) :
    Drafts x w d' none := by
  obtain ⟨w', hrun, hwrote⟩ := hwrites
  exact ⟨w', hrun, h.wrote hwrote htext hopen⟩

theorem drafts_append (h : w.Shows d) (text : String) :
    Drafts (append text) w (d.add ⟨w.depth, text⟩) none := by
  apply (writes_append h.unlimited text).drafts h
  · rw [d.text_add, h.lineOpen_eq]
  · rw [d.hasText_add, h.lineOpen_eq]

theorem drafts_endLine (h : w.Shows d) : Drafts endLine w d.endLine none :=
  (writes_endLine h.unlimited).drafts h d.text_endLine rfl

theorem Drafts.seq (hx : Drafts x w d none)
    (hy : ∀ w', x w = .ok () w' → w'.Shows d → Drafts y w' d' failure) :
    Drafts (do x; y) w d' failure := by
  obtain ⟨w', hrun, hshows⟩ := hx
  obtain ⟨w'', hrun', hshows'⟩ := hy w' hrun hshows
  exact ⟨w'', (bind_of_ok hrun).trans hrun', hshows'⟩

/-- What follows a failure is left out. -/
theorem Drafts.stop {e : Error} (hx : Drafts x w d (some e)) (y : WriteM Sink Unit) :
    Drafts (do x; y) w d (some e) := by
  obtain ⟨w', hrun, hshows⟩ := hx
  exact ⟨w', bind_of_error hrun, hshows⟩

theorem drafts_line (h : w.Shows d) (text : String) :
    Drafts (line text) w (d.add ⟨w.depth, text⟩).endLine none :=
  (drafts_append h text).seq fun _ _ hshows => drafts_endLine hshows

theorem Drafts.indented (hx : Drafts x { w with depth := w.depth + 1 } d failure) :
    Drafts (indented x) w d failure := by
  obtain ⟨w', hrun, hshows⟩ := hx
  refine ⟨{ w' with depth := w'.depth - 1 }, ?_, { hshows with }⟩
  unfold Writer.indented
  rw [hrun]
  cases failure <;> rfl

end Writer

namespace Step

mutual

/-- Where the sink never fails, a step does to the writer what it does to the draft. -/
theorem drafts_run : (step : Step) → ∀ {w : Writer Sink} {d : Draft}, w.Shows d →
    Writer.Drafts step.run w (step.draft w.depth d) step.failure?
  | append text, _, _, h => Writer.drafts_append h text
  | endLine, _, _, h => Writer.drafts_endLine h
  | line text, _, _, h => Writer.drafts_line h text
  | flush, w, _, h => by
    refine ⟨w, ?_, h⟩
    rw [run, Writer.flush_eq, h.flushes]
    rfl
  | note record, w, _, h => ⟨{ w with log := w.log ++ [record] }, rfl, { h with }⟩
  | fail _, w, _, h => ⟨w, rfl, h⟩
  | group body, _, _, h => drafts_runAll body h
  | indented body, w, _, h => (drafts_runAll body (h.atDepth (w.depth + 1))).indented

theorem drafts_runAll : (steps : List Step) → ∀ {w : Writer Sink} {d : Draft}, w.Shows d →
    Writer.Drafts (runAll steps) w (draftAll steps w.depth d) (failureOfAll? steps)
  | [], w, _, h => ⟨w, rfl, h⟩
  | step :: steps, w, d, h => by
    have hstep := drafts_run step h
    rw [runAll, draftAll, failureOfAll?]
    cases hfailure : step.failure? with
    | some e =>
      rw [hfailure] at hstep
      exact hstep.stop (runAll steps)
    | none =>
      rw [hfailure] at hstep
      refine hstep.seq fun w' hrun hshows => ?_
      -- the later steps are drafted at the depth of `w`, and `w'` is at that depth again
      have hlater := drafts_runAll steps hshows
      rwa [depth_of_run hrun] at hlater

end

theorem shows_after (step : Step) (h : w.Shows d) :
    (step.after w).Shows (step.draft w.depth d) := by
  obtain ⟨w', hrun, hshows⟩ := drafts_run step h
  have hafter : step.after w = w' := by
    rw [after, hrun]
    cases step.failure? <;> rfl
  rwa [hafter]

theorem shows_of_runAll (h : w.Shows d) (hrun : runAll steps w = .ok () w') :
    w'.Shows (draftAll steps w.depth d) := by
  obtain ⟨v, hdrafts, hshows⟩ := drafts_runAll steps h
  rw [hrun] at hdrafts
  cases hfailure : failureOfAll? steps with
  | some e =>
    rw [hfailure] at hdrafts
    cases hdrafts
  | none =>
    rw [hfailure] at hdrafts
    cases hdrafts
    exact hshows

theorem shows_runEach (steps : List Step) (h : w.Shows d) :
    (runEach steps w).Shows (draftEach steps w.depth d) := by
  induction steps generalizing w d with
  | nil => exact h
  | cons step steps ih =>
    have hlater := ih (shows_after step h)
    rwa [depth_after] at hlater

end Step

end Drafting

section Nesting

variable {σ : Type} [ByteSink σ] {sink : σ} {w : Writer σ}

/-- In a run of the steps into the sink, `step` starts inside `n` indented blocks, and `w` is the
writer then. -/
inductive Reaches (steps : List Step) (sink : σ) : (n : Nat) → Step → Writer σ → Prop where
  /-- A step of the script itself starts when those before it are done, failed or not. -/
  | outermost {front back : List Step} {step : Step} (h : steps = front ++ step :: back) :
    Reaches steps sink 0 step (Step.runEach front (.ofSink sink))
  /-- A step of a group starts when those before it have succeeded. -/
  | grouped {n : Nat} {w w' : Writer σ} {front back : List Step} {step : Step}
    (h : Reaches steps sink n (.group (front ++ step :: back)) w)
    (hfront : Step.runAll front w = .ok () w') : Reaches steps sink n step w'
  /-- A step of an indented block starts one level deeper when those before it have succeeded. -/
  | indented {n : Nat} {w w' : Writer σ} {front back : List Step} {step : Step}
    (h : Reaches steps sink n (.indented (front ++ step :: back)) w)
    (hfront : Step.runAll front { w with depth := w.depth + 1 } = .ok () w') :
    Reaches steps sink (n + 1) step w'

namespace Reaches

theorem depth_eq (h : Reaches steps sink n step w) : w.depth = n := by
  induction h with
  | outermost _ => exact Step.depth_runEach _ _
  | grouped _ hfront ih => exact (Step.depth_of_runAll hfront).trans ih
  | indented _ hfront ih =>
    have hdepth := Step.depth_of_runAll hfront
    rw [hdepth, ih]

theorem depth_after (h : Reaches steps sink n step w) : (step.after w).depth = n :=
  (step.depth_after w).trans h.depth_eq

/-- Where the sink never fails, every step starts with a writer that shows some draft. -/
theorem exists_shows {w : Writer Sink} (h : Reaches steps .unlimited n step w) :
    ∃ d, w.Shows d := by
  induction h with
  | outermost _ =>
    exact ⟨_, Step.shows_runEach _ Writer.shows_empty⟩
  | grouped _ hfront ih =>
    obtain ⟨d, hshows⟩ := ih
    exact ⟨_, Step.shows_of_runAll hshows hfront⟩
  | indented _ hfront ih =>
    obtain ⟨d, hshows⟩ := ih
    exact ⟨_, Step.shows_of_runAll (hshows.atDepth _) hfront⟩

theorem error_eq_failure? {w : Writer Sink} (h : Reaches steps .unlimited n step w) :
    (Step.Report.ofResult (step.run w)).error = step.failure? := by
  obtain ⟨d, hshows⟩ := h.exists_shows
  obtain ⟨w', hrun, -⟩ := Step.drafts_run step hshows
  rw [hrun]
  cases step.failure? <;> rfl

end Reaches

mutual

/-- What is reported of a step is reported of a step that starts somewhere in the run. -/
theorem exists_reaches_of_mem_reports : (step : Step) → ∀ {n : Nat} {w : Writer σ},
    Reaches steps sink n step w → ∀ r ∈ step.reports w,
      ∃ n' step' w', Reaches steps sink n' step' w' ∧ r = .ofResult (step'.run w')
  | .indented body, n, w, h, r, hr => by
    rw [Step.reports, List.mem_append, List.mem_singleton] at hr
    rcases hr with hr | hr
    · exact exists_reaches_of_mem_blockReports body [] h rfl r hr
    · exact ⟨n, _, w, h, hr⟩
  | .append _, n, w, h, r, hr | .endLine, n, w, h, r, hr | .line _, n, w, h, r, hr
  | .flush, n, w, h, r, hr | .note _, n, w, h, r, hr | .fail _, n, w, h, r, hr
  | .group _, n, w, h, r, hr => ⟨n, _, w, h, List.mem_singleton.mp hr⟩

theorem exists_reaches_of_mem_blockReports : (rest front : List Step) →
    ∀ {n : Nat} {w w' : Writer σ}, Reaches steps sink n (.indented (front ++ rest)) w →
    Step.runAll front { w with depth := w.depth + 1 } = .ok () w' →
    ∀ r ∈ Step.blockReports rest w',
      ∃ n' step' w'', Reaches steps sink n' step' w'' ∧ r = .ofResult (step'.run w'')
  | [], _, _, _, _, _, _, _, hr => by cases hr
  -- `front` is the part of the block that is done: a step moves there when it succeeds
  | step :: rest, front, n, w, w', h, hfront, r, hr => by
    rw [Step.blockReports, List.mem_append] at hr
    rcases hr with hr | hr
    · exact exists_reaches_of_mem_reports step (.indented h hfront) r hr
    · cases hrun : step.run w' with
      | error e v =>
        rw [hrun] at hr
        cases hr
      | ok _ v =>
        rw [hrun] at hr
        have hfront' :
            Step.runAll (front ++ [step]) { w with depth := w.depth + 1 } = .ok () v := by
          rw [Step.runAll_append, bind_of_ok hfront, Step.runAll_singleton, hrun]
        rw [List.append_cons] at h
        exact exists_reaches_of_mem_blockReports rest (front ++ [step]) h hfront' r hr

end

theorem exists_reaches_of_mem_reportsOfEach (later front : List Step) (h : steps = front ++ later) :
    ∀ r ∈ Step.reportsOfEach later (Step.runEach front (.ofSink sink)),
      ∃ n step w, Reaches steps sink n step w ∧ r = .ofResult (step.run w) := by
  induction later generalizing front with
  | nil =>
    intro r hr
    cases hr
  | cons step later ih =>
    intro r hr
    rw [Step.reportsOfEach, List.mem_append] at hr
    rcases hr with hr | hr
    · exact exists_reaches_of_mem_reports step (.outermost h) r hr
    · refine ih (front ++ [step]) (by rw [h, List.append_cons]) r ?_
      rwa [Step.runEach_append]

end Nesting

/-- What a script writes is the draft of its lines. A step fails where the draft says so, a block
with the first failure inside. Into whatever sink it writes, a step that starts inside `n` blocks
starts and ends at the depth `n`, and so it is reported. -/
theorem writer_follows_line_model (steps : List Step) :
    (Step.runEach steps (.ofSink Sink.unlimited)).sink.contents =
        (Step.draftEach steps 0 .empty).text.toUTF8 ∧
      (∀ n step w, Reaches steps Sink.unlimited n step w →
        (Step.Report.ofResult (step.run w)).error = step.failure?) ∧
      (∀ line : List Fragment, (∀ f ∈ line, f.text = "") → lineText line = "") ∧
      (∀ (blank more : List Fragment) (first : Fragment), (∀ f ∈ blank, f.text = "") →
        first.text ≠ "" → lineText (blank ++ first :: more) =
          String.ofList (List.replicate (4 * first.depth) ' ') ++
            (first.text ++ String.join (more.map (·.text)))) ∧
      ∀ (σ : Type) [ByteSink σ] (sink : σ),
        (∀ n step w, Reaches steps sink n step w → w.depth = n ∧ (step.after w).depth = n) ∧
        ∀ r ∈ Step.reportsOfEach steps (.ofSink sink), ∃ n step w, Reaches steps sink n step w ∧
          r = .ofResult (step.run w) ∧ r.depth = n := by
  refine ⟨?_, fun n step w h => h.error_eq_failure?, fun line => lineText_of_blank,
    fun blank more first hblank hfirst => lineText_of_first hblank hfirst more, ?_⟩
  · exact (Step.shows_runEach steps Writer.shows_empty).contents_eq
  · intro σ _ sink
    refine ⟨fun n step w h => ⟨h.depth_eq, h.depth_after⟩, ?_⟩
    intro r hr
    obtain ⟨n, step, w, hreaches, rfl⟩ := exists_reaches_of_mem_reportsOfEach steps [] rfl r hr
    refine ⟨n, step, w, hreaches, rfl, ?_⟩
    rw [Step.depth_ofResult]
    exact hreaches.depth_after

/-- A line that is begun inside two blocks and goes on outside of them, after a failure. -/
def crossingScript : List Step :=
  [.append "a",
    .indented [.append "", .endLine,
      .indented [.append "b", .fail .outOfBounds, .line "x"], .line "y"],
    .append "c", .line "d"]

/-- The script in full, and into a sink that is full inside the inner block. -/
theorem writer_follows_line_model_crossing :
    (Step.runEach crossingScript (.ofSink Sink.unlimited)).sink.contents =
        "a\n        bcd\n".toUTF8 ∧
      ∃ w, Reaches crossingScript (Sink.ofCapacity 4) 2 (.append "b") w ∧
        (Step.append "b").run w = .error (.sink "sink closed") ((Step.append "b").after w) ∧
        w.depth = 2 ∧ ((Step.append "b").after w).depth = 2 := by
  obtain ⟨hcontents, -, -, -, hdepth⟩ := writer_follows_line_model crossingScript
  refine ⟨hcontents.trans (by cbv), ?_⟩
  have hinner : crossingScript = [.append "a"] ++ .indented ([.append "", .endLine] ++
      .indented ([] ++ .append "b" :: [.fail .outOfBounds, .line "x"]) :: [.line "y"]) ::
        [.append "c", .line "d"] := rfl
  have houter : Reaches crossingScript (Sink.ofCapacity 4) 0 _ _ := .outermost hinner
  have hreaches := Reaches.indented (.indented houter rfl) rfl
  refine ⟨_, hreaches, by cbv, ?_⟩
  exact (hdepth Sink _).1 _ _ _ hreaches

end Cil
