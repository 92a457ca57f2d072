import Mathlib
import Cil.Proofs.Refusal

/-! A sink of limited capacity holds a prefix of what a sink without a limit gets. -/
namespace Cil

variable {limit : Nat} {bytes more : ByteArray} {s s' s'' : Sink} {w w' v v' : Writer Sink}
  {x y : WriteM Sink Unit} {r r' : EStateM.Result Error (Writer Sink) Unit} {steps : List Step}

section Bytes

theorem extract_of_size_le (h : bytes.size ≤ limit) : bytes.extract 0 limit = bytes := by
  have hmax := bytes.extract_zero_max_size (i := limit)
  rwa [max_eq_left h] at hmax

theorem extract_min_size (bytes : ByteArray) (limit : Nat) :
    bytes.extract 0 (min limit bytes.size) = bytes.extract 0 limit := by
  rcases Nat.le_total limit bytes.size with h | h
  · rw [min_eq_left h]
  · rw [min_eq_right h, ByteArray.extract_zero_size, extract_of_size_le h]

/-- What is added beyond the limit does not count. -/
theorem extract_append_of_le (h : limit ≤ bytes.size) :
    (bytes ++ more).extract 0 limit = bytes.extract 0 limit := by
  have hnone : more.extract (0 - bytes.size) (limit - bytes.size) = .empty := by
    apply ByteArray.extract_eq_empty_iff.mpr
    omega
  rw [ByteArray.extract_append, hnone, ByteArray.append_empty]

/-- Below the limit, what is added counts as far as there is room. -/
theorem extract_append_of_size_le (h : bytes.size ≤ limit) :
    (bytes ++ more).extract 0 limit = bytes ++ more.extract 0 (limit - bytes.size) := by
  rw [ByteArray.extract_append, extract_of_size_le h, Nat.zero_sub]

end Bytes

namespace Sink

/-- `s'` is `s` with something added at the end, within the capacity. -/
structure Extends (s s' : Sink) : Prop where
  capacity_eq : s'.capacity = s.capacity
  contents_eq : ∃ more, s'.contents = s.contents ++ more
  size_le : ∀ limit, s.capacity = some limit → s.contents.size ≤ limit →
    s'.contents.size ≤ limit

theorem Extends.refl (s : Sink) : s.Extends s :=
  ⟨rfl, ⟨.empty, ByteArray.append_empty.symm⟩, fun _ _ h => h⟩

theorem Extends.trans (h : s.Extends s') (h' : s'.Extends s'') : s.Extends s'' := by
  obtain ⟨more, hmore⟩ := h.contents_eq
  obtain ⟨more', hmore'⟩ := h'.contents_eq
  refine ⟨h'.capacity_eq.trans h.capacity_eq, ⟨more ++ more', ?_⟩, ?_⟩
  · rw [hmore', hmore, ByteArray.append_assoc]
  · intro limit hcap hsize
    exact h'.size_le limit (h.capacity_eq.trans hcap) (h.size_le limit hcap hsize)

theorem Extends.size_mono (h : s.Extends s') : s.contents.size ≤ s'.contents.size := by
  obtain ⟨more, hmore⟩ := h.contents_eq
  rw [hmore, ByteArray.size_append]
  omega

/-- A full sink stays as it is. -/
theorem Extends.eq_of_full (h : s.Extends s') (hcap : s.capacity = some limit)
    (hfull : s.contents.size = limit) : s'.contents = s.contents := by
  obtain ⟨more, hmore⟩ := h.contents_eq
  have hsize := h.size_le limit hcap (by omega)
  rw [hmore, ByteArray.size_append] at hsize
  have hnone : more = .empty := ByteArray.size_eq_zero_iff.mp (by omega)
  rw [hmore, hnone, ByteArray.append_empty]

end Sink

namespace Writer

/-- The writer that is left by a result, whether it is a failure or not. -/
def left {σ : Type} : EStateM.Result Error (Writer σ) Unit → Writer σ
  | .ok _ w | .error _ w => w

/-- `v` stands where `w` does, and has a limit that has not been passed so far. -/
structure Synced (limit : Nat) (w v : Writer Sink) : Prop where
  unlimited : w.sink.capacity = none
  capacity_eq : v.sink.capacity = some limit
  flushFails_eq : v.sink.flushFails = w.sink.flushFails
  contents_eq : v.sink.contents = w.sink.contents
  depth_eq : v.depth = w.depth
  lineOpen_eq : v.lineOpen = w.lineOpen
  size_le : w.sink.contents.size ≤ limit

/-- The sink of `v` is full, and has the first bytes of what `w` has. Nothing is said of depths and
open lines: they are of no use to a full sink. -/
structure Cut (limit : Nat) (w v : Writer Sink) : Prop where
  capacity_eq : v.sink.capacity = some limit
  contents_eq : v.sink.contents = w.sink.contents.extract 0 limit
  lt_size : limit < w.sink.contents.size

theorem Cut.size_eq (h : Cut limit w v) : v.sink.contents.size = limit := by
  rw [h.contents_eq, ByteArray.size_extract]
  have := h.lt_size
  omega

/-- Once the limit has been passed, nothing that happens on either side matters any more. -/
theorem Cut.grow (h : Cut limit w v) (hw : w.sink.Extends w'.sink) (hv : v.sink.Extends v'.sink) :
    Cut limit w' v' := by
  obtain ⟨more, hmore⟩ := hw.contents_eq
  refine ⟨hv.capacity_eq.trans h.capacity_eq, ?_, lt_of_lt_of_le h.lt_size hw.size_mono⟩
  rw [hv.eq_of_full h.capacity_eq h.size_eq, h.contents_eq, hmore,
    extract_append_of_le h.lt_size.le]

/-- The same step with and without a limit: it takes the same course, or it passes the limit and
stops there. -/
inductive Truncates (limit : Nat) :
    (unlimited limited : EStateM.Result Error (Writer Sink) Unit) → Prop where
  | ok {w v : Writer Sink} (h : Synced limit w v) : Truncates limit (.ok () w) (.ok () v)
  | error {e : Error} {w v : Writer Sink} (h : Synced limit w v) :
    Truncates limit (.error e w) (.error e v)
  | cut {r : EStateM.Result Error (Writer Sink) Unit} {v : Writer Sink} (h : Cut limit (left r) v) :
    Truncates limit r (.error (.sink "sink closed") v)

/-- Whatever `x` does, it only adds to the sink, and a limit can do no more than to cut it off. -/
structure Streams (x : WriteM Sink Unit) : Prop where
  grows : ∀ w : Writer Sink, w.sink.Extends (left (x w)).sink
  truncates : ∀ {limit w v}, Synced limit w v → Truncates limit (x w) (x v)

theorem streams_pure : Streams (pure ()) where
  grows w := .refl w.sink
  truncates h := .ok h

theorem streams_throw (e : Error) : Streams (throw e) where
  grows w := .refl w.sink
  truncates h := .error h

theorem Streams.seq (hx : Streams x) (hy : Streams y) : Streams (do x; y) where
  grows w := by
    have hgrows := hx.grows w
    cases hrun : x w with
    | ok _ w' =>
      rw [bind_of_ok hrun]
      rw [hrun] at hgrows
      exact hgrows.trans (hy.grows w')
    | error e w' =>
      rw [bind_of_error hrun]
      rwa [hrun] at hgrows
  truncates {limit w v} h := by
    have htruncates := hx.truncates h
    cases hlimited : x v with
    | ok _ v' =>
      -- `.ok` is the only constructor left, so neither run has failed so far.
      rw [hlimited] at htruncates
      generalize hrun : x w = r at htruncates
      cases htruncates with
      | ok h' =>
        rw [bind_of_ok hrun, bind_of_ok hlimited]
        exact hy.truncates h'
    | error e v' =>
      rw [hlimited] at htruncates
      rw [bind_of_error hlimited]
      generalize hrun : x w = r at htruncates
      cases htruncates with
      | error h' =>
        rw [bind_of_error hrun]
        exact .error h'
      | cut h' =>
        -- With the limit it ends here. Without it `y` may still run, but only adds to the end.
        apply Truncates.cut
        cases r with
        | ok _ w' =>
          rw [bind_of_ok hrun]
          exact h'.grow (hy.grows w') (.refl _)
        | error e w' =>
          rw [bind_of_error hrun]
          exact h'

theorem streams_modify {f : Writer Sink → Writer Sink} (hsink : ∀ w, (f w).sink = w.sink)
    (hsynced : ∀ {limit w v}, Synced limit w v → Synced limit (f w) (f v)) :
    Streams (modify f) where
  grows w := by
    change w.sink.Extends (f w).sink
    rw [hsink]
    exact .refl w.sink
  truncates h := .ok (hsynced h)

/-- A step that is chosen by how the line stands is chosen alike with and without a limit. -/
theorem streams_choice {f : Writer Sink → WriteM Sink Unit} (h : ∀ w, Streams (f w))
    (hline : ∀ w v, v.lineOpen = w.lineOpen → v.depth = w.depth → f v = f w) :
    Streams (get >>= f) where
  grows w := (h w).grows w
  truncates {limit w v} hw := by
    change Truncates limit (f w w) (f v v)
    rw [hline w v hw.lineOpen_eq hw.depth_eq]
    exact (h w).truncates hw

theorem streams_write (text : String) : Streams (write text) where
  grows w := by
    rw [write_eq]
    cases hcap : w.sink.capacity with
    | none =>
      rw [onSink_of_ok (Sink.write_unlimited hcap)]
      refine ⟨rfl, ⟨text.toUTF8, rfl⟩, ?_⟩
      intro limit hlimit
      cases hcap.symm.trans hlimit
    | some capacity =>
      by_cases hfits : text.toUTF8.size ≤ capacity - w.sink.contents.size
      · rw [onSink_of_ok (Sink.write_of_le hcap hfits)]
        refine ⟨rfl, ⟨text.toUTF8, rfl⟩, ?_⟩
        intro limit hlimit hsize
        cases hcap.symm.trans hlimit
        simp only [left, ByteArray.size_append]
        omega
      · rw [onSink_of_error (Sink.write_of_not_le hcap hfits)]
        refine ⟨rfl, ⟨_, rfl⟩, ?_⟩
        intro limit hlimit hsize
        cases hcap.symm.trans hlimit
        simp only [left, ByteArray.size_append, ByteArray.size_extract]
        omega
  truncates {limit w v} h := by
    have hsize := h.size_le
    rw [write_eq, onSink_of_ok (Sink.write_unlimited h.unlimited)]
    by_cases hfits : text.toUTF8.size ≤ limit - v.sink.contents.size
    · rw [onSink_of_ok (Sink.write_of_le h.capacity_eq hfits)]
      refine .ok { h with contents_eq := ?_, size_le := ?_ }
      · simp only [h.contents_eq]
      · rw [h.contents_eq] at hfits
        simp only [ByteArray.size_append]
        omega
    · rw [onSink_of_error (Sink.write_of_not_le h.capacity_eq hfits)]
      rw [h.contents_eq] at hfits ⊢
      refine .cut ⟨h.capacity_eq, (extract_append_of_size_le hsize).symm, ?_⟩
      simp only [left, ByteArray.size_append]
      omega

theorem streams_flush : Streams flush where
  grows w := by
    rw [flush_eq]
    by_cases hfails : w.sink.flushFails = true
    · rw [if_pos hfails]
      exact .refl w.sink
    · rw [if_neg hfails]
      exact .refl w.sink
  truncates {limit w v} h := by
    rw [flush_eq, flush_eq, h.flushFails_eq]
    by_cases hfails : w.sink.flushFails = true
    · rw [if_pos hfails, if_pos hfails]
      exact .error h
    · rw [if_neg hfails, if_neg hfails]
      exact .ok h

theorem Streams.indented (h : Streams x) : Streams (indented x) where
  grows w := by
    have hgrows := h.grows { w with depth := w.depth + 1 }
    unfold Writer.indented
    cases hrun : x { w with depth := w.depth + 1 } with
    | ok _ w' =>
      rw [hrun] at hgrows
      exact hgrows
    | error e w' =>
      rw [hrun] at hgrows
      exact hgrows
  truncates {limit w v} hw := by
    have hdeeper : Synced limit { w with depth := w.depth + 1 } { v with depth := v.depth + 1 } :=
      { hw with depth_eq := by rw [hw.depth_eq] }
    have htruncates := h.truncates hdeeper
    unfold Writer.indented
    generalize x { w with depth := w.depth + 1 } = r at htruncates
    generalize x { v with depth := v.depth + 1 } = r' at htruncates
    cases htruncates with
    | ok h' => exact .ok { h' with depth_eq := by rw [h'.depth_eq] }
    | error h' => exact .error { h' with depth_eq := by rw [h'.depth_eq] }
    | cut h' =>
      apply Truncates.cut
      cases r with
      | ok _ w' => exact { h' with }
      | error e w' => exact { h' with }

theorem compositional_streams : Compositional Streams where
  nothing := streams_pure
  seq := .seq
  write := streams_write
  flush := streams_flush
  note _ := streams_modify (fun _ => rfl) fun h => { h with }
  setOpen _ := streams_modify (fun _ => rfl) fun h => { h with lineOpen_eq := rfl }
  choice := streams_choice
  indented := .indented

/-- `v` has a limit and `w` has none, and apart from that they have been through the same. -/
def Follows (limit : Nat) (w v : Writer Sink) : Prop := Synced limit w v ∨ Cut limit w v

theorem Follows.contents_eq (h : Follows limit w v) :
    v.sink.contents = w.sink.contents.extract 0 limit := by
  rcases h with hsynced | hcut
  · rw [hsynced.contents_eq, extract_of_size_le hsynced.size_le]
  · exact hcut.contents_eq

theorem Truncates.follows (h : Truncates limit r r') : Follows limit (left r) (left r') := by
  cases h with
  | ok h' => exact .inl h'
  | error h' => exact .inl h'
  | cut h' => exact .inr h'

theorem Streams.follows (hx : Streams x) (h : Follows limit w v) :
    Follows limit (left (x w)) (left (x v)) := by
  rcases h with hsynced | hcut
  · exact (hx.truncates hsynced).follows
  · exact .inr (hcut.grow (hx.grows w) (hx.grows v))

theorem synced_ofSink (limit : Nat) (flushFails : Bool) :
    Synced limit (.ofSink ⟨none, flushFails, .empty⟩) (.ofSink ⟨some limit, flushFails, .empty⟩) :=
  ⟨rfl, rfl, rfl, rfl, rfl, rfl, Nat.zero_le limit⟩

end Writer

namespace Step

theorem streams_run (step : Step) : Writer.Streams step.run :=
  Writer.compositional_streams.run step (.inr Writer.streams_throw)

theorem streams_runAll (steps : List Step) : Writer.Streams (runAll steps) :=
  Writer.compositional_streams.runAll steps (.inr Writer.streams_throw)

theorem after_eq_left {σ : Type} [ByteSink σ] (step : Step) (w : Writer σ) :
    step.after w = Writer.left (step.run w) := by
  unfold after
  cases step.run w <;> rfl

/-- What one step leaves behind, it leaves behind under a limit as well, as far as it fits. -/
theorem follows_after (step : Step) (h : Writer.Follows limit w v) :
    Writer.Follows limit (step.after w) (step.after v) := by
  rw [after_eq_left, after_eq_left]
  exact (streams_run step).follows h

theorem follows_runEach (steps : List Step) (h : Writer.Follows limit w v) :
    Writer.Follows limit (runEach steps w) (runEach steps v) := by
  induction steps generalizing w v with
  | nil => exact h
  | cons step steps ih => exact ih (follows_after step h)

end Step

namespace Script

/-- All the bytes that a script writes where nothing stops it. -/
def output (steps : List Step) : ByteArray := (writeTo steps Sink.unlimited).2.contents

theorem output_of_plain (hplain : Step.allPlain steps = true) :
    output (steps ++ [.flush]) = (Step.textsAt steps 0 false).toUTF8 := by
  rw [output, writeTo_of_plain hplain rfl rfl]
  exact ByteArray.empty_append

theorem writeTo_snd (steps : List Step) (sink : Sink) :
    (writeTo steps sink).2 = (Writer.left (run steps sink)).sink := by
  unfold writeTo
  cases run steps sink <;> rfl

/-- With a limit a script ends as it does without one, unless it passes the limit. -/
theorem writeTo_limited (steps : List Step) (limit : Nat) (flushFails : Bool) :
    (writeTo steps (Sink.mk (some limit) flushFails .empty)).2.contents =
        (writeTo steps (Sink.mk none flushFails .empty)).2.contents.extract 0 limit ∧
      (writeTo steps (Sink.mk (some limit) flushFails .empty)).1 =
        if limit < (writeTo steps (Sink.mk none flushFails .empty)).2.contents.size then
          .error (.sink "sink closed")
        else (writeTo steps (Sink.mk none flushFails .empty)).1 := by
  have htruncates : Writer.Truncates limit (run steps (Sink.mk none flushFails .empty))
      (run steps (Sink.mk (some limit) flushFails .empty)) :=
    (Step.streams_runAll steps).truncates (Writer.synced_ofSink limit flushFails)
  refine ⟨?_, ?_⟩
  · rw [writeTo_snd, writeTo_snd]
    exact htruncates.follows.contents_eq
  · rw [writeTo_snd]
    unfold writeTo
    generalize run steps (Sink.mk none flushFails .empty) = r at htruncates
    generalize run steps (Sink.mk (some limit) flushFails .empty) = r' at htruncates
    cases htruncates with
    | ok h | error h => exact (if_neg (Nat.not_lt.mpr h.size_le)).symm
    | cut h => exact (if_pos h.lt_size).symm

/-- Without a limit, the flush decides how steps end that only write. -/
theorem writeTo_flush_of_plain (hplain : Step.allPlain steps = true) (flushFails : Bool) :
    writeTo (steps ++ [.flush]) (Sink.mk none flushFails .empty) =
      (if flushFails then .error (.sink "flush failed") else .ok (),
        ⟨none, flushFails, output (steps ++ [.flush])⟩) := by
  have hcap : (Sink.mk none flushFails .empty).capacity = none := rfl
  obtain ⟨w, hsink, hrun⟩ := run_of_plain hplain hcap
  rw [ByteArray.empty_append, ← output_of_plain hplain] at hsink
  unfold writeTo
  rw [hrun]
  cases flushFails <;> simp [hsink]

theorem contents_of_plain (hplain : Step.allPlain steps = true) (limit : Nat)
    (flushFails : Bool) :
    (writeTo (steps ++ [.flush]) (Sink.mk (some limit) flushFails .empty)).2.contents =
      (output (steps ++ [.flush])).extract 0 limit := by
  rw [(writeTo_limited _ limit flushFails).1, writeTo_flush_of_plain hplain]

/-- They succeed if they fit into the sink and the flush works, and only then. -/
theorem writeTo_fst_of_plain (hplain : Step.allPlain steps = true) (limit : Nat)
    (flushFails : Bool) :
    (writeTo (steps ++ [.flush]) (Sink.mk (some limit) flushFails .empty)).1 = .ok () ↔
      flushFails = false ∧ (output (steps ++ [.flush])).size ≤ limit := by
  rw [(writeTo_limited _ limit flushFails).2, writeTo_flush_of_plain hplain]
  by_cases hlt : limit < (output (steps ++ [.flush])).size
  · simp [hlt]
  · have hle := Nat.le_of_not_lt hlt
    cases flushFails <;> simp [hlt, hle]

end Script

/-- With a limit, the sink ends up with as many of the bytes of a declaration as it takes. The
declaration gets through if all of them fit and the flush works, and otherwise the sink reports
the failure. The same limit cuts off what is written step by step, whatever the steps are and
wherever they fail. -/
theorem bounded_sink_truncates (options : ListingOptions) (limit : Nat) (flushFails : Bool) :
    (∀ d : Declaration, d.unsupported? = none →
      (Script.writeTo (d.script options) (Sink.mk (some limit) flushFails .empty)).2.contents =
          (Script.output (d.script options)).extract 0
            (min limit (Script.output (d.script options)).size) ∧
        ((Script.writeTo (d.script options) (Sink.mk (some limit) flushFails .empty)).1 = .ok () ↔
          flushFails = false ∧ (Script.output (d.script options)).size ≤ limit) ∧
        ((Script.writeTo (d.script options) (Sink.mk (some limit) flushFails .empty)).1 ≠ .ok () →
          ∃ reason, (Script.writeTo (d.script options) (Sink.mk (some limit) flushFails .empty)).1 =
            .error (.sink reason))) ∧
      ∀ steps : List Step,
        (Step.runEach steps (.ofSink (Sink.mk (some limit) flushFails .empty))).sink.contents =
          (Step.runEach steps (.ofSink (Sink.mk none flushFails .empty))).sink.contents.extract 0
            (min limit (Step.runEach steps
              (.ofSink (Sink.mk none flushFails .empty))).sink.contents.size) := by
  constructor
  · intro d hsupported
    rw [d.unsupported?_eq, List.head?_eq_none_iff] at hsupported
    have hplain : Step.allPlain (d.steps options) = true := Declaration.allPlain_steps hsupported
    rw [Declaration.script_of_supported hsupported, extract_min_size]
    refine ⟨Script.contents_of_plain hplain limit flushFails,
      Script.writeTo_fst_of_plain hplain limit flushFails, ?_⟩
    intro hfails
    cases hresult : (Script.writeTo (d.steps options ++ [.flush])
        (Sink.mk (some limit) flushFails .empty)).1 with
    | ok _ => exact absurd hresult hfails
    | error e =>
      obtain ⟨reason, rfl⟩ := Script.eq_sink_of_writeTo hplain hresult
      exact ⟨reason, rfl⟩
  · intro steps
    rw [extract_min_size]
    exact (Step.follows_runEach steps (.inl (Writer.synced_ofSink limit flushFails))).contents_eq

/-- A method of 107 bytes, which does not fit into 106, and steps of which the third passes the
limit and the last finds no room at all. -/
theorem bounded_sink_truncates_addMethod :
    (Script.writeTo ((Declaration.method addMethod).script .separated)
        (Sink.ofCapacity 107)).1 = .ok () ∧
      (∃ reason, (Script.writeTo ((Declaration.method addMethod).script .separated)
        (Sink.ofCapacity 106)).1 = .error (.sink reason)) ∧
      (Step.runEach
        [.line "a", .append "b", .indented [.endLine, .append "c", .line "d"], .line "e"]
        (.ofSink (Sink.ofCapacity 7))).sink.contents = "a\nb\n   ".toUTF8 := by
  have hsize : (Script.output ((Declaration.method addMethod).script .separated)).size = 107 := by
    cbv
  refine ⟨?_, ?_, ?_⟩
  · obtain ⟨_, hok, _⟩ :=
      (bounded_sink_truncates .separated 107 false).1 (.method addMethod) (by decide)
    exact hok.mpr ⟨rfl, hsize.le⟩
  · obtain ⟨_, hok, hfails⟩ :=
      (bounded_sink_truncates .separated 106 false).1 (.method addMethod) (by decide)
    apply hfails
    rw [ne_eq, hok, hsize]
    decide
  · exact ((bounded_sink_truncates .separated 7 false).2 _).trans (by cbv)

end Cil
