import Mathlib
import Cil.Proofs.Body

/-! Where a cursor can stand after any history of calls on it, whether they failed or not. -/
namespace Cil

variable {r : Resolver} {k n : Nat} {kind : OperandKind} {e : Error} {i : Instruction}
  {bytes : List UInt8} {body : List Instruction} {c d d' : Cursor}

namespace Decode

theorem OperandFault.le_length {pos : Nat} (h : OperandFault r k kind pos bytes e n) :
    n ≤ bytes.length := by
  cases h with
  | short | shortCount => exact Nat.zero_le _
  | negativeCase _ hcount =>
    simp only [List.length_append, List.length_cons, length_tableBytes, Scalar.length_toBytes,
      Scalar.width] at hcount ⊢
    omega
  | _ =>
    simp only [List.length_append, Scalar.length_toBytes, Scalar.width]
    omega

/-- A decoder that fails has not read more than there is. -/
theorem Fault.le_length (h : Fault r k bytes e n) : n ≤ bytes.length := by
  cases h with
  | nothing => exact Nat.zero_le _
  | unknownByte | loneMark | unknownPair => simp
  | @operand o rest e n hmem hfault =>
    have hrest := hfault.le_length
    have hopcode := o.length_bytes
    rw [List.length_append]
    omega

end Decode

namespace Cursor

/-- `d` is `c` moved over a front part of what was left. -/
def Passes (c d : Cursor) : Prop :=
  ∃ front, c.rest = front ++ d.rest ∧ d.pos = c.pos + front.length

theorem Passes.refl (c : Cursor) : Passes c c := ⟨[], rfl, rfl⟩

theorem Passes.trans (h : Passes c d) (h' : Passes d d') : Passes c d' := by
  obtain ⟨front, hrest, hpos⟩ := h
  obtain ⟨front', hrest', hpos'⟩ := h'
  refine ⟨front ++ front', ?_, ?_⟩
  · rw [hrest, hrest', List.append_assoc]
  · rw [hpos', hpos, List.length_append, Nat.add_assoc]

theorem Passes.pos_le (h : Passes c d) : c.pos ≤ d.pos := by
  obtain ⟨front, -, hpos⟩ := h
  omega

theorem Passes.eq_startingAt (h : Passes (ofBytes bytes) d) :
    d.pos ≤ bytes.length ∧ d = startingAt bytes d.pos := by
  obtain ⟨front, hrest, hpos⟩ := h
  have hbytes : bytes = front ++ d.rest := hrest
  have hfront : d.pos = front.length := hpos.trans (Nat.zero_add _)
  refine ⟨?_, ?_⟩
  · rw [hbytes, List.length_append]
    omega
  · have hdrop : bytes.drop d.pos = d.rest := by rw [hbytes, hfront, List.drop_left]
    rw [startingAt, hdrop]

end Cursor

namespace Decode

open Cursor (Passes)

theorem Run.passes (h : Run r c body d) : Passes c d := h.rest_eq

theorem passes_of_instruction (h : instruction r c = .ok i d) : Passes c d :=
  (Run.cons h .nil).passes

theorem passes_of_instruction_error (h : instruction r c = .error e d) : Passes c d := by
  obtain ⟨n, hfault, rfl⟩ := instruction_eq_error_iff.mp h
  refine ⟨c.rest.take n, (List.take_append_drop n c.rest).symm, ?_⟩
  rw [List.length_take_of_le hfault.le_length]

theorem passes_of_stream (h : stream r c = .ok body d) : Passes c d :=
  (stream_eq_ok_iff.mp h).1.passes

/-- A body that is refused leaves the cursor at its end, or inside the instruction that does not
decode. -/
theorem passes_of_stream_error (h : stream r c = .error e d) : Passes c d := by
  obtain ⟨found, stop, hrun, hend | ⟨hmore, e', d', herror⟩⟩ := exists_run r c
  · cases htarget : strayTarget? c.length found with
    | none =>
      rw [stream_of_closed hrun hend htarget] at h
      cases h
    | some e' =>
      rw [stream_of_stray hrun hend htarget] at h
      cases h
      exact hrun.passes
  · rw [stream_of_error hrun hmore herror] at h
    cases h
    exact hrun.passes.trans (passes_of_instruction_error herror)

theorem pos_of_instruction (h : instruction r c = .ok i d) :
    d.pos = c.pos + i.size ∧ 0 < i.size := by
  obtain ⟨raw, -, hres, -, hpos⟩ := instruction_eq_ok_iff.mp h
  obtain ⟨a, -, rfl⟩ := RawInstruction.resolveAt_eq_ok_iff.mp hres
  exact ⟨hpos, raw.size_pos⟩

end Decode

namespace Cursor

theorem eq_of_readValue_error {s : Scalar} (h : readValue s c = .error e d) : d = c :=
  (readOr_eq_error_iff.mp h).2.2.symm

theorem passes_of_readValue {s : Scalar} {v : s.Value} (h : readValue s c = .ok v d) :
    Passes c d := by
  obtain ⟨hrest, hpos⟩ := read?_eq_some_iff.mp (readOr_eq_ok_iff.mp h)
  exact ⟨s.toBytes v, hrest, by rw [hpos, Scalar.length_toBytes]⟩

/-- A call that can be made on a cursor. Every decoding call brings its own resolver. -/
inductive Call where
  | read (s : Scalar)
  | peek
  | instruction (r : Resolver)
  | stream (r : Resolver)

namespace Call

/-- What a call answers when it succeeds. -/
abbrev Answer : Call → Type
  | read s => s.Value
  | peek => UInt8
  | instruction _ => Instruction
  | stream _ => List Instruction

def run : (call : Call) → DecodeM call.Answer
  | read s => readValue s
  | peek => peekByte
  | instruction r => Decode.instruction r
  | stream r => Decode.stream r

/-- The cursor after a call, whether it failed or not. -/
def after (call : Call) (c : Cursor) : Cursor :=
  match call.run c with
  | .ok _ d => d
  | .error _ d => d

theorem after_of_ok {call : Call} {a : call.Answer} (h : call.run c = .ok a d) :
    call.after c = d := by
  simp only [after, h]

theorem after_of_error {call : Call} (h : call.run c = .error e d) : call.after c = d := by
  simp only [after, h]

theorem after_peek (c : Cursor) : peek.after c = c := by
  obtain ⟨pos, rest⟩ := c
  cases rest with
  | nil => rfl
  | cons b rest => rfl

/-- Reading at an offset and reading from a cursor there end at one place. -/
theorem pos_after_read (s : Scalar) (bytes : List UInt8) (pos : Nat) :
    ((read s).after (startingAt bytes pos)).pos = (s.readAt bytes pos).2 := by
  cases hread : readValue s (startingAt bytes pos) with
  | ok v d =>
    have hafter : (read s).after (startingAt bytes pos) = d := after_of_ok hread
    simp only [hafter, Scalar.readAt, hread]
  | error e d =>
    have hafter : (read s).after (startingAt bytes pos) = d := after_of_error hread
    simp only [hafter, Scalar.readAt, hread]
    rw [eq_of_readValue_error hread]
    rfl

theorem passes_after_of {call : Call} (hok : ∀ a d, call.run c = .ok a d → Passes c d)
    (herror : ∀ e d, call.run c = .error e d → Passes c d) : Passes c (call.after c) := by
  cases hrun : call.run c with
  | ok a d =>
    rw [after_of_ok hrun]
    exact hok a d hrun
  | error e d =>
    rw [after_of_error hrun]
    exact herror e d hrun

/-- No call moves the cursor back or past the end. -/
theorem passes_after (call : Call) (c : Cursor) : Passes c (call.after c) := by
  cases call with
  | read s =>
    apply passes_after_of
    · intro v d h
      exact passes_of_readValue h
    · intro e d h
      rw [eq_of_readValue_error h]
      exact .refl c
  | peek =>
    rw [after_peek]
    exact .refl c
  | instruction r =>
    apply passes_after_of
    · intro i d h
      exact Decode.passes_of_instruction h
    · intro e d h
      exact Decode.passes_of_instruction_error h
  | stream r =>
    apply passes_after_of
    · intro body d h
      exact Decode.passes_of_stream h
    · intro e d h
      exact Decode.passes_of_stream_error h

end Call

/-- The cursor after a history of calls. A call that fails does not keep the later ones from being
made. -/
def afterAll (c : Cursor) : (history : List Call) → Cursor
  | [] => c
  | call :: history => (call.after c).afterAll history

theorem afterAll_append (c : Cursor) (history later : List Call) :
    c.afterAll (history ++ later) = (c.afterAll history).afterAll later := by
  induction history generalizing c with
  | nil => rfl
  | cons call history ih => exact ih (call.after c)

theorem passes_afterAll (c : Cursor) (history : List Call) : Passes c (c.afterAll history) := by
  induction history generalizing c with
  | nil => exact .refl c
  | cons call history ih => exact (call.passes_after c).trans (ih (call.after c))

/-- After any history of calls a cursor stands inside its bytes and knows how many of them are left,
and it only ever moves forward: not at all if a read fails or a byte is only looked at, by the size
of an instruction that decodes, and to the end if all that is left decodes. -/
theorem afterAll_stays_in_bytes (bytes : List UInt8) (history : List Call) :
    let c := (ofBytes bytes).afterAll history
    (c.pos ≤ bytes.length ∧ c.rest = bytes.drop c.pos ∧ c.length = bytes.length ∧
        c.remaining = bytes.length - c.pos ∧ (c.hasMore = true ↔ 0 < c.remaining)) ∧
      (∀ later, c.pos ≤ ((ofBytes bytes).afterAll (history ++ later)).pos) ∧
      (∀ s, ((Call.read s).after c).pos = (s.readAt bytes c.pos).2) ∧
      (∀ s e d, (Call.read s).run c = .error e d → d.pos = c.pos) ∧
      (Call.peek.after c).pos = c.pos ∧
      (∀ r i d, (Call.instruction r).run c = .ok i d → d.pos = c.pos + i.size ∧ c.pos < d.pos) ∧
      ∀ r body d, (Call.stream r).run c = .ok body d → d.pos = bytes.length := by
  intro c
  have hpasses : Passes (ofBytes bytes) c := passes_afterAll _ history
  obtain ⟨hle, hc⟩ := hpasses.eq_startingAt
  have hrest : c.rest = bytes.drop c.pos := congrArg Cursor.rest hc
  have hremaining : c.remaining = bytes.length - c.pos := by
    rw [remaining, hrest, List.length_drop]
  refine ⟨⟨hle, hrest, ?_, hremaining, ?_⟩, ?_, ?_, ?_, ?_, ?_, ?_⟩
  · rw [length, hremaining]
    omega
  · rw [Decode.hasMore_eq_true_iff, remaining, List.length_pos_iff]
  · intro later
    rw [afterAll_append]
    exact (passes_afterAll c later).pos_le
  · intro s
    rw [← Call.pos_after_read, ← hc]
  · intro s e d h
    rw [eq_of_readValue_error h]
  · rw [Call.after_peek]
  · intro r i d h
    obtain ⟨hpos, hsize⟩ := Decode.pos_of_instruction h
    exact ⟨hpos, by omega⟩
  · intro r body d h
    obtain ⟨hrun, hend, -⟩ := Decode.stream_eq_ok_iff.mp h
    obtain ⟨hd, heq⟩ := (hpasses.trans hrun.passes).eq_startingAt
    have hnil : bytes.drop d.pos = [] := by
      rw [← hend]
      exact (congrArg Cursor.rest heq).symm
    have hge := List.drop_eq_nil_iff.mp hnil
    omega

/-- Four bytes that are too few for a wide read, but make up three instructions. -/
def branchBytes : List UInt8 := [0x00, 0x2B, 0x00, 0x2A]

/-- After a read that fails and an instruction that decodes, what is left decodes to the end. -/
theorem afterAll_stays_in_bytes_branch :
    let r := TokenTable.empty.resolver
    let c := (ofBytes branchBytes).afterAll [.read .u64, .instruction r]
    c.pos = 1 ∧ c.remaining = branchBytes.length - c.pos ∧
      ∃ body d, (Call.stream r).run c = .ok body d ∧ d.pos = branchBytes.length := by
  intro r c
  obtain ⟨⟨-, -, -, hremaining, -⟩, -, -, -, -, -, hstream⟩ :=
    afterAll_stays_in_bytes branchBytes [.read .u64, .instruction r]
  have hrun : (Call.stream r).run c = .ok
      [⟨1, 2, ⟨"br.s", 0x2B, .shortBranch, .branch⟩, .target 3⟩,
        ⟨3, 1, ⟨"ret", 0x2A, .none, .returns⟩, .none⟩] ⟨4, []⟩ := by cbv
  exact ⟨by cbv, hremaining, _, _, hrun, hstream r _ _ hrun⟩

end Cursor

end Cil
