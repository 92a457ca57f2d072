import Mathlib
import Cil.Proofs.Relocation

/-! Bodies back to back: a run depends on the bytes it passes and on nothing behind them. -/
namespace Cil.Decode

variable {r : Resolver} {c d e : Cursor} {i : Instruction} {body front back : List Instruction}
  {a b : List UInt8}

theorem instruction_exchange (h : instruction r c = .ok i d) :
    ∃ chunk, c.rest = chunk ++ d.rest ∧ d.pos = c.pos + chunk.length ∧
      ∀ rest, instruction r ⟨c.pos, chunk ++ rest⟩ = .ok i ⟨d.pos, rest⟩ := by
  obtain ⟨raw, hwf, hres, hrest, hpos⟩ := instruction_eq_ok_iff.mp h
  refine ⟨raw.bytesAt c.pos, hrest, by rw [hwf.length_bytesAt, hpos], ?_⟩
  intro rest
  rw [hpos]
  exact instruction_bytesAt hwf hres rest

/-- The bytes that a run passes give the same run whatever follows them. -/
theorem Run.exchange (h : Run r c body d) :
    ∃ passed, c.rest = passed ++ d.rest ∧ d.pos = c.pos + passed.length ∧
      ∀ rest, Run r ⟨c.pos, passed ++ rest⟩ body ⟨d.pos, rest⟩ := by
  induction h with
  | nil => exact ⟨[], rfl, rfl, fun rest => .nil⟩
  | cons hi _ ih =>
    obtain ⟨chunk, hchunk, hpos, hstep⟩ := instruction_exchange hi
    obtain ⟨passed, hpassed, hend, hrun⟩ := ih
    refine ⟨chunk ++ passed, ?_, ?_, ?_⟩
    · rw [hchunk, hpassed, List.append_assoc]
    · rw [List.length_append]
      omega
    · intro rest
      have hfirst := hstep (passed ++ rest)
      rw [← List.append_assoc] at hfirst
      exact .cons hfirst (hrun rest)

theorem run_append_iff :
    Run r c (front ++ back) e ↔ ∃ d, Run r c front d ∧ Run r d back e := by
  constructor
  · intro h
    induction front generalizing c with
    | nil => exact ⟨c, .nil, h⟩
    | cons i front ih =>
      cases h with
      | cons hi hrun =>
        obtain ⟨d, hfront, hback⟩ := ih hrun
        exact ⟨d, .cons hi hfront, hback⟩
  · rintro ⟨d, hfront, hback⟩
    induction hfront with
    | nil => exact hback
    | cons hi _ ih => exact .cons hi (ih hback)

theorem Closed.append (hfront : Closed front) (hback : Closed back) : Closed (front ++ back) := by
  intro i hi t ht
  rw [starts, List.map_append]
  rcases List.mem_append.mp hi with hi | hi
  · exact List.mem_append_left _ (hfront i hi t ht)
  · exact List.mem_append_right _ (hback i hi t ht)

/-- Two bodies back to back decode to the instructions of both, those of the second one moved behind
the first. -/
theorem decode_append (ha : decode r a = .ok front) (hb : decode r b = .ok back) :
    decode r (a ++ b) = .ok (front ++ back.map (·.shift a.length)) := by
  obtain ⟨hrunA, hclosedA⟩ := decode_eq_ok_iff_run.mp ha
  obtain ⟨hrunB, hclosedB⟩ := decode_eq_ok_iff_run.mp hb
  obtain ⟨passed, hpassed, -, hexchange⟩ := hrunA.exchange
  have hall : a = passed := hpassed.trans (List.append_nil passed)
  have hfirst := hexchange b
  rw [← hall] at hfirst
  have hsecond := hrunB.shift a.length
  refine decode_eq_ok_iff.mpr ⟨a.length + b.length, run_append_iff.mpr ⟨_, hfirst, hsecond⟩, ?_⟩
  exact hclosedA.append (closed_map_shift_iff.mpr hclosedB)

/-- The jump table of the second copy leads back into the second copy. -/
theorem decode_append_loop : decode oneString loopBytes = .ok loopBody ∧
    decode oneString (loopBytes ++ loopBytes) =
      .ok (loopBody ++ loopBody.map (·.shift 17)) := by
  have h : decode oneString loopBytes = .ok loopBody := by cbv
  exact ⟨h, decode_append h h⟩

end Cil.Decode
