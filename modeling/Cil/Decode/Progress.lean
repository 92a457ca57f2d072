import Cil.Decode.Instruction

/-! Decoding an instruction uses up at least one byte. -/
namespace Cil.Decode

variable {α β : Type} {c c' : Cursor}

/-- A step that never gives bytes back. -/
def Forward (x : DecodeM α) : Prop :=
  ∀ c a c', x c = .ok a c' → c'.remaining ≤ c.remaining

theorem Forward.pure (a : α) : Forward (Pure.pure a) := by
  intro c b c' h
  cases h
  exact Nat.le_refl _

theorem Forward.throw (e : Error) : Forward (MonadExcept.throw e : DecodeM α) := by
  intro c b c' h
  cases h

theorem Forward.get : Forward (MonadState.get : DecodeM Cursor) := by
  intro c b c' h
  cases h
  exact Nat.le_refl _

theorem Forward.bind {x : DecodeM α} {f : α → DecodeM β} (hx : Forward x)
    (hf : ∀ a, Forward (f a)) : Forward (x >>= f) := by
  intro c b c' h
  obtain ⟨a, d, h1, h2⟩ := bind_eq_ok h
  exact Nat.le_trans (hf a _ _ _ h2) (hx _ _ _ h1)

theorem Forward.ite {p : Prop} [Decidable p] {x y : DecodeM α} (hx : Forward x)
    (hy : Forward y) : Forward (if p then x else y) := by
  split
  · exact hx
  · exact hy

theorem remaining_read {s : Scalar} {v : s.Value} (h : c.read? s = some (v, c')) :
    c'.remaining + s.width = c.remaining := by
  simp only [Cursor.read?] at h
  split at h
  next hw =>
    cases h
    simp only [Cursor.remaining, List.length_take, List.length_drop] at *
    omega
  next => simp at h

theorem remaining_fetch {s : Scalar} {offset : Nat} {v : s.Value}
    (h : fetch s offset c = .ok v c') : c'.remaining + s.width = c.remaining :=
  remaining_read (Cursor.readOr_eq_ok_iff.mp h)

theorem Forward.fetch (s : Scalar) (offset : Nat) : Forward (Decode.fetch s offset) := by
  intro c v c' h
  have := remaining_fetch h
  omega

theorem Forward.recognize (offset : Nat) (value : UInt16) (o : Option Opcode) :
    Forward (Decode.recognize offset value o) := by
  cases o
  · exact .throw _
  · exact .pure _

theorem Forward.branchTarget (offset base : Nat) (displacement : Int) :
    Forward (Decode.branchTarget offset base displacement) :=
  .ite (.throw _) (.pure _)

theorem Forward.readCases (offset base count : Nat) :
    Forward (Decode.readCases offset base count) := by
  induction count with
  | zero => exact .pure _
  | succ count ih =>
    exact .bind (.fetch _ _) fun _ => .bind (.branchTarget _ _ _) fun _ => .bind ih fun _ => .pure _

theorem Forward.readSwitch (offset : Nat) : Forward (Decode.readSwitch offset) :=
  .bind (.fetch _ _) fun _ => .bind .get fun _ => .ite (.throw _) (.readCases _ _ _)

theorem Forward.readToken (offset : Nat) (lookup : Token → Except ResolutionError α) :
    Forward (Decode.readToken offset lookup) := by
  refine .bind (.fetch _ _) fun raw => ?_
  dsimp only
  split
  · exact .pure _
  · exact .throw _

theorem Forward.readBranch (offset : Nat) (displacement : Int) :
    Forward (Decode.readBranch offset displacement) :=
  .bind .get fun _ => .bind (.branchTarget _ _ _) fun _ => .pure _

theorem Forward.readOperand (r : Resolver) (offset : Nat) (kind : OperandKind) :
    Forward (Decode.readOperand r offset kind) := by
  cases kind with
  | none => exact .pure _
  | switch => exact .bind (.readSwitch _) fun _ => .pure _
  | shortBranch | longBranch => exact .bind (.fetch _ _) fun _ => .readBranch _ _
  | type | method | field | tok | string | signature =>
    exact .bind (.readToken _ _) fun _ => .pure _
  | _ => exact .bind (.fetch _ _) fun _ => .pure _

theorem remaining_readOpcode_lt {offset : Nat} {o : Opcode}
    (h : readOpcode offset c = .ok o c') : c'.remaining < c.remaining := by
  obtain ⟨first, d, h1, h2⟩ := bind_eq_ok h
  have hd := remaining_fetch h1
  have hf : Forward (if first = extendedMark then
      (do
        let second ← Decode.fetch .u8 offset
        Decode.recognize offset (Opcode.extendedValue second) (Opcode.ofSecondByte? second))
      else Decode.recognize offset first.toUInt16 (Opcode.ofByte? first)) :=
    .ite (.bind (.fetch _ _) fun _ => .recognize _ _ _) (.recognize _ _ _)
  have := hf _ _ _ h2
  simp only [Scalar.width] at hd
  omega

theorem remaining_instruction_lt {r : Resolver} {i : Instruction}
    (h : instruction r c = .ok i c') : c'.remaining < c.remaining := by
  obtain ⟨_, _, h1, h⟩ := bind_eq_ok h
  cases h1
  obtain ⟨o, d, h1, h⟩ := bind_eq_ok h
  have hd := remaining_readOpcode_lt h1
  have hf : Forward (do
      let operand ← Decode.readOperand r c.pos o.operand
      return (⟨c.pos, (← get).pos - c.pos, o, operand⟩ : Instruction)) :=
    .bind (.readOperand _ _ _) fun _ => .bind .get fun _ => .pure _
  have := hf _ _ _ h
  omega

end Cil.Decode
