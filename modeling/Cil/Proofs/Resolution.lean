import Mathlib
import Cil.Proofs.ErrorOrder

/-! What a resolver decides about a body: which operands its tokens stand for, and whether there are
any. Where instructions start and end, and everything else in them, is up to the bytes. -/
namespace Cil

variable {r s : Resolver} {kind : OperandKind} {t : Token} {bytes : List UInt8} {k : Nat}

/-- Whether an operand of this kind is encoded as a token. -/
def OperandKind.takesToken : OperandKind → Bool
  | type | method | field | tok | string | signature => true
  | _ => false

/-- The answer of a resolver to a token, in the lookup that belongs to the kind of operand. -/
def Resolver.answer (r : Resolver) (kind : OperandKind) (t : Token) :
    Except ResolutionError Operand :=
  (RawOperand.token t).resolve r kind

namespace Instruction

/-- The token of an instruction of a body, if it takes one: the four bytes after its opcode. -/
def token? (bytes : List UInt8) (i : Instruction) : Option Token :=
  if i.opcode.operand.takesToken then
    ((Cursor.startingAt bytes (i.offset + i.opcode.size)).read? .u32).map fun p => ⟨p.1⟩
  else
    none

/-- Whether a resolver has an answer to the token of an instruction, if that has one. -/
def AcceptedBy (r : Resolver) (bytes : List UInt8) (i : Instruction) : Prop :=
  ∀ t, i.token? bytes = some t → ∃ a, r.answer i.opcode.operand t = .ok a

/-- `j` is the instruction `i` of a body as another resolver has it: a token operand is that
resolver's answer, and everything else is the same. -/
structure RereadAs (r : Resolver) (bytes : List UInt8) (i j : Instruction) : Prop where
  offset_eq : j.offset = i.offset
  size_eq : j.size = i.size
  opcode_eq : j.opcode = i.opcode
  operand_eq : i.opcode.operand.takesToken = false → j.operand = i.operand
  answer_eq : i.opcode.operand.takesToken = true →
    ∃ t, i.token? bytes = some t ∧ r.answer i.opcode.operand t = .ok j.operand

theorem RereadAs.acceptedBy {i j : Instruction} (h : i.RereadAs r bytes j) :
    i.AcceptedBy r bytes := by
  intro t ht
  by_cases htakes : i.opcode.operand.takesToken = true
  · obtain ⟨u, hu, hanswer⟩ := h.answer_eq htakes
    rw [ht] at hu
    cases hu
    exact ⟨j.operand, hanswer⟩
  · simp [token?, htakes] at ht

end Instruction

namespace RawOperand

variable {raw : RawOperand}

theorem hasShape_token (t : Token) (kind : OperandKind) :
    (token t).hasShape kind = kind.takesToken := by
  cases kind <;> rfl

theorem exists_token (hshape : raw.hasShape kind = true) (htakes : kind.takesToken = true) :
    ∃ t, raw = token t := by
  cases raw with
  | token t => exact ⟨t, rfl⟩
  | _ => cases kind <;> cases hshape <;> cases htakes

/-- Only a token is looked up. -/
theorem resolve_eq_of_not_token (h : ∀ t, raw ≠ token t) (r s : Resolver) :
    raw.resolve r kind = raw.resolve s kind := by
  cases raw with
  | token t => exact absurd rfl (h t)
  | _ => rfl

theorem exists_token_of_error {source : ResolutionError}
    (h : raw.resolve r kind = .error source) : ∃ t, raw = token t := by
  cases raw with
  | token t => exact ⟨t, rfl⟩
  | _ => cases h

end RawOperand

/-- The token that has been decoded is found again in the bytes. -/
theorem Instruction.token?_of_bytesAt {o : Opcode} {rest : List UInt8}
    (htakes : o.operand.takesToken = true)
    (hbytes : bytes.drop k = (RawInstruction.mk o (.token t)).bytesAt k ++ rest) (size : Nat)
    (a : Operand) : Instruction.token? bytes ⟨k, size, o, a⟩ = some t := by
  have hdrop : bytes.drop (k + o.size) = Scalar.u32.toBytes t.raw ++ rest := by
    rw [← List.drop_drop, hbytes, ← o.length_bytes, RawInstruction.bytesAt, List.append_assoc,
      List.drop_left]
    rfl
  have hread : (Cursor.startingAt bytes (k + o.size)).read? .u32 =
      some (t.raw, ⟨k + o.size + 4, rest⟩) := Cursor.read?_eq_some_iff.mpr ⟨hdrop, rfl⟩
  simp only [token?, htakes, if_true, hread, Option.map_some]

namespace Decode

variable {c d : Cursor} {i : Instruction} {body : List Instruction} {o : Opcode}

/-- Another resolver sees an instruction in the same place, or it rejects its token. -/
theorem instruction_of_other (h : instruction r c = .ok i d) (hc : c.rest = bytes.drop c.pos)
    (s : Resolver) :
    (∃ j, instruction s c = .ok j d ∧ i.RereadAs s bytes j ∧
        j.branchTargets = i.branchTargets) ∨
      ∃ t source d', i.token? bytes = some t ∧ s.answer i.opcode.operand t = .error source ∧
        instruction s c = .error (.unresolvedToken i.offset t source) d' := by
  obtain ⟨raw, hwf, hres, hrest, hpos⟩ := instruction_eq_ok_iff.mp h
  obtain ⟨a, ha, rfl⟩ := RawInstruction.resolveAt_eq_ok_iff.mp hres
  obtain ⟨o, operand⟩ := raw
  have htoken : ∀ t, operand = .token t →
      Instruction.token? bytes ⟨c.pos, RawInstruction.size ⟨o, operand⟩, o, a⟩ = some t := by
    intro t ht
    subst ht
    have htakes : o.operand.takesToken = true := by
      rw [← RawOperand.hasShape_token t]
      exact hwf.hasShape
    exact Instruction.token?_of_bytesAt htakes (hc.symm.trans hrest) _ a
  cases hs : operand.resolve s o.operand with
  | ok b =>
    refine Or.inl ⟨⟨c.pos, RawInstruction.size ⟨o, operand⟩, o, b⟩, ?_, ⟨rfl, rfl, rfl, ?_, ?_⟩, ?_⟩
    · exact instruction_eq_ok_iff.mpr
        ⟨⟨o, operand⟩, hwf, RawInstruction.resolveAt_eq_ok_iff.mpr ⟨b, hs, rfl⟩, hrest, hpos⟩
    · intro htakes
      have hplain : ∀ t, operand ≠ .token t := by
        intro t ht
        have hshape := hwf.hasShape
        rw [ht, RawOperand.hasShape_token, htakes] at hshape
        cases hshape
      rw [RawOperand.resolve_eq_of_not_token hplain s r, ha] at hs
      cases hs
      rfl
    · intro htakes
      obtain ⟨t, ht⟩ := RawOperand.exists_token hwf.hasShape htakes
      refine ⟨t, htoken t ht, ?_⟩
      rw [Resolver.answer, ← ht]
      exact hs
    · exact (RawOperand.targets_of_resolve hs).trans (RawOperand.targets_of_resolve ha).symm
  | error source =>
    obtain ⟨t, rfl⟩ := RawOperand.exists_token_of_error hs
    have hfault : Fault s c.pos c.rest (.unresolvedToken c.pos t source) (o.size + 4) := by
      rw [hrest, RawInstruction.bytesAt, List.append_assoc]
      exact .operand hwf.mem_table (.unresolved hwf.hasShape hs)
    exact Or.inr ⟨t, source, _, htoken t rfl, hs, instruction_of_fault hfault⟩

/-- A run with one resolver is, with another, a run over the same instructions up to the first token
that is rejected. -/
theorem Run.of_other (h : Run r c body d) {bytes : List UInt8} (hc : c.rest = bytes.drop c.pos)
    (s : Resolver) :
    (∃ body', Run s c body' d ∧ List.Forall₂ (Instruction.RereadAs s bytes) body body' ∧
        body'.map (·.branchTargets) = body.map (·.branchTargets)) ∨
      ∃ before i after t source front e e', body = before ++ i :: after ∧
        (∀ j ∈ before, j.AcceptedBy s bytes) ∧ i.token? bytes = some t ∧
          s.answer i.opcode.operand t = .error source ∧ Run s c front e ∧ e.rest ≠ [] ∧
            instruction s e = .error (.unresolvedToken i.offset t source) e' := by
  induction h with
  | nil => exact Or.inl ⟨[], .nil, .nil, rfl⟩
  | @cons c d q i body hi hrun ih =>
    have hd : d.rest = bytes.drop d.pos := by
      obtain ⟨chunk, hchunk, hpos⟩ := (Run.cons hi .nil).rest_eq
      rw [hpos, ← List.drop_drop, ← hc, hchunk, List.drop_left]
    rcases instruction_of_other hi hc s with ⟨j, hj, hreread, htargets⟩ | hrejected
    · rcases ih hd with ⟨body', hbody', hall, hmap⟩ | hlater
      · refine Or.inl ⟨j :: body', .cons hj hbody', .cons hreread hall, ?_⟩
        rw [List.map_cons, List.map_cons, htargets, hmap]
      · obtain ⟨before, i', after, t, source, front, e, e', rfl, hbefore, hrest⟩ := hlater
        obtain ⟨ht, hsource, hfront, hmore, herror⟩ := hrest
        refine Or.inr ⟨i :: before, i', after, t, source, j :: front, e, e', rfl, ?_, ht, hsource,
          .cons hj hfront, hmore, herror⟩
        intro i'' hi''
        rcases List.mem_cons.mp hi'' with rfl | hmem
        · exact hreread.acceptedBy
        · exact hbefore i'' hmem
    · obtain ⟨t, source, c', ht, hsource, herror⟩ := hrejected
      refine Or.inr ⟨[], i, body, t, source, [], c, c', rfl, ?_, ht, hsource, .nil, ?_, herror⟩
      · intro j hj
        cases hj
      · exact rest_ne_nil_of_instruction hi

theorem starts_of_rereadAs {body' : List Instruction}
    (h : List.Forall₂ (Instruction.RereadAs s bytes) body body') : starts body' = starts body := by
  induction h with
  | nil => rfl
  | cons hij _ ih =>
    rw [starts, List.map_cons, hij.offset_eq]
    exact congrArg _ ih

theorem closed_iff_of_map_eq {body' : List Instruction} (hstarts : starts body' = starts body)
    (htargets : body'.map (·.branchTargets) = body.map (·.branchTargets)) :
    Closed body' ↔ Closed body := by
  have hclosed : ∀ body : List Instruction,
      Closed body ↔ ∀ ts ∈ body.map (·.branchTargets), ∀ t ∈ ts, t ∈ starts body := by
    intro body
    simp [Closed]
  rw [hclosed, hclosed, hstarts, htargets]

/-- Decoding from `c` with `r` comes to an instruction that carries the token `t`, for an operand
of the given kind. -/
structure Consults (r : Resolver) (c : Cursor) (kind : OperandKind) (t : Token) : Prop where
  exists_run : ∃ body d, Run r c body d ∧ ∃ o ∈ Opcode.table, o.operand = kind ∧
    ∃ rest, d.rest = o.bytes ++ (Scalar.u32.toBytes t.raw ++ rest)
  takesToken : kind.takesToken = true

theorem readOperand_congr (hanswer : ∀ t rest, c.rest = Scalar.u32.toBytes t.raw ++ rest →
    kind.takesToken = true → s.answer kind t = r.answer kind t) (k : Nat) :
    readOperand s k kind c = readOperand r k kind c := by
  obtain ⟨pos, rest⟩ := c
  by_cases htakes : kind.takesToken = true
  · have hsize : kind.size? = some 4 := by cases kind <;> first | rfl | cases htakes
    by_cases hshort : rest.length < 4
    · rw [readOperand_short hsize hshort, readOperand_short hsize hshort]
    · obtain ⟨v, rest, rfl⟩ : ∃ v rest', rest = Scalar.u32.toBytes v ++ rest' :=
        Scalar.exists_toBytes (Nat.le_of_not_lt hshort)
      have hshape : (RawOperand.token ⟨v⟩).hasShape kind = true := by
        rw [RawOperand.hasShape_token]
        exact htakes
      have heq := hanswer ⟨v⟩ rest rfl htakes
      rw [Resolver.answer, Resolver.answer] at heq
      rw [readOperand_token hshape, readOperand_token hshape, heq]
  · cases kind <;> first | rfl | exact absurd rfl htakes

theorem instruction_congr
    (hanswer : ∀ kind t, Consults r c kind t → s.answer kind t = r.answer kind t) :
    instruction s c = instruction r c := by
  obtain ⟨pos, bytes⟩ := c
  have hopcode : ∀ o ∈ Opcode.table, ∀ rest, bytes = o.bytes ++ rest →
      instruction s ⟨pos, bytes⟩ = instruction r ⟨pos, bytes⟩ := by
    rintro o hmem rest rfl
    have hread := readOpcode_bytes hmem pos pos rest
    have hoperand : readOperand s pos o.operand ⟨pos + o.size, rest⟩ =
        readOperand r pos o.operand ⟨pos + o.size, rest⟩ := by
      apply readOperand_congr
      intro t rest' hrest htakes
      refine hanswer o.operand t ⟨⟨[], _, .nil, o, hmem, rfl, rest', ?_⟩, htakes⟩
      rw [← hrest]
    rw [instruction_of_opcode hread, instruction_of_opcode hread]
    exact bind_congr_of_eq hoperand fun _ _ _ => rfl
  rcases opcode_cases r pos bytes with ⟨o, hmem, rest, hrest⟩ | ⟨e, n, hfault⟩
  · exact hopcode o hmem rest hrest
  · cases hfault with
    | operand hmem _ => exact hopcode _ hmem _ rfl
    | nothing => rw [instruction_of_fault .nothing, instruction_of_fault .nothing]
    | loneMark => rw [instruction_of_fault .loneMark, instruction_of_fault .loneMark]
    | unknownByte hmark hunknown =>
      rw [instruction_of_fault (.unknownByte hmark hunknown),
        instruction_of_fault (.unknownByte hmark hunknown)]
    | unknownPair hunknown =>
      rw [instruction_of_fault (.unknownPair hunknown),
        instruction_of_fault (.unknownPair hunknown)]

theorem Consults.cons (hi : instruction r c = .ok i d) (h : Consults r d kind t) :
    Consults r c kind t := by
  obtain ⟨⟨body, q, hrun, hopcode⟩, htakes⟩ := h
  exact ⟨⟨i :: body, q, .cons hi hrun, hopcode⟩, htakes⟩

/-- A resolver that gives the same answers to what is asked makes for the same sweep. -/
theorem sweep_congr {c : Cursor}
    (hanswer : ∀ kind t, Consults r c kind t → s.answer kind t = r.answer kind t) :
    sweep s c = sweep r c := by
  have hfirst := instruction_congr hanswer
  by_cases hrest : c.rest = []
  · rw [sweep_of_end hrest, sweep_of_end hrest]
  · cases hi : instruction r c with
    | error e d => rw [sweep_of_error hrest hi, sweep_of_error hrest (hfirst.trans hi)]
    | ok i d =>
      have hlater : sweep s d = sweep r d := sweep_congr fun kind t h => hanswer kind t (h.cons hi)
      rw [sweep_of_ok hi, sweep_of_ok (hfirst.trans hi), hlater]
termination_by c.remaining
decreasing_by exact remaining_instruction_lt hi

theorem decode_congr (hanswer : ∀ kind t, Consults r (Cursor.ofBytes bytes) kind t →
    s.answer kind t = r.answer kind t) : decode s bytes = decode r bytes := by
  simp only [decode, stream, sweep_congr hanswer]

/-- What decoding with another resolver gives. A body that decodes with `r` either decodes with `s`
too, to the same instructions with the answers of `s` in the place of tokens, or it is refused for
the first token that `s` rejects; and resolvers that give the same answers to what is asked give
the same results, whatever these are. -/
theorem decode_of_other_resolver (r s : Resolver) (bytes : List UInt8) :
    (∀ body, decode r bytes = .ok body →
      ((∀ i ∈ body, i.AcceptedBy s bytes) ∧ ∃ body', decode s bytes = .ok body' ∧
          List.Forall₂ (Instruction.RereadAs s bytes) body body') ∨
        ∃ before i after t source, body = before ++ i :: after ∧
          (∀ j ∈ before, j.AcceptedBy s bytes) ∧ i.token? bytes = some t ∧
            s.answer i.opcode.operand t = .error source ∧
              decode s bytes = .error (.unresolvedToken i.offset t source)) ∧
      ((∀ kind t, Consults r (Cursor.ofBytes bytes) kind t → s.answer kind t = r.answer kind t) →
        decode s bytes = decode r bytes) := by
  refine ⟨?_, decode_congr⟩
  intro body hbody
  obtain ⟨hrun, hclosed⟩ := decode_eq_ok_iff_run.mp hbody
  have hstart : (Cursor.ofBytes bytes).rest = bytes.drop (Cursor.ofBytes bytes).pos := rfl
  rcases hrun.of_other hstart s with ⟨body', hrun', hall, htargets⟩ | hrejected
  · have haccepted := (List.forall₂_and_left _ _).mp (hall.imp fun i j h => ⟨h.acceptedBy, h⟩)
    refine Or.inl ⟨haccepted.1, body', ?_, hall⟩
    apply decode_eq_ok_iff_run.mpr
    exact ⟨hrun', (closed_iff_of_map_eq (starts_of_rereadAs hall) htargets).mpr hclosed⟩
  · obtain ⟨before, i, after, t, source, front, e, e', heq, hbefore, hlater⟩ := hrejected
    obtain ⟨ht, hsource, hfront, hmore, herror⟩ := hlater
    refine Or.inr ⟨before, i, after, t, source, heq, hbefore, ht, hsource, ?_⟩
    exact decode_of_error (stream_of_error hfront hmore herror)

/-- A resolver that knows the same string under another text. -/
def otherString : Resolver := { oneString with string := fun _ => .ok "ho" }

/-- A resolver that knows nothing. -/
def noString : Resolver := { oneString with string := fun t => .error ⟨t, .string⟩ }

/-- A resolver that answers as `oneString` where it is asked for strings, and otherwise not. -/
def oneStringAndTypes : Resolver :=
  { oneString with member := fun _ => .ok (.type (.system "System.Object")) }

/-- A body that consists of the second instruction of `loopBytes`. -/
def stringBytes : List UInt8 := [0x72, 0x01, 0x00, 0x00, 0x70]

theorem eq_string_of_consults (h : Consults oneString (Cursor.ofBytes stringBytes) kind t) :
    kind = .string := by
  obtain ⟨⟨body, d, hrun, o, hmem, rfl, rest, hrest⟩, -⟩ := h
  obtain ⟨front, hfront, -⟩ := hrun.rest_eq
  have hbytes : stringBytes = front ++ (o.bytes ++ (Scalar.u32.toBytes t.raw ++ rest)) := by
    rw [← hrest]
    exact hfront
  have hlength := congrArg List.length hbytes
  simp only [List.length_append, Scalar.length_toBytes, o.length_bytes, Scalar.width] at hlength
  have hfive : stringBytes.length = 5 := rfl
  have hpos := o.size_pos
  obtain rfl : front = [] := List.eq_nil_of_length_eq_zero (by omega)
  have hone : o.bytes = [0x72] := by
    have htake := congrArg (List.take o.bytes.length) hbytes
    rw [List.nil_append, List.take_left, o.length_bytes, show o.size = 1 by omega] at htake
    exact htake.symm
  have hfind := Opcode.ofByte?_eq_some_iff.mpr ⟨hmem, hone⟩
  have hrow : Opcode.ofByte? 0x72 = some ⟨"ldstr", 0x72, .string, .next⟩ := by decide +kernel
  rw [hrow] at hfind
  cases hfind
  rfl

theorem decode_of_other_resolver_loop :
    (∃ body', decode otherString loopBytes = .ok body' ∧
        List.Forall₂ (Instruction.RereadAs otherString loopBytes) loopBody body') ∧
      (∃ i ∈ loopBody, ∃ t source, i.token? loopBytes = some t ∧
        decode noString loopBytes = .error (.unresolvedToken i.offset t source)) ∧
      decode oneStringAndTypes stringBytes = decode oneString stringBytes := by
  have hloop : decode oneString loopBytes = .ok loopBody := by cbv
  have hother := (decode_of_other_resolver oneString otherString loopBytes).1 _ hloop
  have hnone := (decode_of_other_resolver oneString noString loopBytes).1 _ hloop
  refine ⟨?_, ?_, (decode_of_other_resolver oneString oneStringAndTypes stringBytes).2 ?_⟩
  · have hok : (decode otherString loopBytes).isOk = true := by cbv
    rcases hother with ⟨-, hbody⟩ | ⟨_, _, _, _, _, -, -, -, -, herror⟩
    · exact hbody
    · rw [herror] at hok
      cases hok
  · have hfails : (decode noString loopBytes).isOk = false := by cbv
    rcases hnone with ⟨-, _, hbody, -⟩ | ⟨before, i, after, t, source, heq, -, ht, -, herror⟩
    · rw [hbody] at hfails
      cases hfails
    · exact ⟨i, by rw [heq]; simp, t, source, ht, herror⟩
  · intro kind t h
    rw [eq_string_of_consults h]
    rfl

end Decode

end Cil
