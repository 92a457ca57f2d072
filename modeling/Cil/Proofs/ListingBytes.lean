import Mathlib
import Cil.Proofs.ListingText
import Cil.Proofs.RoundTrip

/-! A listing determines the bytes it was made from, up to tokens and floating-point literals. -/
namespace Cil

variable {options : ListingOptions} {r r' : Resolver} {kind : OperandKind} {width width' k q : Nat}
  {i j : Instruction} {a b : Operand} {line text : String} {body body' : List Instruction}
  {bytes bytes' chunk chunk' : List UInt8} {lines : List String}

/-- Kinds of operands that are printed as what they stand for, not as how they are encoded. -/
def OperandKind.hidesEncoding : OperandKind → Bool
  | float32 | float64 | type | method | field | tok | string | signature => true
  | _ => false

/-- The text of an operand determines it, if its kind is known and shows it. -/
theorem Operand.eq_of_text_eq (ha : a.hasShape kind = true) (hb : b.hasShape kind = true)
    (hkind : kind.hidesEncoding = false) (h : a.text = b.text) : a = b := by
  cases kind with
  | none =>
    cases a <;> cases ha
    cases b <;> cases hb
    rfl
  | int8 | int16 | int32 | int64 =>
    cases a <;> cases ha
    cases b <;> cases hb
    simp only [text, Except.ok.injEq, Option.some.injEq, Text.integer_injective.eq_iff,
      Int8.toInt_inj, Int16.toInt_inj, Int32.toInt_inj, Int64.toInt_inj] at h
    rw [h]
  | uint8 | localIndex | shortBranch | longBranch =>
    cases a <;> cases ha
    cases b <;> cases hb
    simp only [text, Except.ok.injEq, Option.some.injEq, Nat.repr_inj, UInt8.toNat_inj,
      UInt16.toNat_inj] at h
    rw [h]
  | switch =>
    cases a <;> cases ha
    cases b <;> cases hb
    simp only [text, Except.ok.injEq, Option.some.injEq, String.append_left_inj,
      String.append_right_inj] at h
    rw [Text.eq_of_commaSeparated_repr_eq h]
  | _ => cases hkind

/-- The mnemonic and what follows it are told apart by the first blank. -/
theorem Instruction.eq_of_append_operandPart_eq {name name' : List Char} {o o' : Option String}
    (hname : ' ' ∉ name) (hname' : ' ' ∉ name')
    (h : name ++ (operandPart o).toList = name' ++ (operandPart o').toList) :
    name = name' ∧ o = o' := by
  have hsome : ∀ t : String, (operandPart (some t)).toList = ' ' :: t.toList := by
    intro t
    simp [operandPart]
  cases o with
  | none =>
    cases o' with
    | none => exact ⟨by simpa [operandPart] using h, rfl⟩
    | some t' =>
      have heq : name = name' ++ ' ' :: t'.toList := by simpa [operandPart, hsome] using h
      exact absurd (by simp [heq]) hname
  | some t =>
    cases o' with
    | none =>
      have heq : name ++ ' ' :: t.toList = name' := by simpa [operandPart, hsome] using h
      exact absurd (by simp [← heq]) hname'
    | some t' =>
      rw [hsome, hsome] at h
      obtain ⟨rfl, ht⟩ := Text.eq_of_append_cons_eq hname hname' h
      exact ⟨rfl, congrArg some (String.toList_inj.mp ht)⟩

/-- Instructions of which a listing shows no difference. -/
structure Instruction.Alike (i j : Instruction) : Prop where
  offset_eq : i.offset = j.offset
  opcode_eq : i.opcode = j.opcode
  operand_eq : i.opcode.operand.hidesEncoding = false → i.operand = j.operand

/-- A line shows offset, mnemonic and operand, one after the other. -/
theorem Instruction.alike_of_line_eq (hi : i.opcode ∈ Opcode.table) (hj : j.opcode ∈ Opcode.table)
    (hshape : i.operand.hasShape i.opcode.operand = true)
    (hshape' : j.operand.hasShape j.opcode.operand = true) (h : i.line width = .ok line)
    (h' : j.line width' = .ok line) : Alike i j := by
  obtain ⟨o, htext, hline⟩ := line_eq_ok_iff.mp h
  obtain ⟨o', htext', hline'⟩ := line_eq_ok_iff.mp h'
  have hcolon : ∀ w n : Nat, ':' ∉ (Text.decimal w n).toList := by
    intro w n hmem
    exact absurd (Text.isDigit_of_mem_decimal hmem) (by decide)
  have hparts := (toList_line hline).symm.trans (toList_line hline')
  obtain ⟨hdigits, hrest⟩ := Text.eq_of_append_cons_eq (hcolon _ _) (hcolon _ _) hparts
  have hoffset := Text.eq_of_decimal_eq (String.toList_inj.mp hdigits)
  obtain ⟨hname, rfl⟩ := eq_of_append_operandPart_eq (Opcode.name_isWord hi).1
    (Opcode.name_isWord hj).1 (List.cons.inj hrest).2
  have hopcode := Opcode.eq_of_name_eq hi hj (String.toList_inj.mp hname)
  rw [← hopcode] at hshape'
  exact ⟨hoffset, hopcode, fun hkind =>
    Operand.eq_of_text_eq hshape hshape' hkind (htext.trans htext'.symm)⟩

/-- The operand as it is encoded. What was resolved has no such form. -/
def Operand.unresolved : Operand → RawOperand
  | int8 v => .int8 v
  | uint8 v => .uint8 v
  | int16 v => .int16 v
  | uint16 v => .uint16 v
  | int32 v => .int32 v
  | int64 v => .int64 v
  | float32 v => .float32 v
  | float64 v => .float64 v
  | target offset => .target offset
  | switch offsets => .switch offsets
  | none | string _ | member _ | signature _ => .none

theorem RawOperand.eq_unresolved {raw : RawOperand} (hshape : raw.hasShape kind = true)
    (hkind : kind.hidesEncoding = false) (hres : raw.resolve r kind = .ok a) :
    raw = a.unresolved := by
  cases raw with
  | token t => cases kind <;> cases hshape <;> cases hkind
  | _ =>
    cases hres
    rfl

namespace Instruction

theorem Alike.size_eq (h : Alike i j) (hi : i.EncodedBy r chunk) (hj : j.EncodedBy r' chunk') :
    i.size = j.size := by
  rw [hi.size_eq, hj.size_eq, ← h.opcode_eq]
  cases hkind : i.opcode.operand.hidesEncoding with
  | false => rw [branchTargets, branchTargets, h.operand_eq hkind]
  | true =>
    have hsize : ∃ size, i.opcode.operand.size? = some size := by
      cases hoperand : i.opcode.operand <;> rw [hoperand] at hkind <;> cases hkind <;>
        exact ⟨_, rfl⟩
    obtain ⟨size, hsize⟩ := hsize
    rw [hsize]
    rfl

/-- Whether a position of the body is inside the token or the floating-point literal of this
instruction. -/
def Hides (i : Instruction) (p : Nat) : Prop :=
  i.opcode.operand.hidesEncoding = true ∧ i.offset + i.opcode.size ≤ p ∧ p < i.nextOffset

theorem Alike.getElem?_eq (h : Alike i j) (hi : i.EncodedBy r chunk) (hj : j.EncodedBy r' chunk')
    {p : Nat} (hp : ¬ i.Hides (i.offset + p)) : chunk[p]? = chunk'[p]? := by
  have hsize := h.size_eq hi hj
  have hlength := hi.length_eq
  have hlength' := hj.length_eq
  obtain ⟨raw, hshape, -, hres, hchunk⟩ := hi.bytes_eq
  obtain ⟨raw', hshape', -, hres', hchunk'⟩ := hj.bytes_eq
  rw [← h.opcode_eq] at hshape' hres' hchunk'
  cases hkind : i.opcode.operand.hidesEncoding with
  | false =>
    have hraw : raw = raw' := by
      rw [RawOperand.eq_unresolved hshape hkind hres, RawOperand.eq_unresolved hshape' hkind hres',
        h.operand_eq hkind]
    have hnext : i.nextOffset = j.nextOffset := by rw [nextOffset, nextOffset, h.offset_eq, hsize]
    rw [hchunk, hchunk', hraw, hnext]
  | true =>
    by_cases hopcode : p < i.opcode.size
    · rw [← i.opcode.length_bytes] at hopcode
      rw [hchunk, hchunk', List.getElem?_append_left hopcode, List.getElem?_append_left hopcode]
    · have hbeyond : i.size ≤ p := by
        by_contra hlt
        exact hp ⟨hkind, by omega, by rw [nextOffset]; omega⟩
      rw [List.getElem?_eq_none (by omega), List.getElem?_eq_none (by omega)]

end Instruction

open Decode

/-- Bodies that are alike end at the same offset and agree outside what they hide. -/
theorem agree_of_alike {chunks chunks' : List (List UInt8)}
    (halike : List.Forall₂ Instruction.Alike body body')
    (hchunks : List.Forall₂ (Instruction.EncodedBy r) body chunks)
    (hchunks' : List.Forall₂ (Instruction.EncodedBy r') body' chunks') (htiles : Tiles k q body) :
    starts body = starts body' ∧ chunks.flatten.length = chunks'.flatten.length ∧
      ∀ p, (∀ i ∈ body, ¬ i.Hides (k + p)) → chunks.flatten[p]? = chunks'.flatten[p]? := by
  induction halike generalizing k chunks chunks' with
  | nil =>
    cases hchunks
    cases hchunks'
    exact ⟨rfl, rfl, fun p _ => rfl⟩
  | @cons i j body body' hij _ ih =>
    cases hchunks with
    | @cons _ chunk _ chunks hi hchunks =>
      cases hchunks' with
      | @cons _ chunk' _ chunks' hj hchunks' =>
        obtain ⟨hoffset, -, htail⟩ := htiles
        obtain ⟨hstarts, hlength, hagree⟩ := ih hchunks hchunks' htail
        have hsize := hij.size_eq hi hj
        have hchunk := hi.length_eq
        have hchunk' := hj.length_eq
        refine ⟨?_, ?_, ?_⟩
        · simp only [starts, List.map_cons] at hstarts ⊢
          rw [hij.offset_eq, hstarts]
        · simp only [List.flatten_cons, List.length_append]
          omega
        · intro p hp
          rw [List.flatten_cons, List.flatten_cons]
          -- positions behind the first encoding are counted from its end in the rest of the body
          by_cases hlt : p < i.size
          · have hhead := hp i List.mem_cons_self
            rw [← hoffset] at hhead
            rw [List.getElem?_append_left (by omega), List.getElem?_append_left (by omega)]
            exact hij.getElem?_eq hi hj hhead
          · rw [List.getElem?_append_right (by omega), List.getElem?_append_right (by omega),
              hchunk, hchunk', ← hsize]
            apply hagree
            intro l hl
            have hpos : i.nextOffset + (p - i.size) = k + p := by
              simp only [Instruction.nextOffset]
              omega
            rw [hpos]
            exact hp l (List.mem_cons_of_mem i hl)

/-- Nothing that the resolver returns mentions an assembly, a type or a method whose name has a line
feed in it. -/
def Resolver.NamesOnOneLine (r : Resolver) : Prop :=
  ∀ t m, r.member t = .ok m → ∀ name ∈ m.names, OneLine name

theorem RawOperand.exists_member_of_resolve {raw : RawOperand} {m : MemberRef}
    (h : raw.resolve r kind = .ok (.member m)) : ∃ t, r.member t = .ok m := by
  cases raw with
  | token t =>
    simp only [resolve] at h
    split at h
    · obtain ⟨v, -, hv⟩ := map_eq_ok_iff.mp h
      cases hv
    · obtain ⟨v, -, hv⟩ := map_eq_ok_iff.mp h
      cases hv
    · obtain ⟨v, hv, hm⟩ := map_eq_ok_iff.mp h
      cases hm
      exact ⟨t, hv⟩
  | _ => cases h

theorem Instruction.EncodedBy.names_oneLine (h : i.EncodedBy r chunk) (hr : r.NamesOnOneLine) :
    ∀ name ∈ i.operand.names, OneLine name := by
  obtain ⟨raw, -, -, hres, -⟩ := h.bytes_eq
  intro name hname
  cases hoperand : i.operand with
  | member m =>
    rw [hoperand] at hres hname
    obtain ⟨t, ht⟩ := RawOperand.exists_member_of_resolve hres
    exact hr t m ht name hname
  | _ =>
    rw [hoperand] at hname
    cases hname

/-- A disassembled body: its instructions with their encodings and their lines. -/
theorem exists_body_of_disassemble (h : disassemble options r bytes = .ok text) :
    ∃ body chunks lines, decode r bytes = .ok body ∧ bytes = chunks.flatten ∧
      List.Forall₂ (Instruction.EncodedBy r) body chunks ∧
      List.Forall₂ (fun i line => i.line (Listing.offsetWidth body) = .ok line) body lines ∧
      text = String.join (List.zipWith (Listing.block options) body lines) := by
  cases hdecode : decode r bytes with
  | error e => simp [disassemble, hdecode, bind, Except.bind] at h
  | ok body =>
    have htext : Listing.text options body = .ok text := by
      simpa [disassemble, hdecode, bind, Except.bind] using h
    obtain ⟨lines, hlines, rfl⟩ := Listing.exists_lines_of_text htext
    obtain ⟨hrun, -⟩ := decode_eq_ok_iff_run.mp hdecode
    obtain ⟨raws, hwf, hres, hbytes⟩ := hrun.exists_encodeFrom
    obtain ⟨chunks, hchunks, hbody⟩ := encodedBy_of_resolveFrom hwf hres
    refine ⟨body, chunks, lines, rfl, ?_, hbody, hlines, rfl⟩
    rw [hchunks, List.append_nil] at hbytes
    exact hbytes

theorem isLine_of_mem_lines {chunks : List (List UInt8)}
    (hlines : List.Forall₂ (fun i line => i.line width = .ok line) body lines)
    (hchunks : List.Forall₂ (Instruction.EncodedBy r) body chunks) (hr : r.NamesOnOneLine) :
    ∀ line ∈ lines, IsLine line := by
  induction hlines generalizing chunks with
  | nil => simp
  | cons hline _ ih =>
    cases hchunks with
    | cons hi hchunks =>
      rw [List.forall_mem_cons]
      exact ⟨Instruction.line_isLine hi.mem_table (hi.names_oneLine hr) hline, ih hchunks⟩

theorem alike_of_lines {chunks chunks' : List (List UInt8)}
    (hlines : List.Forall₂ (fun i line => i.line width = .ok line) body lines)
    (hlines' : List.Forall₂ (fun i line => i.line width' = .ok line) body' lines)
    (hchunks : List.Forall₂ (Instruction.EncodedBy r) body chunks)
    (hchunks' : List.Forall₂ (Instruction.EncodedBy r') body' chunks') :
    List.Forall₂ Instruction.Alike body body' := by
  induction hlines generalizing body' chunks chunks' with
  | nil =>
    cases hlines'
    exact .nil
  | cons hline _ ih =>
    cases hlines' with
    | cons hline' hlines' =>
      cases hchunks with
      | cons hi hchunks =>
        cases hchunks' with
        | cons hj hchunks' =>
          have hij := Instruction.alike_of_line_eq hi.mem_table hj.mem_table hi.hasShape hj.hasShape
            hline hline'
          exact .cons hij (ih hlines' hchunks hchunks')

/-- Two bodies with the same listing have the same length and the same instruction boundaries, and
agree at every position that is not inside a token or a floating-point literal. -/
theorem listing_determines_bytes (h : disassemble options r bytes = .ok text)
    (h' : disassemble options r' bytes' = .ok text) (hr : r.NamesOnOneLine)
    (hr' : r'.NamesOnOneLine) :
    ∃ body body', decode r bytes = .ok body ∧ decode r' bytes' = .ok body' ∧
      bytes.length = bytes'.length ∧ starts body = starts body' ∧
      ∀ p, (∀ i ∈ body, ¬ i.Hides p) → bytes[p]? = bytes'[p]? := by
  obtain ⟨body, chunks, lines, hdecode, rfl, hchunks, hlines, rfl⟩ := exists_body_of_disassemble h
  obtain ⟨body', chunks', lines', hdecode', rfl, hchunks', hlines', htext⟩ :=
    exists_body_of_disassemble h'
  obtain rfl := Listing.lines_eq_of_text_eq hlines hlines' (isLine_of_mem_lines hlines hchunks hr)
    (isLine_of_mem_lines hlines' hchunks' hr') htext
  have halike := alike_of_lines hlines hlines' hchunks hchunks'
  have htiles := (decode_eq_ok_iff_run.mp hdecode).1.tiles
  obtain ⟨hstarts, hlength, hagree⟩ := agree_of_alike halike hchunks hchunks' htiles
  refine ⟨body, body', hdecode, hdecode', hlength, hstarts, ?_⟩
  intro p hp
  refine hagree p ?_
  intro i hi
  rw [Cursor.ofBytes, Nat.zero_add]
  exact hp i hi

/-- A resolver that knows one string of two lines, under the given token. -/
def twoLinesAt (token : Token) : Resolver where
  member t := .error ⟨t, .member⟩
  string t := if t = token then .ok "a\nb" else .error ⟨t, .string⟩
  signature t := .error ⟨t, .signature⟩

theorem namesOnOneLine_twoLinesAt (token : Token) : (twoLinesAt token).NamesOnOneLine := by
  intro t m h
  cases h

/-- The same string under two tokens, and a branch to the end. -/
def twoLinesBytes (row : UInt8) : List UInt8 :=
  [0x2B, 0x05, 0x72, row, 0x00, 0x00, 0x70, 0x2A]

theorem listing_determines_bytes_twoLines :
    disassemble .separated (twoLinesAt ⟨0x70000001⟩) (twoLinesBytes 1) =
        .ok "0: br.s 7\n\n2: ldstr \"a\\nb\"\n7: ret\n\n" ∧
      disassemble .separated (twoLinesAt ⟨0x70000002⟩) (twoLinesBytes 2) =
        .ok "0: br.s 7\n\n2: ldstr \"a\\nb\"\n7: ret\n\n" ∧
      ∃ body body', decode (twoLinesAt ⟨0x70000001⟩) (twoLinesBytes 1) = .ok body ∧
        decode (twoLinesAt ⟨0x70000002⟩) (twoLinesBytes 2) = .ok body' ∧
        (twoLinesBytes 1).length = (twoLinesBytes 2).length ∧ starts body = starts body' ∧
        ∀ p, (∀ i ∈ body, ¬ i.Hides p) → (twoLinesBytes 1)[p]? = (twoLinesBytes 2)[p]? := by
  have h : disassemble .separated (twoLinesAt ⟨0x70000001⟩) (twoLinesBytes 1) =
      .ok "0: br.s 7\n\n2: ldstr \"a\\nb\"\n7: ret\n\n" := by cbv
  have h' : disassemble .separated (twoLinesAt ⟨0x70000002⟩) (twoLinesBytes 2) =
      .ok "0: br.s 7\n\n2: ldstr \"a\\nb\"\n7: ret\n\n" := by cbv
  exact ⟨h, h', listing_determines_bytes h h' (namesOnOneLine_twoLinesAt _)
    (namesOnOneLine_twoLinesAt _)⟩

end Cil
