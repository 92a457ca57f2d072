import Mathlib
import Cil.Proofs.DeclarationText

/-! Which declarations are refused, and that all others are printed in full. -/
namespace Cil

open Writer (margin)

variable {options : ListingOptions} {i : Instruction} {body : List Instruction} {m : MethodDecl}
  {member : MemberDecl} {t : TypeDecl} {a : AssemblyDecl} {d : Declaration}

section Offences

/-- What an instruction has that cannot be printed. -/
def Instruction.offences (i : Instruction) : List MemberKind :=
  match i.operand with
  | .member (.field _) => [.field]
  | _ => []

/-- What a method has that cannot be printed, in order. That its code is foreign comes first. -/
def MethodDecl.offences (m : MethodDecl) : List MemberKind :=
  (if m.isPinvoke then [.pinvoke] else []) ++ m.body.flatMap Instruction.offences

def MemberDecl.offences : MemberDecl → List MemberKind
  | method m => m.offences
  | field _ => [.field]
  | event _ => [.event]
  | property _ => [.property]
  | constructor _ => [.constructor]
  | nestedType _ => [.nestedType]

def TypeDecl.offences (t : TypeDecl) : List MemberKind := t.members.flatMap MemberDecl.offences

def AssemblyDecl.offences (a : AssemblyDecl) : List MemberKind := a.types.flatMap TypeDecl.offences

/-- The kinds of everything in a declaration that cannot be printed, in document order. -/
def Declaration.offences : Declaration → List MemberKind
  | assembly a => a.offences
  | type t => t.offences
  | method m => m.offences

theorem Instruction.offences_eq (i : Instruction) :
    i.offences = if i.operand.isField then [.field] else [] := by
  unfold offences Operand.isField
  cases i.operand with
  | member m => cases m <;> rfl
  | _ => rfl

theorem head?_offences_body (body : List Instruction) :
    (body.flatMap Instruction.offences).head? =
      if body.any (·.operand.isField) then some .field else none := by
  induction body with
  | nil => rfl
  | cons i body ih =>
    rw [List.flatMap_cons, List.head?_append, ih, i.offences_eq, List.any_cons]
    by_cases hfield : i.operand.isField = true
    · simp [hfield]
    · simp [hfield]

theorem MethodDecl.unsupported?_eq (m : MethodDecl) : m.unsupported? = m.offences.head? := by
  rw [unsupported?, offences, List.head?_append, head?_offences_body]
  by_cases hforeign : m.isPinvoke = true
  · simp [hforeign]
  · simp [hforeign]

theorem MemberDecl.unsupported?_eq (member : MemberDecl) :
    member.unsupported? = member.offences.head? := by
  cases member with
  | method m => exact m.unsupported?_eq
  | _ => rfl

theorem TypeDecl.unsupported?_eq (t : TypeDecl) : t.unsupported? = t.offences.head? := by
  rw [unsupported?, offences, List.head?_flatMap]
  exact congrArg (List.findSome? · t.members) (funext MemberDecl.unsupported?_eq)

theorem AssemblyDecl.unsupported?_eq (a : AssemblyDecl) : a.unsupported? = a.offences.head? := by
  rw [unsupported?, offences, List.head?_flatMap]
  exact congrArg (List.findSome? · a.types) (funext TypeDecl.unsupported?_eq)

/-- The check before printing finds the first offence. -/
theorem Declaration.unsupported?_eq (d : Declaration) : d.unsupported? = d.offences.head? := by
  cases d with
  | assembly a => exact a.unsupported?_eq
  | type t => exact t.unsupported?_eq
  | method m => exact m.unsupported?_eq

end Offences

section Plain

theorem Operand.exists_text {a : Operand} (h : a.isField = false) : ∃ text, a.text = .ok text := by
  cases a with
  | member m =>
    cases m with
    | field f => cases h
    | _ => exact ⟨_, rfl⟩
  | _ => exact ⟨_, rfl⟩

/-- What the check looks for is all that can keep an instruction from being printed. -/
theorem Instruction.exists_line (h : i.offences = []) (width : Nat) :
    ∃ line, i.line width = .ok line := by
  have hfield : i.operand.isField = false := by
    rw [i.offences_eq] at h
    by_contra hfield
    simp [hfield] at h
  obtain ⟨text, htext⟩ := Operand.exists_text hfield
  exact ⟨_, line_eq_ok_iff.mpr ⟨text, htext, rfl⟩⟩

theorem MethodDecl.offences_eq_nil_iff :
    m.offences = [] ↔ m.isPinvoke = false ∧ ∀ i ∈ m.body, i.offences = [] := by
  simp [offences]

theorem MethodDecl.exists_lines (h : m.offences = []) :
    ∃ lines, List.Forall₂ (fun i line => i.line (Listing.offsetWidth m.body) = .ok line)
      m.body lines :=
  Listing.exists_lines fun i hi => Instruction.exists_line ((offences_eq_nil_iff.mp h).2 i hi) _

theorem Listing.allPlain_steps (h : ∀ i ∈ body, i.offences = []) :
    Step.allPlain (steps options body) = true := by
  obtain ⟨lines, hlines⟩ :=
    exists_lines fun i hi => Instruction.exists_line (h i hi) (offsetWidth body)
  exact allPlain_of_lines options hlines

theorem MethodDecl.allPlain_steps (h : m.offences = []) :
    Step.allPlain (m.steps options) = true := by
  have hbody : Step.allPlain (Listing.steps options m.body) = true :=
    Listing.allPlain_steps (offences_eq_nil_iff.mp h).2
  have hparameters : Step.allPlain m.parameterSteps = true := by
    unfold parameterSteps
    split <;> rfl
  simp [steps, Step.allPlain_append, Step.allPlain, Step.isPlain, hbody, hparameters]

theorem MemberDecl.allPlain_steps (h : member.offences = []) :
    Step.allPlain (member.steps options) = true := by
  cases member with
  | method m => exact MethodDecl.allPlain_steps h
  | _ => rfl

theorem TypeDecl.allPlain_steps (h : t.offences = []) :
    Step.allPlain (t.steps options) = true := by
  have hmembers : Step.allPlain (t.members.flatMap (MemberDecl.steps options)) = true := by
    apply Step.allPlain_flatMap
    intro member hmember
    exact MemberDecl.allPlain_steps (List.flatMap_eq_nil_iff.mp h member hmember)
  have hbase : Step.allPlain t.baseSteps = true := by
    unfold baseSteps
    split <;> rfl
  simp [steps, Step.allPlain_append, Step.allPlain, Step.isPlain, hmembers, hbase]

theorem AssemblyDecl.allPlain_steps (h : a.offences = []) :
    Step.allPlain (a.steps options) = true := by
  have htypes : Step.allPlain (a.types.flatMap (TypeDecl.steps options)) = true := by
    apply Step.allPlain_flatMap
    intro t ht
    exact TypeDecl.allPlain_steps (List.flatMap_eq_nil_iff.mp h t ht)
  simp [steps, Step.allPlain, Step.isPlain, htypes]

/-- Without offences, no step of a declaration is bound to fail. -/
theorem Declaration.allPlain_steps (h : d.offences = []) :
    Step.allPlain (d.steps options) = true := by
  cases d with
  | assembly a => exact AssemblyDecl.allPlain_steps h
  | type t => exact TypeDecl.allPlain_steps h
  | method m => exact MethodDecl.allPlain_steps h

theorem Declaration.script_of_supported (h : d.offences = []) :
    d.script options = d.steps options ++ [.flush] := by
  have hnone : d.unsupported? = none := by
    rw [d.unsupported?_eq, h]
    rfl
  simp only [script, hnone]

theorem Declaration.script_of_offence {kind : MemberKind} (h : d.offences.head? = some kind) :
    d.script options = [.note (.refused kind), .fail (.unsupportedMember kind)] := by
  have hsome : d.unsupported? = some kind := d.unsupported?_eq.trans h
  simp only [script, hsome]

end Plain

section Printed

/-- `text` is the method as a block at the given depth: a header, the lines of the whole body and
the closing brace. -/
def MethodDecl.PrintedAt (options : ListingOptions) (depth : Nat) (m : MethodDecl)
    (text : String) : Prop :=
  ∃ lines, List.Forall₂ (fun i line => i.line (Listing.offsetWidth m.body) = .ok line)
      m.body lines ∧
    text = m.headerAt depth ++ (margin depth ++ "\x7b\n") ++
      Listing.blocksAt options (depth + 1) m.body lines ++ (margin depth ++ "\x7d\n")

/-- `text` is the type with all of its members, each of them a method and printed as a block. -/
def TypeDecl.Printed (options : ListingOptions) (t : TypeDecl) (text : String) : Prop :=
  ∃ blocks, List.Forall₂ (fun member block => ∃ m, member = .method m ∧
      m.PrintedAt options 1 block) t.members blocks ∧
    text = t.header ++ t.baseLine ++ "\x7b\n" ++ String.join blocks ++ "\x7d\n\n"

/-- `text` is the assembly with all of its types. -/
def AssemblyDecl.Printed (options : ListingOptions) (a : AssemblyDecl) (text : String) : Prop :=
  ∃ texts, List.Forall₂ (TypeDecl.Printed options) a.types texts ∧
    text = a.header ++ String.join texts

/-- `text` is the declaration with everything that it holds. -/
def Declaration.Printed (options : ListingOptions) : Declaration → String → Prop
  | assembly a, text => a.Printed options text
  | type t, text => t.Printed options text
  | method m, text => m.PrintedAt options 0 text

theorem MethodDecl.printedAt (h : m.offences = []) (depth : Nat) :
    m.PrintedAt options depth (Step.textsAt (m.steps options) depth false) := by
  obtain ⟨lines, hlines⟩ := exists_lines h
  refine ⟨lines, hlines, ?_⟩
  rw [textsAt_steps, Listing.textsAt_steps options (depth + 1) hlines]

theorem MemberDecl.exists_method (h : member.offences = []) : ∃ m, member = .method m := by
  cases member with
  | method m => exact ⟨m, rfl⟩
  | _ => cases h

theorem TypeDecl.printed (h : t.offences = []) :
    t.Printed options (Step.textsAt (t.steps options) 0 false) := by
  refine ⟨_, ?_, textsAt_steps options t⟩
  rw [List.forall₂_map_right_iff, List.forall₂_same]
  intro member hmember
  have hsupported := List.flatMap_eq_nil_iff.mp h member hmember
  obtain ⟨m, rfl⟩ := MemberDecl.exists_method hsupported
  exact ⟨m, rfl, MethodDecl.printedAt hsupported 1⟩

theorem AssemblyDecl.printed (h : a.offences = []) :
    a.Printed options (Step.textsAt (a.steps options) 0 false) := by
  refine ⟨_, ?_, textsAt_steps options a⟩
  rw [List.forall₂_map_right_iff, List.forall₂_same]
  intro t ht
  exact TypeDecl.printed (List.flatMap_eq_nil_iff.mp h t ht)

theorem Declaration.printed (h : d.offences = []) :
    d.Printed options (Step.textsAt (d.steps options) 0 false) := by
  cases d with
  | assembly a => exact AssemblyDecl.printed h
  | type t => exact TypeDecl.printed h
  | method m => exact MethodDecl.printedAt h 0

end Printed

/-- A declaration is refused for the first offence in it, if there is one, and then the sink is left
as it was, however it writes and flushes. Otherwise nothing but the sink can stop it, and one that
never fails does not. A sink that keeps what it gets ends up with all of the declaration. -/
theorem declaration_refused_or_printed (options : ListingOptions) (d : Declaration) :
    (∀ (σ : Type) [ByteSink σ] (sink : σ) (kind : MemberKind),
        (Script.writeTo (d.script options) sink).1 = .error (.unsupportedMember kind) ↔
          d.offences.head? = some kind) ∧
      (d.offences ≠ [] → ∀ (σ : Type) [ByteSink σ] (sink : σ),
        (Script.writeTo (d.script options) sink).2 = sink) ∧
      (d.offences = [] → ∀ (σ : Type) [ByteSink σ], ByteSink.NeverFails σ → ∀ sink : σ,
        (Script.writeTo (d.script options) sink).1 = .ok ()) ∧
      (d.offences = [] → ∀ sink : Sink, sink.capacity = none → sink.flushFails = false →
        ∃ text, Script.writeTo (d.script options) sink =
            (.ok (), { sink with contents := sink.contents ++ text.toUTF8 }) ∧
          d.Printed options text) := by
  have hrefused : ∀ (σ : Type) [ByteSink σ] kind, d.offences.head? = some kind → ∀ sink : σ,
      Script.writeTo (d.script options) sink = (.error (.unsupportedMember kind), sink) := by
    intro σ _ kind hkind sink
    rw [Declaration.script_of_offence hkind]
    rfl
  refine ⟨?_, ?_, ?_, ?_⟩
  · intro σ _ sink kind
    constructor
    · intro h
      cases hhead : d.offences.head? with
      | some kind' =>
        rw [hrefused σ kind' hhead] at h
        cases h
        rfl
      | none =>
        have hnil := List.head?_eq_none_iff.mp hhead
        rw [Declaration.script_of_supported hnil] at h
        obtain ⟨reason, hreason⟩ := Script.eq_sink_of_writeTo (Declaration.allPlain_steps hnil) h
        cases hreason
    · intro h
      rw [hrefused σ kind h]
  · intro hne σ _ sink
    obtain ⟨kind, hkind⟩ := Option.isSome_iff_exists.mp (List.isSome_head?.mpr hne)
    rw [hrefused σ kind hkind]
  · intro hnil σ _ hsink sink
    rw [Declaration.script_of_supported hnil]
    exact Script.writeTo_of_neverFails (Declaration.allPlain_steps hnil) hsink sink
  · intro hnil sink hcap hflush
    refine ⟨Step.textsAt (d.steps options) 0 false, ?_, Declaration.printed hnil⟩
    rw [Declaration.script_of_supported hnil]
    exact Script.writeTo_of_plain (Declaration.allPlain_steps hnil) hcap hflush

/-- A static method with two parameters. -/
def addMethod : MethodDecl where
  name := "Add"
  attributes := ⟨0x96⟩
  implementation := ⟨0⟩
  returnType := .named "mscorlib" "System.Int32"
  parameters :=
    [⟨.named "mscorlib" "System.Int32", some "x"⟩, ⟨.named "mscorlib" "System.Int32", none⟩]
  genericParameters := []
  body :=
    [ ⟨0, 1, ⟨"ldarg.0", 0x02, .none, .next⟩, .none⟩,
      ⟨1, 1, ⟨"ret", 0x2A, .none, .returns⟩, .none⟩ ]

def calculator : TypeDecl where
  fullName := "Calculator"
  attributes := ⟨0x100001⟩
  genericParameters := []
  baseType := some (.named "mscorlib" "System.Object")
  members := [.method addMethod]

/-- The type with two more members, neither of which can be printed. -/
def observedCalculator : TypeDecl :=
  { calculator with members := [.method addMethod, .event "Changed", .field "memory"] }

/-- A sink that counts the bytes and drops them. -/
structure ByteCount where
  count : Nat

instance : ByteSink ByteCount where
  write bytes := modify fun sink => ⟨sink.count + bytes.size⟩
  flush := return ()

/-- One type is refused for its event before anything is written; the other is printed. -/
theorem declaration_refused_or_printed_calculator :
    (∀ (σ : Type) [ByteSink σ] (sink : σ),
      Script.writeTo ((Declaration.type observedCalculator).script .separated) sink =
        (.error (.unsupportedMember .event), sink)) ∧
    (Script.writeTo ((Declaration.type calculator).script .separated) (ByteCount.mk 0)).1 =
      .ok () ∧
    ∃ text, Script.writeTo ((Declaration.type calculator).script .separated) Sink.unlimited =
        (.ok (), { Sink.unlimited with contents := Sink.unlimited.contents ++ text.toUTF8 }) ∧
      (Declaration.type calculator).Printed .separated text := by
  refine ⟨?_, ?_, ?_⟩
  · intro σ _ sink
    obtain ⟨hrefused, hframe, _⟩ :=
      declaration_refused_or_printed .separated (.type observedCalculator)
    exact Prod.ext ((hrefused σ sink .event).mpr (by decide)) (hframe (by decide) σ sink)
  · obtain ⟨_, _, hends, _⟩ := declaration_refused_or_printed .separated (.type calculator)
    have hcounts : ByteSink.NeverFails ByteCount :=
      ⟨fun bytes sink => ⟨_, rfl⟩, fun sink => ⟨sink, rfl⟩⟩
    exact hends (by decide) ByteCount hcounts ⟨0⟩
  · obtain ⟨_, _, _, hprinted⟩ := declaration_refused_or_printed .separated (.type calculator)
    exact hprinted (by decide) .unlimited rfl rfl

end Cil
