import Mathlib
import Cil.Proofs.Indentation
import Cil.Proofs.Refusal

/-! A declaration is composed of the texts of its parts, as each of them is printed on its own. -/
namespace Cil

variable {options : ListingOptions} {body : List Instruction} {m : MethodDecl} {t : TypeDecl}
  {a : AssemblyDecl} {d : Declaration}

section Names

/-- The names in the declaration of a generic parameter. -/
def GenericParameter.names (p : GenericParameter) : List String :=
  p.name :: p.constraints.flatMap (·.namesIn .name)

def Parameter.names (p : Parameter) : List String := p.name.toList ++ p.type.namesIn .name

/-- The names in an instruction. Its mnemonic counts as one; in the opcode table, no mnemonic has a
line feed. -/
def Instruction.names (i : Instruction) : List String := i.mnemonic :: i.operand.names

/-- The names in the declaration of a method, those in its body included. -/
def MethodDecl.names (m : MethodDecl) : List String :=
  m.name :: (m.returnType.namesIn .name ++ m.genericParameters.flatMap GenericParameter.names ++
    m.parameters.flatMap Parameter.names ++ m.body.flatMap Instruction.names)

def MemberDecl.names : MemberDecl → List String
  | method m | constructor m => m.names
  | field name | event name | property name | nestedType name => [name]

/-- The names in the declaration of a type, those in its members included. -/
def TypeDecl.names (t : TypeDecl) : List String :=
  t.fullName :: (t.genericParameters.flatMap GenericParameter.names ++
    (t.baseType.map (·.names)).getD [] ++ t.members.flatMap MemberDecl.names)

end Names

section Keywords

theorem Flag.oneLine_keywords {table : List (Flag × String)} (h : ∀ p ∈ table, OneLine p.2)
    (bits : UInt32) : ∀ word ∈ keywords bits table, OneLine word := by
  intro word hword
  obtain ⟨p, hp, rfl⟩ := List.mem_map.mp hword
  exact h p (List.mem_of_mem_filter hp)

theorem MethodAttributes.oneLine_keywords (a : MethodAttributes) :
    ∀ word ∈ a.keywords, OneLine word := by
  have haccess : OneLine a.access := by
    unfold access
    split <;> decide
  intro word hword
  rcases List.mem_cons.mp hword with rfl | hflag
  · exact haccess
  · exact Flag.oneLine_keywords (by decide) a.bits word hflag

theorem ImplAttributes.oneLine_keywords (a : ImplAttributes) :
    ∀ word ∈ a.keywords, OneLine word := by
  have hcode : OneLine a.codeType := by
    unfold codeType
    split <;> decide
  have hmanagement : OneLine a.management := by
    unfold management
    split <;> decide
  intro word hword
  rcases List.mem_cons.mp hword with rfl | hlater
  · exact hcode
  · rcases List.mem_cons.mp hlater with rfl | hflag
    · exact hmanagement
    · exact Flag.oneLine_keywords (by decide) a.bits word hflag

theorem oneLine_join {items : List String} (h : ∀ s ∈ items, OneLine s) :
    OneLine (String.join items) := by
  induction items with
  | nil => decide
  | cons s items ih =>
    rw [String.join_cons, oneLine_append]
    exact ⟨h s List.mem_cons_self, ih fun t ht => h t (List.mem_cons_of_mem s ht)⟩

theorem oneLine_spaced {words : List String} (h : ∀ s ∈ words, OneLine s) :
    OneLine (spaced words) := by
  apply oneLine_join
  intro s hs
  obtain ⟨word, hword, rfl⟩ := List.mem_map.mp hs
  rw [oneLine_append]
  exact ⟨h word hword, by decide⟩

end Keywords

section Pieces

theorem GenericParameter.oneLine_text {p : GenericParameter} (h : ∀ n ∈ p.names, OneLine n) :
    OneLine p.text := by
  have hkeywords : OneLine (spaced p.attributes.constraintKeywords) :=
    oneLine_spaced (Flag.oneLine_keywords (by decide) _)
  have hmarks : OneLine (String.join p.attributes.varianceMarks) :=
    oneLine_join (Flag.oneLine_keywords (by decide) _)
  have hconstraints : OneLine (Text.commaSeparated (p.constraints.map TypeRef.declaredText)) := by
    apply oneLine_commaSeparated
    intro s hs
    obtain ⟨t, ht, rfl⟩ := List.mem_map.mp hs
    apply TypeRef.oneLine_textIn
    intro n hn
    exact h n (List.mem_cons_of_mem _ (List.mem_flatMap.mpr ⟨t, ht, hn⟩))
  have hlist : OneLine (if p.constraints.isEmpty then ""
      else "(" ++ Text.commaSeparated (p.constraints.map TypeRef.declaredText) ++ ") ") := by
    split
    · decide
    · simp only [oneLine_append]
      exact ⟨⟨by decide, hconstraints⟩, by decide⟩
  simp only [text, oneLine_append]
  exact ⟨⟨⟨hkeywords, hlist⟩, hmarks⟩, h p.name List.mem_cons_self⟩

theorem GenericParameter.oneLine_listText {ps : List GenericParameter}
    (h : ∀ n ∈ ps.flatMap names, OneLine n) : OneLine (listText ps) := by
  have htexts : ∀ s ∈ ps.map text, OneLine s := by
    intro s hs
    obtain ⟨p, hp, rfl⟩ := List.mem_map.mp hs
    exact oneLine_text fun n hn => h n (List.mem_flatMap.mpr ⟨p, hp, hn⟩)
  unfold listText
  split
  · decide
  · simp only [oneLine_append]
    exact ⟨⟨by decide, oneLine_commaSeparated htexts⟩, by decide⟩

theorem Parameter.oneLine_text {p : Parameter} (h : ∀ n ∈ p.names, OneLine n) :
    OneLine p.text := by
  have htype : OneLine p.type.declaredText :=
    p.type.oneLine_textIn fun n hn => h n (List.mem_append_right _ hn)
  unfold text
  cases hname : p.name with
  | none => exact htype
  | some name =>
    have hone : OneLine name := h name (by simp [names, hname])
    simp only [oneLine_append]
    exact ⟨⟨htype, by decide⟩, hone⟩

theorem Listing.oneLine_pieces (h : ∀ n ∈ body.flatMap Instruction.names, OneLine n) :
    ∀ p ∈ Step.allPieces (steps options body), OneLine p := by
  intro p hp
  rw [steps, Step.allPieces_flatMap] at hp
  obtain ⟨i, hi, hp⟩ := List.mem_flatMap.mp hp
  have hnames : ∀ n ∈ i.names, OneLine n := fun n hn => h n (List.mem_flatMap.mpr ⟨i, hi, hn⟩)
  unfold instructionSteps at hp
  split at hp
  next line hline =>
    have hpiece : p = line := by
      split at hp <;> simpa [Step.allPieces, Step.pieces] using hp
    rw [hpiece]
    exact Instruction.oneLine_line (hnames _ List.mem_cons_self)
      (fun n hn => hnames n (List.mem_cons_of_mem _ hn)) hline
  next =>
    rw [Step.allPieces_append, Step.allPieces_notes] at hp
    cases hp

theorem MethodDecl.oneLine_pieces (h : ∀ n ∈ m.names, OneLine n) :
    ∀ p ∈ Step.allPieces (m.steps options), OneLine p := by
  simp only [names, List.forall_mem_cons, List.forall_mem_append] at h
  obtain ⟨hname, ⟨⟨hreturnNames, hgenericNames⟩, hparameterNames⟩, hbodyNames⟩ := h
  have hkeywords : OneLine (spaced m.attributes.keywords) :=
    oneLine_spaced m.attributes.oneLine_keywords
  have hinstance : OneLine (if m.isStatic then "" else "instance ") := by split <;> decide
  have hreturn : OneLine m.returnType.declaredText := m.returnType.oneLine_textIn hreturnNames
  have hgenerics : OneLine (GenericParameter.listText m.genericParameters) :=
    GenericParameter.oneLine_listText hgenericNames
  have hlist : OneLine (Text.commaSeparated (m.parameters.map Parameter.text)) := by
    apply oneLine_commaSeparated
    intro s hs
    obtain ⟨p, hp, rfl⟩ := List.mem_map.mp hs
    apply Parameter.oneLine_text
    intro n hn
    exact hparameterNames n (List.mem_flatMap.mpr ⟨p, hp, hn⟩)
  have hparameters : ∀ p ∈ Step.allPieces m.parameterSteps, OneLine p := by
    unfold parameterSteps
    split <;> simp [Step.allPieces, Step.pieces, hlist] <;> decide
  have himplementation : OneLine (" ".intercalate m.implementation.keywords) :=
    oneLine_intercalate (by decide) m.implementation.oneLine_keywords
  have hbody : ∀ p ∈ Step.allPieces (Listing.steps options m.body), OneLine p :=
    Listing.oneLine_pieces hbodyNames
  simp only [steps, Step.allPieces_append, Step.allPieces, Step.pieces, List.append_nil,
    List.forall_mem_append, List.forall_mem_singleton]
  exact ⟨⟨⟨by decide, hkeywords, hinstance, hreturn, by decide, hname, hgenerics⟩, hparameters⟩,
    himplementation, by decide, hbody, by decide⟩

end Pieces

section Texts

/-- The text of a method on its own. -/
def MethodDecl.text (options : ListingOptions) (m : MethodDecl) : Except Error String :=
  Script.text ((Declaration.method m).script options)

/-- The text of a type on its own. -/
def TypeDecl.text (options : ListingOptions) (t : TypeDecl) : Except Error String :=
  Script.text ((Declaration.type t).script options)

/-- The text of an assembly on its own. -/
def AssemblyDecl.text (options : ListingOptions) (a : AssemblyDecl) : Except Error String :=
  Script.text ((Declaration.assembly a).script options)

theorem Declaration.text_script (h : d.offences = []) :
    Script.text (d.script options) = .ok (Step.textsAt (d.steps options) 0 false) := by
  rw [script_of_supported h]
  exact Script.text_of_plain (allPlain_steps h)

theorem Listing.text_of_supported (h : ∀ i ∈ body, i.offences = []) :
    text options body = .ok (Step.textsAt (steps options body) 0 false) :=
  Script.text_of_plain (allPlain_steps h)

theorem MethodDecl.text_of_supported (h : m.offences = []) :
    m.text options = .ok (Step.textsAt (m.steps options) 0 false) :=
  Declaration.text_script (d := .method m) h

theorem TypeDecl.text_of_supported (h : t.offences = []) :
    t.text options = .ok (Step.textsAt (t.steps options) 0 false) :=
  Declaration.text_script (d := .type t) h

theorem MethodDecl.text_eq (h : m.offences = []) (hnames : ∀ n ∈ m.names, OneLine n) :
    ∃ listing, Listing.text options m.body = .ok listing ∧
      m.text options = .ok (m.headerAt 0 ++ "\x7b\n" ++ indent listing ++ "\x7d\n") := by
  have hbody : ∀ n ∈ m.body.flatMap Instruction.names, OneLine n := by
    intro n hn
    exact hnames n (List.mem_cons_of_mem _ (List.mem_append_right _ hn))
  refine ⟨_, Listing.text_of_supported (offences_eq_nil_iff.mp h).2, ?_⟩
  rw [text_of_supported h, textsAt_steps, Step.textsAt_succ (Listing.oneLine_pieces hbody)]
  rfl

/-- A method in a type is the method on its own, indented. -/
theorem MethodDecl.textsAt_one (hnames : ∀ n ∈ m.names, OneLine n) :
    Step.textsAt (m.steps options) 1 false = indent (Step.textsAt (m.steps options) 0 false) :=
  Step.textsAt_succ (oneLine_pieces hnames) 0

theorem TypeDecl.text_eq (h : t.offences = []) (hnames : ∀ n ∈ t.names, OneLine n) :
    ∃ texts, List.Forall₂ (fun member text => ∃ m, member = .method m ∧
        m.text options = .ok text) t.members texts ∧
      t.text options = .ok (t.header ++ t.baseLine ++ "\x7b\n" ++
        String.join (texts.map indent) ++ "\x7d\n\n") := by
  refine ⟨t.members.map fun member => Step.textsAt (member.steps options) 0 false, ?_, ?_⟩
  · rw [List.forall₂_map_right_iff, List.forall₂_same]
    intro member hmember
    have hsupported := List.flatMap_eq_nil_iff.mp h member hmember
    obtain ⟨m, rfl⟩ := MemberDecl.exists_method hsupported
    exact ⟨m, rfl, MethodDecl.text_of_supported hsupported⟩
  · -- A line that starts inside a name would not be indented, so names have to be one line.
    have hblocks : ∀ member ∈ t.members, Step.textsAt (member.steps options) 1 false =
        indent (Step.textsAt (member.steps options) 0 false) := by
      intro member hmember
      obtain ⟨m, rfl⟩ := MemberDecl.exists_method (List.flatMap_eq_nil_iff.mp h member hmember)
      apply MethodDecl.textsAt_one
      intro n hn
      exact hnames n (List.mem_cons_of_mem _ (List.mem_append_right _
        (List.mem_flatMap.mpr ⟨_, hmember, hn⟩)))
    rw [text_of_supported h, textsAt_steps, List.map_map, List.map_congr_left hblocks]
    rfl

theorem AssemblyDecl.text_eq (h : a.offences = []) :
    ∃ texts, List.Forall₂ (fun (t : TypeDecl) text => t.text options = .ok text) a.types texts ∧
      a.text options = .ok (a.header ++ String.join texts) := by
  refine ⟨a.types.map fun t => Step.textsAt (t.steps options) 0 false, ?_, ?_⟩
  · rw [List.forall₂_map_right_iff, List.forall₂_same]
    intro t ht
    exact TypeDecl.text_of_supported (List.flatMap_eq_nil_iff.mp h t ht)
  · rw [text, Declaration.text_script (d := .assembly a) h]
    exact congrArg Except.ok (textsAt_steps options a)

end Texts

/-- A declaration is printed as its header with the texts of its parts, each as it is printed on its
own: the listing of a method and the methods of a type one level deeper and in braces, the types of
an assembly as they are. -/
theorem declaration_text_composed (options : ListingOptions) :
    (∀ m : MethodDecl, m.unsupported? = none → (∀ n ∈ m.names, OneLine n) →
        ∃ listing, Listing.text options m.body = .ok listing ∧
          m.text options = .ok (m.headerAt 0 ++ "\x7b\n" ++ indent listing ++ "\x7d\n")) ∧
      (∀ t : TypeDecl, t.unsupported? = none → (∀ n ∈ t.names, OneLine n) →
        ∃ texts, List.Forall₂ (fun member text => ∃ m, member = .method m ∧
            m.text options = .ok text) t.members texts ∧
          t.text options = .ok (t.header ++ t.baseLine ++ "\x7b\n" ++
            String.join (texts.map indent) ++ "\x7d\n\n")) ∧
      (∀ a : AssemblyDecl, a.unsupported? = none →
        ∃ texts, List.Forall₂ (fun (t : TypeDecl) text => t.text options = .ok text)
            a.types texts ∧
          a.text options = .ok (a.header ++ String.join texts)) := by
  refine ⟨?_, ?_, ?_⟩
  · intro m hsupported hnames
    rw [m.unsupported?_eq, List.head?_eq_none_iff] at hsupported
    exact MethodDecl.text_eq hsupported hnames
  · intro t hsupported hnames
    rw [t.unsupported?_eq, List.head?_eq_none_iff] at hsupported
    exact TypeDecl.text_eq hsupported hnames
  · intro a hsupported
    rw [a.unsupported?_eq, List.head?_eq_none_iff] at hsupported
    exact AssemblyDecl.text_eq hsupported

/-- A type with one method in it, and that method. -/
theorem declaration_text_composed_calculator :
    (∃ listing, Listing.text .separated addMethod.body = .ok listing ∧
      addMethod.text .separated =
        .ok (addMethod.headerAt 0 ++ "\x7b\n" ++ indent listing ++ "\x7d\n")) ∧
    (∃ texts, List.Forall₂ (fun member text => ∃ m, member = .method m ∧
        m.text .separated = .ok text) calculator.members texts ∧
      calculator.text .separated = .ok (calculator.header ++ calculator.baseLine ++ "\x7b\n" ++
        String.join (texts.map indent) ++ "\x7d\n\n")) ∧
    ∃ texts, List.Forall₂ (fun (t : TypeDecl) text => t.text .separated = .ok text)
        [calculator, calculator] texts ∧
      (AssemblyDecl.mk "Tools" [calculator, calculator]).text .separated =
        .ok (AssemblyDecl.header ⟨"Tools", [calculator, calculator]⟩ ++ String.join texts) := by
  obtain ⟨hmethod, htype, hassembly⟩ := declaration_text_composed .separated
  exact ⟨hmethod addMethod (by decide) (by decide), htype calculator (by decide) (by decide),
    hassembly ⟨"Tools", [calculator, calculator]⟩ (by decide)⟩

end Cil
