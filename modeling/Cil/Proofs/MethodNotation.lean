import Mathlib
import Cil.Proofs.TypeNotation

/-! The notation for methods is unambiguous: each part of a method that its text shows can be read
off it again. -/
namespace Cil

variable {m m' : MethodRef} {u v : List Char}

/-- Marks that end a name inside a method: those of types and those between its parts. -/
def methodMarks : List Char := typeMarks ++ [' ', ':', '(', ')']

theorem endNames_methodMarks : EndNames methodMarks :=
  ⟨fun _ hc => List.mem_append_left _ hc, by simp [methodMarks, typeMarks, Char.isDigit]⟩

theorem endsType_cons {c : Char} (hc : c ∈ [' ', ':']) (u : List Char) :
    EndsType methodMarks (c :: u) := by
  have hmark : ∀ c ∈ [' ', ':'], c ∈ methodMarks ∧ c ∉ TypeSuffix.openers := by
    simp [methodMarks, TypeSuffix.openers]
  simpa [EndsType] using hmark c hc

theorem TypeRef.map_text_eq_of_map_shown_eq {ss ts : List TypeRef}
    (h : ss.map shown = ts.map shown) : ss.map text = ts.map text := by
  have htext : text ∘ shown = text := funext text_shown
  have hmap := congrArg (List.map text) h
  rwa [List.map_map, List.map_map, htext] at hmap

namespace MethodRef

/-- The type that is printed in front of a method: void for a constructor. -/
def printedReturn (m : MethodRef) : TypeRef :=
  match m.kind with
  | .constructor => .system "System.Void"
  | .method => m.displaySignature.returnType

theorem text_printedReturn (m : MethodRef) : m.printedReturn.text = m.returnText := by
  have hvoid : primitive? "System.Void" = some "void" := by decide +kernel
  unfold printedReturn returnText
  cases m.kind with
  | constructor => exact TypeRef.text_keyword hvoid
  | method => rfl

/-- The types whose texts stand in the text of a method. -/
def printedTypes (m : MethodRef) : List TypeRef :=
  m.printedReturn :: m.declaringType :: (m.genericArguments ++ m.displaySignature.parameters)

/-- A method whose names have none of the marks that stand behind them. -/
structure ClearlyNamed (m : MethodRef) : Prop where
  types : ∀ t ∈ m.printedTypes, t.NamesAvoid methodMarks
  name : ∀ c ∈ ['<', '('], c ∉ m.name.toList

/-- Two methods that agree on all that is printed of a method. -/
structure ShowsSame (m m' : MethodRef) : Prop where
  isStatic : m.isStatic = m'.isStatic
  printedReturn : m.printedReturn.text = m'.printedReturn.text
  declaringType : m.declaringType.text = m'.declaringType.text
  name : m.name = m'.name
  genericArguments : m.genericArguments.map TypeRef.text = m'.genericArguments.map TypeRef.text
  parameters : m.displaySignature.parameters.map TypeRef.text =
    m'.displaySignature.parameters.map TypeRef.text

theorem ShowsSame.text_eq (h : m.ShowsSame m') : m.text = m'.text := by
  have hreturn : m.returnText = m'.returnText := by
    rw [← text_printedReturn, h.printedReturn, text_printedReturn]
  have hgeneric : m.isGeneric = m'.isGeneric := by
    have hempty := congrArg List.isEmpty h.genericArguments
    rw [List.isEmpty_map, List.isEmpty_map] at hempty
    rw [isGeneric, isGeneric, hempty]
  simp only [text, TypeRef.listText, h.isStatic, hreturn, h.declaringType, h.name, hgeneric,
    h.genericArguments, h.parameters]

def staticMark (isStatic : Bool) : List Char := if isStatic then [] else "instance ".toList

/-- What stands behind the name of a method. -/
def lists (m : MethodRef) : List Char :=
  (if m.isGeneric then '<' :: ((TypeRef.listText m.genericArguments).toList ++ ['>']) else []) ++
    '(' :: ((TypeRef.listText m.displaySignature.parameters).toList ++ [')'])

theorem toList_text (m : MethodRef) : m.text.toList = staticMark m.isStatic ++
    (m.printedReturn.text.toList ++ ' ' :: (m.declaringType.text.toList ++
      ':' :: ':' :: (m.name.toList ++ m.lists))) := by
  rw [text_printedReturn]
  cases hstatic : m.isStatic <;> cases hgeneric : m.isGeneric <;>
    simp [text, staticMark, lists, hstatic, hgeneric]

end MethodRef

/-- No type is taken for the word in front of an instance method. -/
theorem TypeRef.text_append_ne_instance (t : TypeRef) :
    t.text.toList ++ u ≠ "instance ".toList ++ v := by
  intro h
  have hapart : ∀ p ∈ primitives, ¬p.2.toList <+: "instance ".toList ∧
      ¬"instance ".toList <+: p.2.toList := by
    decide +kernel
  have hcons : "instance ".toList ++ v = 'i' :: ("nstance ".toList ++ v) := by simp
  rw [hcons] at h
  obtain ⟨f, keyword, w, hf, hkeyword⟩ := t.exists_keyword (by decide) (by decide) h
  rw [← hcons] at hkeyword
  obtain ⟨hshort, hlong⟩ := hapart _ (mem_primitives hf)
  rcases List.prefix_or_prefix_of_prefix (List.prefix_append keyword.toList w)
    (hkeyword ▸ List.prefix_append "instance ".toList v) with hle | hle
  · exact hshort hle
  · exact hlong hle

namespace MethodRef

theorem eq_of_staticMark_append_eq {b b' : Bool} {s t : TypeRef}
    (h : staticMark b ++ (s.text.toList ++ u) = staticMark b' ++ (t.text.toList ++ v)) :
    b = b' ∧ s.text.toList ++ u = t.text.toList ++ v := by
  cases b <;> cases b'
  · exact ⟨rfl, List.append_cancel_left h⟩
  · exact absurd h.symm t.text_append_ne_instance
  · exact absurd h s.text_append_ne_instance
  · exact ⟨rfl, h⟩

theorem startsWithMark_lists (m : MethodRef) : StartsWithMark ['<', '('] m.lists := by
  cases hgeneric : m.isGeneric <;> simp [StartsWithMark, lists, hgeneric]

theorem ClearlyNamed.readable {ts : List TypeRef} (hm : m.ClearlyNamed)
    (hts : ts ⊆ m.printedTypes) : ∀ t ∈ ts, t.Readable methodMarks :=
  fun t ht => TypeRef.readable endNames_methodMarks t (hm.types t (hts ht))

theorem genericArguments_subset (m : MethodRef) : m.genericArguments ⊆ m.printedTypes := by
  intro t ht
  simp [printedTypes, ht]

theorem parameters_subset (m : MethodRef) : m.displaySignature.parameters ⊆ m.printedTypes := by
  intro t ht
  simp [printedTypes, ht]

theorem eq_of_parameters_append_eq (hm : m.ClearlyNamed) (hm' : m'.ClearlyNamed)
    (h : (TypeRef.listText m.displaySignature.parameters).toList ++ [')'] =
      (TypeRef.listText m'.displaySignature.parameters).toList ++ [')']) :
    m.displaySignature.parameters.map TypeRef.text =
      m'.displaySignature.parameters.map TypeRef.text := by
  obtain ⟨hshown, -⟩ := eq_of_listText_append_eq endNames_methodMarks (by decide)
    (by simp [methodMarks]) (hm.readable m.parameters_subset)
    (fun t ht => hm'.types t (m'.parameters_subset ht)) h
  exact TypeRef.map_text_eq_of_map_shown_eq hshown

theorem isGeneric_eq_false_iff : m.isGeneric = false ↔ m.genericArguments = [] := by
  simp [isGeneric]

theorem eq_of_lists_eq (hm : m.ClearlyNamed) (hm' : m'.ClearlyNamed) (h : m.lists = m'.lists) :
    m.genericArguments.map TypeRef.text = m'.genericArguments.map TypeRef.text ∧
    m.displaySignature.parameters.map TypeRef.text =
      m'.displaySignature.parameters.map TypeRef.text := by
  cases hgeneric : m.isGeneric <;> cases hgeneric' : m'.isGeneric <;>
    simp only [lists, hgeneric, hgeneric', if_true, if_false, Bool.false_eq_true, List.nil_append,
      List.cons_append, List.append_assoc, List.cons.injEq, true_and] at h
  · rw [isGeneric_eq_false_iff.mp hgeneric, isGeneric_eq_false_iff.mp hgeneric']
    exact ⟨rfl, eq_of_parameters_append_eq hm hm' h⟩
  · simp at h
  · simp at h
  · obtain ⟨hshown, hrest⟩ := eq_of_listText_append_eq endNames_methodMarks (by decide)
      (by simp [methodMarks, typeMarks]) (hm.readable m.genericArguments_subset)
      (fun t ht => hm'.types t (m'.genericArguments_subset ht)) h
    exact ⟨TypeRef.map_text_eq_of_map_shown_eq hshown,
      eq_of_parameters_append_eq hm hm' (List.cons.inj hrest).2⟩

theorem showsSame_of_text_eq (hm : m.ClearlyNamed) (hm' : m'.ClearlyNamed) (h : m.text = m'.text) :
    m.ShowsSame m' := by
  have hreadable := hm.readable (List.Subset.refl m.printedTypes)
  have hchars := congrArg String.toList h
  rw [toList_text, toList_text] at hchars
  obtain ⟨hstatic, hparts⟩ := eq_of_staticMark_append_eq hchars
  obtain ⟨hreturn, hparts⟩ := hreadable m.printedReturn (by simp [printedTypes])
    (hm'.types m'.printedReturn (by simp [printedTypes]))
    (endsType_cons (by simp) _) (endsType_cons (by simp) _) hparts
  obtain ⟨hdeclaring, hparts⟩ := hreadable m.declaringType (by simp [printedTypes])
    (hm'.types m'.declaringType (by simp [printedTypes]))
    (endsType_cons (by simp) _) (endsType_cons (by simp) _) (List.cons.inj hparts).2
  obtain ⟨hname, hlists⟩ := eq_of_name_append_eq hm.name hm'.name m.startsWithMark_lists
    m'.startsWithMark_lists (List.cons.inj (List.cons.inj hparts).2).2
  obtain ⟨hgeneric, hparameters⟩ := eq_of_lists_eq hm hm' hlists
  exact ⟨hstatic, TypeRef.text_eq_of_shown_eq hreturn, TypeRef.text_eq_of_shown_eq hdeclaring,
    hname, hgeneric, hparameters⟩

/-- Two methods have one text just where they agree on what is printed. A signature is not printed
when there is a generic definition. -/
theorem text_eq_iff_showsSame (hm : m.ClearlyNamed) (hm' : m'.ClearlyNamed) :
    (m.text = m'.text ↔ m.ShowsSame m') ∧
    (m.genericDefinition.isSome = true →
      ∀ signature, { m with signature := signature }.text = m.text) := by
  refine ⟨⟨showsSame_of_text_eq hm hm', ShowsSame.text_eq⟩, ?_⟩
  intro hsome signature
  obtain ⟨definition, hdefinition⟩ := Option.isSome_iff_exists.mp hsome
  simp [text, returnText, displaySignature, isGeneric, hdefinition]

/-- A generic method with one argument, an array, and one parameter. -/
def sampleMethod (isStatic : Bool) (rank : Nat) (name : String) : MethodRef where
  declaringType := .named "Lib" "Box"
  name := "Map"
  kind := .method
  isStatic := isStatic
  signature := ⟨.typeParameter 0 name, []⟩
  genericArguments := [.array (.named "Lib" "Key") rank]
  genericDefinition := some ⟨.methodParameter 0 name, [.typeParameter 0 name]⟩

theorem clearlyNamed_sampleMethod (isStatic : Bool) (rank : Nat) (name : String) :
    (sampleMethod isStatic rank name).ClearlyNamed := by
  constructor
  · simp [sampleMethod, printedTypes, printedReturn, displaySignature, TypeRef.NamesAvoid,
      TypeRef.namedTypes, methodMarks, typeMarks]
  · simp [sampleMethod]

theorem text_eq_iff_showsSame_generic :
    (sampleMethod false 0 "T").ClearlyNamed ∧ (sampleMethod false 1 "U").ClearlyNamed ∧
    (sampleMethod true 0 "T").ClearlyNamed ∧
    (sampleMethod false 0 "T").text = (sampleMethod false 1 "U").text ∧
    (sampleMethod false 0 "T").text ≠ (sampleMethod true 0 "T").text ∧
    { sampleMethod false 0 "T" with signature := ⟨.system "System.Int32", []⟩ }.text =
      (sampleMethod false 0 "T").text := by
  have hbase := clearlyNamed_sampleMethod false 0 "T"
  have hsame := clearlyNamed_sampleMethod false 1 "U"
  have hstatic := clearlyNamed_sampleMethod true 0 "T"
  refine ⟨hbase, hsame, hstatic, ?_, ?_, ?_⟩
  · exact (text_eq_iff_showsSame hbase hsame).1.mpr ⟨rfl, rfl, rfl, rfl, rfl, rfl⟩
  · intro h
    exact absurd ((text_eq_iff_showsSame hbase hstatic).1.mp h).isStatic (by decide)
  · exact (text_eq_iff_showsSame hbase hbase).2 rfl _

end MethodRef

end Cil
