import Mathlib
import Cil.Listing
import Cil.Proofs.DecimalLayout
import Cil.Proofs.Numeral
import Cil.Proofs.OpcodeTable
import Cil.Proofs.QuotedText

/-! Which texts stay on one line: everything that is printed, as long as the names in it do. -/
namespace Cil

/-- A text without a line feed. -/
def OneLine (s : String) : Prop := '\n' ∉ s.toList

instance (s : String) : Decidable (OneLine s) := inferInstanceAs (Decidable (¬ _))

section Pieces

variable {s t : String} {c : Char} {cs : List Char}

@[simp]
theorem oneLine_append : OneLine (s ++ t) ↔ OneLine s ∧ OneLine t := by
  simp [OneLine, not_or]

@[simp]
theorem oneLine_ofList : OneLine (String.ofList cs) ↔ '\n' ∉ cs := by
  simp [OneLine]

theorem oneLine_intercalate (hsep : OneLine s) {items : List String}
    (hitems : ∀ t ∈ items, OneLine t) : OneLine (s.intercalate items) := by
  induction items with
  | nil => simp [OneLine]
  | cons t items ih =>
    have hfirst := hitems t List.mem_cons_self
    have hlater := ih fun u hu => hitems u (List.mem_cons_of_mem t hu)
    cases items with
    | nil => simpa using hfirst
    | cons u items =>
      rw [String.intercalate_cons_cons]
      simp [hfirst, hsep, hlater]

theorem oneLine_commaSeparated {items : List String} (h : ∀ t ∈ items, OneLine t) :
    OneLine (Text.commaSeparated items) :=
  oneLine_intercalate (by decide) h

theorem oneLine_repr (n : Nat) : OneLine (Nat.repr n) := by
  intro h
  exact absurd (Text.isDigit_of_mem_repr h) (by decide)

theorem oneLine_decimal (width n : Nat) : OneLine (Text.decimal width n) := by
  intro h
  exact absurd (Text.isDigit_of_mem_decimal h) (by decide)

theorem oneLine_integer (z : Int) : OneLine (Text.integer z) := by
  intro h
  rcases Text.isDigit_or_eq_of_mem_integer h with hdigit | hsign
  · exact absurd hdigit (by decide)
  · exact absurd hsign (by decide)

theorem lineFeed_notMem_replicate (hc : '\n' ≠ c) (n : Nat) : '\n' ∉ List.replicate n c := by
  intro h
  exact hc (List.eq_of_mem_replicate h)

theorem oneLine_hexUpper (width n : Nat) : OneLine (Text.hexUpper width n) := by
  have hdigit : ∀ d < 16, (Nat.digitChar d).toUpper ≠ '\n' := by decide
  rw [Text.hexUpper, Text.zeroFill, oneLine_ofList, List.mem_append, not_or]
  refine ⟨lineFeed_notMem_replicate (by decide) _, ?_⟩
  intro h
  obtain ⟨c, hc, hupper⟩ := List.mem_map.mp h
  obtain ⟨d, hd, rfl⟩ := Text.exists_of_mem_toDigits (by decide) hc
  exact hdigit d hd hupper

theorem oneLine_blob (bytes : List UInt8) : OneLine (Text.blob bytes) := by
  have hbytes : OneLine (" ".intercalate (bytes.map fun b => Text.hexUpper 2 b.toNat)) := by
    refine oneLine_intercalate (by decide) ?_
    intro t ht
    obtain ⟨b, -, rfl⟩ := List.mem_map.mp ht
    exact oneLine_hexUpper 2 b.toNat
  rw [Text.blob, oneLine_append, oneLine_append]
  exact ⟨⟨by decide, hbytes⟩, by decide⟩

/-- A line feed inside a string literal is escaped. -/
theorem oneLine_quote (s : String) : OneLine (Text.quote s) := by
  rw [OneLine, Text.toList_quote]
  exact Text.Quoted.notMem_encode_of_mem_controls (by decide) s.toList

end Pieces

section Floats

theorem lineFeed_notMem_of_isDigit {digits : List Char} (h : ∀ c ∈ digits, c.isDigit = true) :
    '\n' ∉ digits := by
  intro hmem
  exact absurd (h '\n' hmem) (by decide)

/-- Signs, digits, points and the letter of the exponent are all that a number is written with. -/
theorem Spelling.oneLine_layout (s : Spelling) (places : Nat) :
    OneLine (s.number.text places) := by
  obtain ⟨front, tail, htext, hplain, -, hform⟩ := s.form_cases places
  rw [OneLine, htext, List.mem_append, not_or]
  constructor
  · intro hmem
    exact absurd (hplain.char_cases hmem) (by decide)
  · rcases hform with ⟨-, sign, exponent, rfl, hsign, -, hdigits⟩ | ⟨-, rfl⟩
    · rcases hsign with rfl | rfl <;> simpa using lineFeed_notMem_of_isDigit hdigits
    · exact List.not_mem_nil

theorem BinaryValue.oneLine_text (places : Nat) (v : BinaryValue) : OneLine (v.text places) := by
  cases v with
  | nan =>
    rw [text]
    decide
  | infinite negative =>
    cases negative
    · rw [text]
      decide
    · rw [text]
      decide
  | finite negative m =>
    obtain ⟨s, hs⟩ := Scientific.exists_spelling (m.isDigit_of_mem_shortest negative)
    rw [text, ← hs]
    exact s.oneLine_layout places

end Floats

section Names

mutual

/-- The names of assemblies and types that a reference mentions. A generic parameter is printed by
its position, so its name does not count. -/
def TypeRef.names : TypeRef → List String
  | named assembly fullName => [assembly, fullName]
  | typeParameter .. | methodParameter .. => []
  | pointer t | byRef t | array t _ => t.names
  | instantiation t args => t.names ++ TypeRef.namesOfAll args

def TypeRef.namesOfAll : List TypeRef → List String
  | [] => []
  | t :: ts => t.names ++ TypeRef.namesOfAll ts

end

def MethodSignature.names (s : MethodSignature) : List String :=
  s.returnType.names ++ TypeRef.namesOfAll s.parameters

/-- The names of assemblies, types and methods that a method reference mentions. -/
def MethodRef.names (m : MethodRef) : List String :=
  m.name :: (m.declaringType.names ++ m.signature.names ++ TypeRef.namesOfAll m.genericArguments ++
    (m.genericDefinition.map (·.names)).getD [])

/-- The names of assemblies, types and methods that a member reference mentions. -/
def MemberRef.names : MemberRef → List String
  | type t => t.names
  | method m => m.names
  | field f => f.declaringType.names ++ f.type.names

theorem oneLine_primitive {fullName keyword : String} (h : primitive? fullName = some keyword) :
    OneLine keyword := by
  have hall : ∀ p ∈ primitives, OneLine p.2 := by decide
  obtain ⟨before, after, heq, -⟩ := List.lookup_eq_some_iff.mp h
  exact hall (fullName, keyword) (by rw [heq]; simp)

/-- The names that a generic parameter shows. -/
def ParameterStyle.names : ParameterStyle → String → List String
  | position, _ => []
  | name, n => [n]

mutual

/-- The names that a type shows when its generic parameters are printed in the given style. -/
def TypeRef.namesIn (style : ParameterStyle) : TypeRef → List String
  | named assembly fullName => [assembly, fullName]
  | typeParameter _ name | methodParameter _ name => style.names name
  | pointer t | byRef t | array t _ => t.namesIn style
  | instantiation t args => t.namesIn style ++ TypeRef.namesOfAllIn style args

def TypeRef.namesOfAllIn (style : ParameterStyle) : List TypeRef → List String
  | [] => []
  | t :: ts => t.namesIn style ++ TypeRef.namesOfAllIn style ts

end

theorem ParameterStyle.oneLine_text {style : ParameterStyle} {n : String}
    (h : ∀ s ∈ style.names n, OneLine s) (p : Nat) : OneLine (style.text p n) := by
  cases style with
  | position => exact oneLine_repr p
  | name => exact h n List.mem_cons_self

mutual

theorem TypeRef.oneLine_textIn {style : ParameterStyle} : (t : TypeRef) →
    (∀ s ∈ t.namesIn style, OneLine s) → OneLine (t.textIn style)
  | named assembly fullName, h => by
    rw [textIn]
    split
    next hkeyword => exact oneLine_primitive hkeyword
    next =>
      have hassembly := h assembly (by simp [namesIn])
      have hname := h fullName (by simp [namesIn])
      simp only [oneLine_append]
      exact ⟨⟨⟨by decide, hassembly⟩, by decide⟩, hname⟩
  | typeParameter p n, h => by
    rw [textIn, oneLine_append]
    exact ⟨by decide, ParameterStyle.oneLine_text h p⟩
  | methodParameter p n, h => by
    rw [textIn, oneLine_append]
    exact ⟨by decide, ParameterStyle.oneLine_text h p⟩
  | pointer t, h => by
    rw [textIn, oneLine_append]
    exact ⟨t.oneLine_textIn h, by decide⟩
  | byRef t, h => by
    rw [textIn, oneLine_append]
    exact ⟨t.oneLine_textIn h, by decide⟩
  | array t rank, h => by
    have hcommas := lineFeed_notMem_replicate (c := ',') (by decide) (rank - 1)
    simp only [textIn, oneLine_append, oneLine_ofList]
    exact ⟨⟨⟨t.oneLine_textIn h, by decide⟩, hcommas⟩, by decide⟩
  | instantiation t args, h => by
    have hargs := TypeRef.oneLine_textsIn args fun s hs => h s (List.mem_append_right _ hs)
    simp only [textIn, oneLine_append]
    exact ⟨⟨⟨t.oneLine_textIn fun s hs => h s (List.mem_append_left _ hs), by decide⟩,
      oneLine_commaSeparated hargs⟩, by decide⟩

theorem TypeRef.oneLine_textsIn {style : ParameterStyle} : (ts : List TypeRef) →
    (∀ s ∈ TypeRef.namesOfAllIn style ts, OneLine s) → ∀ s ∈ TypeRef.textsIn style ts, OneLine s
  | [], _ => by simp [textsIn]
  | t :: ts, h => by
    have hfirst := t.oneLine_textIn fun s hs => h s (List.mem_append_left _ hs)
    have hlater := TypeRef.oneLine_textsIn ts fun s hs => h s (List.mem_append_right _ hs)
    simpa [textsIn] using ⟨hfirst, hlater⟩

end

mutual

theorem TypeRef.namesIn_position : (t : TypeRef) → t.namesIn .position = t.names
  | named .. | typeParameter .. | methodParameter .. => rfl
  | pointer t | byRef t | array t _ => t.namesIn_position
  | instantiation t args => by
    rw [namesIn, names, t.namesIn_position, TypeRef.namesOfAllIn_position args]

theorem TypeRef.namesOfAllIn_position : (ts : List TypeRef) →
    TypeRef.namesOfAllIn .position ts = TypeRef.namesOfAll ts
  | [] => rfl
  | t :: ts => by
    rw [namesOfAllIn, namesOfAll, t.namesIn_position, TypeRef.namesOfAllIn_position ts]

end

theorem TypeRef.oneLine_text {t : TypeRef} (h : ∀ s ∈ t.names, OneLine s) : OneLine t.text := by
  rw [← t.namesIn_position] at h
  exact t.oneLine_textIn h

theorem TypeRef.textsIn_eq_map (style : ParameterStyle) (ts : List TypeRef) :
    textsIn style ts = ts.map (textIn style) := by
  induction ts with
  | nil => rfl
  | cons t ts ih => rw [textsIn, ih, List.map_cons]

theorem TypeRef.oneLine_listText {ts : List TypeRef} (h : ∀ s ∈ namesOfAll ts, OneLine s) :
    OneLine (listText ts) := by
  rw [← namesOfAllIn_position] at h
  have htexts := oneLine_textsIn ts h
  rw [textsIn_eq_map] at htexts
  exact oneLine_commaSeparated htexts

theorem MethodRef.mem_names_of_mem_displaySignature {m : MethodRef} {s : String}
    (h : s ∈ m.displaySignature.names) : s ∈ m.names := by
  unfold displaySignature at h
  cases hdef : m.genericDefinition with
  | none =>
    rw [hdef, Option.getD_none] at h
    simp [names, h]
  | some signature =>
    rw [hdef, Option.getD_some] at h
    simp [names, hdef, h]

theorem MethodRef.oneLine_text {m : MethodRef} (h : ∀ s ∈ m.names, OneLine s) :
    OneLine m.text := by
  have hshown : ∀ s ∈ m.displaySignature.names, OneLine s := fun s hs =>
    h s (mem_names_of_mem_displaySignature hs)
  have hinstance : OneLine (if m.isStatic then "" else "instance ") := by split <;> decide
  have hreturn : OneLine m.returnText := by
    unfold returnText
    split
    · decide
    · exact TypeRef.oneLine_text fun s hs => hshown s (List.mem_append_left _ hs)
  have hdeclaring : OneLine m.declaringType.text :=
    TypeRef.oneLine_text fun s hs => h s (by simp [names, hs])
  have hname : OneLine m.name := h m.name List.mem_cons_self
  have harguments : OneLine (if m.isGeneric then
      "<" ++ TypeRef.listText m.genericArguments ++ ">" else "") := by
    split
    · simp only [oneLine_append]
      exact ⟨⟨by decide, TypeRef.oneLine_listText fun s hs => h s (by simp [names, hs])⟩,
        by decide⟩
    · decide
  have hparameters : OneLine (TypeRef.listText m.displaySignature.parameters) :=
    TypeRef.oneLine_listText fun s hs => hshown s (List.mem_append_right _ hs)
  have hblank : OneLine " " := by decide
  have hcolons : OneLine "::" := by decide
  have hopen : OneLine "(" := by decide
  have hclose : OneLine ")" := by decide
  simp only [text, oneLine_append]
  tauto

/-- The names of assemblies, types and methods that an operand mentions. -/
def Operand.names : Operand → List String
  | member m => m.names
  | _ => []

theorem MemberRef.oneLine_text {m : MemberRef} {s : String} (htext : m.text = .ok s)
    (h : ∀ n ∈ m.names, OneLine n) : OneLine s := by
  cases m with
  | type t =>
    cases htext
    exact TypeRef.oneLine_text h
  | method m =>
    cases htext
    exact MethodRef.oneLine_text h
  | field f => cases htext

theorem Operand.oneLine_text {a : Operand} {s : String} (htext : a.text = .ok (some s))
    (h : ∀ n ∈ a.names, OneLine n) : OneLine s := by
  cases a with
  | none => cases htext
  | int8 v | int16 v | int32 v | int64 v =>
    cases htext
    exact oneLine_integer _
  | uint8 v | uint16 v =>
    cases htext
    exact oneLine_repr _
  | float32 v =>
    cases htext
    exact BinaryValue.oneLine_text 7 v.value
  | float64 v =>
    cases htext
    exact BinaryValue.oneLine_text 15 v.value
  | target offset =>
    cases htext
    exact oneLine_repr offset
  | switch offsets =>
    cases htext
    have hcases : ∀ t ∈ offsets.map Nat.repr, OneLine t := by
      intro t ht
      obtain ⟨offset, -, rfl⟩ := List.mem_map.mp ht
      exact oneLine_repr offset
    rw [oneLine_append, oneLine_append]
    exact ⟨⟨by decide, oneLine_commaSeparated hcases⟩, by decide⟩
  | string v =>
    cases htext
    exact oneLine_quote v
  | member m =>
    cases hm : m.text with
    | error e => simp [text, hm, Except.map] at htext
    | ok t =>
      obtain rfl : t = s := by simpa [text, hm, Except.map] using htext
      exact MemberRef.oneLine_text hm h
  | signature blob =>
    cases htext
    exact oneLine_blob blob

end Names

end Cil
