import Mathlib
import Cil.Proofs.OneLine

/-! The notation for types is unambiguous: what a text shows of a type can be read off it again,
also when more text follows. -/
namespace Cil

variable {marks : List Char} {c close : Char} {a f : String} {s t : TypeRef} {ss ts : List TypeRef}
  {u v : List Char}

theorem Text.eq_of_append_eq {p : Char → Bool} {x y : List Char} (hx : ∀ c ∈ x, p c = true)
    (hy : ∀ c ∈ y, p c = true) (hu : ∀ c ∈ u.head?, p c = false) (hv : ∀ c ∈ v.head?, p c = false)
    (h : x ++ u = y ++ v) : x = y ∧ u = v := by
  have hstop : ∀ w : List Char, (∀ c ∈ w.head?, p c = false) → w.takeWhile p = [] := by
    intro w hw
    cases w with
    | nil => rfl
    | cons c w => simp [hw c rfl]
  have hcut := congrArg (List.takeWhile p) h
  rw [List.takeWhile_append_of_pos hx, List.takeWhile_append_of_pos hy, hstop u hu, hstop v hv,
    List.append_nil, List.append_nil] at hcut
  subst hcut
  exact ⟨rfl, List.append_cancel_left h⟩

section Shown

namespace TypeRef

mutual

/-- A type without what its text does not show: the assembly of a type that has a keyword, the name
of a generic parameter, and whether the rank of an array is zero or one. -/
def shown : TypeRef → TypeRef
  | named assembly fullName =>
    named (if (primitive? fullName).isSome then "" else assembly) fullName
  | typeParameter p _ => typeParameter p ""
  | methodParameter p _ => methodParameter p ""
  | pointer t => pointer t.shown
  | byRef t => byRef t.shown
  | array t rank => array t.shown (max rank 1)
  | instantiation t args => instantiation t.shown (shownAll args)

def shownAll : List TypeRef → List TypeRef
  | [] => []
  | t :: ts => t.shown :: shownAll ts

end

theorem shownAll_eq_map (ts : List TypeRef) : shownAll ts = ts.map shown := by
  induction ts with
  | nil => rfl
  | cons t ts ih => rw [shownAll, ih, List.map_cons]

mutual

theorem text_shown : (t : TypeRef) → t.shown.text = t.text
  | named assembly fullName => by
    simp only [shown, text, textIn]
    cases primitive? fullName <;> rfl
  | typeParameter .. | methodParameter .. => rfl
  | pointer t | byRef t => congrArg (· ++ _) t.text_shown
  | array t rank => by
    have hrank : max rank 1 - 1 = rank - 1 := by omega
    have ht := t.text_shown
    simp only [shown, text, textIn] at ht ⊢
    rw [ht, hrank]
  | instantiation t args => by
    have ht := t.text_shown
    have hargs := textsIn_shownAll args
    simp only [shown, text, textIn] at ht ⊢
    rw [ht, hargs]

theorem textsIn_shownAll : (ts : List TypeRef) →
    textsIn .position (shownAll ts) = textsIn .position ts
  | [] => rfl
  | t :: ts => by
    have ht := t.text_shown
    simp only [shownAll, text, textsIn] at ht ⊢
    rw [ht, textsIn_shownAll ts]

end

theorem text_eq_of_shown_eq (h : s.shown = t.shown) : s.text = t.text := by
  rw [← s.text_shown, h, t.text_shown]

end TypeRef

end Shown

section Names

/-- Marks that end a name inside a type. -/
def typeMarks : List Char := ['*', '&', '[', '<', '>', ',']

namespace TypeRef

mutual

/-- Assembly and full name of the named types in a type. -/
def namedTypes : TypeRef → List (String × String)
  | named assembly fullName => [(assembly, fullName)]
  | typeParameter .. | methodParameter .. => []
  | pointer t | byRef t | array t _ => t.namedTypes
  | instantiation t args => t.namedTypes ++ namedTypesOfAll args

def namedTypesOfAll : List TypeRef → List (String × String)
  | [] => []
  | t :: ts => t.namedTypes ++ namedTypesOfAll ts

end

/-- Where a named type is not printed by a keyword, its assembly has no closing bracket and its full
name none of the marks. -/
def NamesAvoid (marks : List Char) (t : TypeRef) : Prop :=
  ∀ p ∈ t.namedTypes, primitive? p.2 = none →
    ']' ∉ p.1.toList ∧ ∀ c ∈ marks, c ∉ p.2.toList

instance (marks : List Char) (t : TypeRef) : Decidable (t.NamesAvoid marks) :=
  inferInstanceAs (Decidable (∀ p ∈ t.namedTypes, primitive? p.2 = none →
    ']' ∉ p.1.toList ∧ ∀ c ∈ marks, c ∉ p.2.toList))

theorem namedTypesOfAll_eq_flatMap (ts : List TypeRef) :
    namedTypesOfAll ts = ts.flatMap namedTypes := by
  induction ts with
  | nil => rfl
  | cons t ts ih => rw [namedTypesOfAll, ih, List.flatMap_cons]

end TypeRef

end Names

section Suffixes

/-- What can stand behind a type to make another one. -/
inductive TypeSuffix where
  | pointer
  | byRef
  | array (rank : Nat)
  | arguments (args : List TypeRef)

namespace TypeSuffix

/-- The marks that a suffix can begin with. -/
def openers : List Char := ['*', '&', '[', '<']

def chars : TypeSuffix → List Char
  | pointer => ['*']
  | byRef => ['&']
  | array rank => '[' :: (List.replicate (rank - 1) ',' ++ [']'])
  | arguments args => '<' :: ((TypeRef.listText args).toList ++ ['>'])

def apply (t : TypeRef) : TypeSuffix → TypeRef
  | pointer => .pointer t
  | byRef => .byRef t
  | array rank => .array t rank
  | arguments args => .instantiation t args

def shown : TypeSuffix → TypeSuffix
  | array rank => array (max rank 1)
  | arguments args => arguments (args.map TypeRef.shown)
  | x => x

/-- The types that are part of a suffix. -/
def types : TypeSuffix → List TypeRef
  | arguments args => args
  | _ => []

variable (x : TypeSuffix)

theorem exists_opener : ∃ c w, x.chars = c :: w ∧ c ∈ openers := by
  cases x with
  | pointer => exact ⟨'*', _, rfl, by decide⟩
  | byRef => exact ⟨'&', _, rfl, by decide⟩
  | array rank => exact ⟨'[', _, rfl, by decide⟩
  | arguments args => exact ⟨'<', _, rfl, by decide⟩

theorem toList_text_apply (t : TypeRef) :
    (apply t x).text.toList = t.text.toList ++ x.chars := by
  cases x with
  | arguments args =>
    simp [apply, chars, TypeRef.text, TypeRef.textIn, TypeRef.listText, TypeRef.textsIn_eq_map]
    rfl
  | _ => simp [apply, chars, TypeRef.text, TypeRef.textIn]

theorem shown_apply (t : TypeRef) : (apply t x).shown = apply t.shown x.shown := by
  cases x with
  | arguments args => rw [apply, TypeRef.shown, TypeRef.shownAll_eq_map, shown, apply]
  | _ => rfl

theorem namedTypes_apply (t : TypeRef) :
    (apply t x).namedTypes = t.namedTypes ++ x.types.flatMap TypeRef.namedTypes := by
  cases x with
  | arguments args => rw [apply, TypeRef.namedTypes, TypeRef.namedTypesOfAll_eq_flatMap, types]
  | _ => simp [apply, TypeRef.namedTypes, types]

theorem sizeOf_lt_apply (t : TypeRef) : sizeOf t < sizeOf (apply t x) := by
  cases x with
  | array rank | arguments args =>
    simp [apply]
    omega
  | _ => simp [apply]

theorem sizeOf_lt_of_mem_types {x : TypeSuffix} (h : s ∈ x.types) (t : TypeRef) :
    sizeOf s < sizeOf (apply t x) := by
  cases x with
  | arguments args =>
    have hlt := List.sizeOf_lt_of_mem (show s ∈ args from h)
    simp [apply]
    omega
  | _ => cases h

end TypeSuffix

/-- The ways in which a type without suffixes is written. -/
inductive RootKind where
  | keyword
  | named
  | typeParameter
  | methodParameter

namespace TypeRef

/-- A type with suffixes put behind it, one after the other. -/
def extend (t : TypeRef) (xs : List TypeSuffix) : TypeRef := xs.foldl TypeSuffix.apply t

variable (t : TypeRef) (xs : List TypeSuffix)

theorem toList_text_extend :
    (t.extend xs).text.toList = t.text.toList ++ xs.flatMap TypeSuffix.chars := by
  induction xs generalizing t with
  | nil => simp [extend]
  | cons x xs ih =>
    have hlater := ih (x.apply t)
    rw [x.toList_text_apply, List.append_assoc] at hlater
    exact hlater

theorem shown_extend : (t.extend xs).shown = t.shown.extend (xs.map TypeSuffix.shown) := by
  induction xs generalizing t with
  | nil => rfl
  | cons x xs ih =>
    have hlater := ih (x.apply t)
    rw [x.shown_apply] at hlater
    exact hlater

theorem namedTypes_extend : (t.extend xs).namedTypes =
    t.namedTypes ++ (xs.flatMap TypeSuffix.types).flatMap namedTypes := by
  induction xs generalizing t with
  | nil => simp [extend]
  | cons x xs ih =>
    have hlater := ih (x.apply t)
    rw [x.namedTypes_apply, List.append_assoc, ← List.flatMap_append] at hlater
    exact hlater

theorem sizeOf_le_extend : sizeOf t ≤ sizeOf (t.extend xs) := by
  induction xs generalizing t with
  | nil => exact Nat.le_refl _
  | cons x xs ih => exact Nat.le_trans (Nat.le_of_lt (x.sizeOf_lt_apply t)) (ih (x.apply t))

theorem sizeOf_lt_extend {xs : List TypeSuffix} {x : TypeSuffix} (hx : x ∈ xs) (hs : s ∈ x.types) :
    sizeOf s < sizeOf (t.extend xs) := by
  induction xs generalizing t with
  | nil => cases hx
  | cons y xs ih =>
    rcases List.mem_cons.mp hx with rfl | hx
    · exact Nat.lt_of_lt_of_le (TypeSuffix.sizeOf_lt_of_mem_types hs t)
        (sizeOf_le_extend (x.apply t) xs)
    · exact ih (y.apply t) hx

/-- A type that stands for itself, without a suffix, and how it is written. -/
inductive IsRoot : TypeRef → RootKind → Prop
  | keyword {assembly fullName keyword : String} (h : primitive? fullName = some keyword) :
    IsRoot (named assembly fullName) .keyword
  | named {assembly fullName : String} (h : primitive? fullName = none) :
    IsRoot (named assembly fullName) .named
  | typeParameter (p : Nat) (n : String) : IsRoot (typeParameter p n) .typeParameter
  | methodParameter (p : Nat) (n : String) : IsRoot (methodParameter p n) .methodParameter

/-- The type is a root with suffixes behind it. -/
def HasRoot (t : TypeRef) : Prop :=
  ∃ (r : TypeRef) (kind : RootKind) (xs : List TypeSuffix), r.IsRoot kind ∧ t = r.extend xs

theorem HasRoot.apply {t : TypeRef} (h : t.HasRoot) (x : TypeSuffix) : (x.apply t).HasRoot := by
  obtain ⟨r, kind, xs, hr, rfl⟩ := h
  exact ⟨r, kind, xs ++ [x], hr, by simp [extend]⟩

theorem hasRoot : (t : TypeRef) → t.HasRoot
  | named assembly fullName => by
    cases h : primitive? fullName with
    | none => exact ⟨_, _, [], .named h, rfl⟩
    | some keyword => exact ⟨_, _, [], .keyword h, rfl⟩
  | typeParameter p n => ⟨_, _, [], .typeParameter p n, rfl⟩
  | methodParameter p n => ⟨_, _, [], .methodParameter p n, rfl⟩
  | pointer t => t.hasRoot.apply .pointer
  | byRef t => t.hasRoot.apply .byRef
  | array t rank => t.hasRoot.apply (.array rank)
  | instantiation t args => t.hasRoot.apply (.arguments args)

end TypeRef

end Suffixes

section Roots

variable {g keyword keyword' : String} {p q : Nat} {kind kind' : RootKind}

theorem mem_primitives (h : primitive? f = some keyword) : (f, keyword) ∈ primitives := by
  obtain ⟨before, after, heq, -⟩ := List.lookup_eq_some_iff.mp h
  simp [heq]

/-- A keyword begins with a letter, so it is neither in brackets nor a generic parameter. -/
theorem exists_lower_of_keyword (h : primitive? f = some keyword) :
    ∃ c w, keyword.toList = c :: w ∧ c.isLower = true := by
  have hlower : ∀ p ∈ primitives, p.2.toList.head?.any Char.isLower = true := by decide +kernel
  have hfirst := hlower _ (mem_primitives h)
  cases hchars : keyword.toList with
  | nil => simp [hchars] at hfirst
  | cons c w => exact ⟨c, w, rfl, by simpa [hchars] using hfirst⟩

/-- No keyword is the beginning of another one. -/
theorem eq_of_keyword_append_eq (hf : primitive? f = some keyword)
    (hg : primitive? g = some keyword') (h : keyword.toList ++ u = keyword'.toList ++ v) :
    f = g ∧ u = v := by
  have hfree : ∀ p ∈ primitives, ∀ q ∈ primitives, p.2.toList <+: q.2.toList → p = q := by
    decide +kernel
  have hpair : (f, keyword) = (g, keyword') := by
    rcases List.prefix_or_prefix_of_prefix (List.prefix_append keyword.toList u)
      (h ▸ List.prefix_append keyword'.toList v) with hle | hle
    · exact hfree _ (mem_primitives hf) _ (mem_primitives hg) hle
    · exact (hfree _ (mem_primitives hg) _ (mem_primitives hf) hle).symm
  cases hpair
  exact ⟨rfl, List.append_cancel_left h⟩

namespace TypeRef

theorem text_keyword (h : primitive? f = some keyword) : (named a f).text = keyword := by
  simp only [text, textIn, h]

theorem toList_text_named (h : primitive? f = none) :
    (named a f).text.toList = '[' :: (a.toList ++ ']' :: f.toList) := by
  simp [text, textIn, h]

theorem toList_text_typeParameter (p : Nat) (n : String) :
    (typeParameter p n).text.toList = '!' :: (Nat.repr p).toList := by
  simp [text, textIn, ParameterStyle.text]

theorem toList_text_methodParameter (p : Nat) (n : String) :
    (methodParameter p n).text.toList = '!' :: '!' :: (Nat.repr p).toList := by
  simp [text, textIn, ParameterStyle.text]

end TypeRef

/-- How the type is written that a text begins with; all but keywords have a mark in front. -/
def RootKind.ofText : List Char → RootKind
  | '[' :: _ => .named
  | '!' :: '!' :: _ => .methodParameter
  | '!' :: _ => .typeParameter
  | _ => .keyword

theorem RootKind.ofText_of_ne (hbracket : c ≠ '[') (hmark : c ≠ '!') :
    ofText (c :: u) = .keyword := by
  simp [ofText, hbracket, hmark]

theorem RootKind.ofText_of_parameter (h : c ≠ '!') : ofText ('!' :: c :: u) = .typeParameter := by
  simp [ofText, h]

theorem TypeRef.IsRoot.ofText_append (h : t.IsRoot kind) (u : List Char) :
    RootKind.ofText (t.text.toList ++ u) = kind := by
  cases h with
  | keyword hf =>
    obtain ⟨c, w, hchars, hlower⟩ := exists_lower_of_keyword hf
    rw [text_keyword hf, hchars, List.cons_append]
    apply RootKind.ofText_of_ne
    · rintro rfl
      exact absurd hlower (by decide)
    · rintro rfl
      exact absurd hlower (by decide)
  | named hf =>
    rw [toList_text_named hf]
    rfl
  | typeParameter p n =>
    cases hchars : (Nat.repr p).toList with
    | nil => simp [Nat.toDigits_ne_nil] at hchars
    | cons d w =>
      have hdigit : d.isDigit = true := Text.isDigit_of_mem_repr (n := p) (by simp [hchars])
      rw [toList_text_typeParameter, hchars]
      apply RootKind.ofText_of_parameter
      rintro rfl
      exact absurd hdigit (by decide)
  | methodParameter p n =>
    rw [toList_text_methodParameter]
    rfl

theorem TypeRef.exists_keyword (t : TypeRef) (hbracket : c ≠ '[') (hmark : c ≠ '!')
    (h : t.text.toList ++ u = c :: v) :
    ∃ f keyword w, primitive? f = some keyword ∧ keyword.toList ++ w = c :: v := by
  obtain ⟨r, kind, xs, hr, rfl⟩ := t.hasRoot
  rw [toList_text_extend, List.append_assoc] at h
  obtain rfl : kind = .keyword := by
    rw [← hr.ofText_append, h, RootKind.ofText_of_ne hbracket hmark]
  cases hr with
  | keyword hf =>
    rw [text_keyword hf] at h
    exact ⟨_, _, _, hf, h⟩

/-- Marks that end a name: those of types are among them, and no digit. -/
structure EndNames (marks : List Char) : Prop where
  of_typeMarks : ∀ c ∈ typeMarks, c ∈ marks
  not_digit : ∀ c ∈ marks, c.isDigit = false

theorem endNames_typeMarks : EndNames typeMarks :=
  ⟨fun _ hc => hc, by simp [typeMarks, Char.isDigit]⟩

/-- Text that is empty or begins with a mark. -/
def StartsWithMark (marks u : List Char) : Prop := ∀ c ∈ u.head?, c ∈ marks

theorem eq_of_repr_append_eq (hmarks : EndNames marks) (hu : StartsWithMark marks u)
    (hv : StartsWithMark marks v) (h : (Nat.repr p).toList ++ u = (Nat.repr q).toList ++ v) :
    p = q ∧ u = v := by
  obtain ⟨hdigits, hrest⟩ := Text.eq_of_append_eq (p := Char.isDigit)
    (fun _ => Text.isDigit_of_mem_repr) (fun _ => Text.isDigit_of_mem_repr)
    (fun c hc => hmarks.not_digit c (hu c hc)) (fun c hc => hmarks.not_digit c (hv c hc)) h
  exact ⟨Nat.repr_injective (String.toList_inj.mp hdigits), hrest⟩

theorem eq_of_name_append_eq (hf : ∀ c ∈ marks, c ∉ f.toList) (hg : ∀ c ∈ marks, c ∉ g.toList)
    (hu : StartsWithMark marks u) (hv : StartsWithMark marks v)
    (h : f.toList ++ u = g.toList ++ v) : f = g ∧ u = v := by
  obtain ⟨hname, hrest⟩ := Text.eq_of_append_eq (p := fun c => decide (c ∉ marks))
    (fun c hc => by simpa using fun hmark => hf c hmark hc)
    (fun c hc => by simpa using fun hmark => hg c hmark hc)
    (fun c hc => by simpa using hu c hc) (fun c hc => by simpa using hv c hc) h
  exact ⟨String.toList_inj.mp hname, hrest⟩

/-- A root ends where the first mark behind it stands. -/
theorem TypeRef.IsRoot.eq_of_append_eq (hmarks : EndNames marks) (hs : s.IsRoot kind)
    (ht : t.IsRoot kind') (hsnames : s.NamesAvoid marks) (htnames : t.NamesAvoid marks)
    (hu : StartsWithMark marks u) (hv : StartsWithMark marks v)
    (h : s.text.toList ++ u = t.text.toList ++ v) : s.shown = t.shown ∧ u = v := by
  -- both are written in the same way, so four cases are left
  obtain rfl : kind = kind' := by rw [← hs.ofText_append u, h, ht.ofText_append]
  cases hs with
  | keyword hf =>
    cases ht with
    | keyword hg =>
      rw [text_keyword hf, text_keyword hg] at h
      obtain ⟨rfl, hrest⟩ := eq_of_keyword_append_eq hf hg h
      exact ⟨by simp [shown, hf], hrest⟩
  | @named a f hf =>
    cases ht with
    | @named b g hg =>
      obtain ⟨ha, hfmarks⟩ := hsnames (a, f) (by simp [namedTypes]) hf
      obtain ⟨hb, hgmarks⟩ := htnames (b, g) (by simp [namedTypes]) hg
      rw [toList_text_named hf, toList_text_named hg] at h
      have hparts : a.toList ++ ']' :: (f.toList ++ u) = b.toList ++ ']' :: (g.toList ++ v) := by
        simpa using h
      obtain ⟨hassembly, hname⟩ := Text.eq_of_append_cons_eq ha hb hparts
      obtain ⟨hfull, hrest⟩ := eq_of_name_append_eq hfmarks hgmarks hu hv hname
      have hpair : TypeRef.named a f = TypeRef.named b g :=
        congrArg₂ TypeRef.named (String.toList_inj.mp hassembly) hfull
      exact ⟨congrArg shown hpair, hrest⟩
  | typeParameter p n =>
    cases ht with
    | typeParameter q n' =>
      rw [toList_text_typeParameter, toList_text_typeParameter] at h
      obtain ⟨rfl, hrest⟩ := eq_of_repr_append_eq hmarks hu hv (List.cons.inj h).2
      exact ⟨rfl, hrest⟩
  | methodParameter p n =>
    cases ht with
    | methodParameter q n' =>
      rw [toList_text_methodParameter, toList_text_methodParameter] at h
      obtain ⟨rfl, hrest⟩ :=
        eq_of_repr_append_eq hmarks hu hv (List.cons.inj (List.cons.inj h).2).2
      exact ⟨rfl, hrest⟩

end Roots

section Reading

/-- Text that does not go on with the type in front of it. -/
def EndsType (marks u : List Char) : Prop := ∀ c ∈ u.head?, c ∈ marks ∧ c ∉ TypeSuffix.openers

/-- What a type shows can be read off any text that begins with it, and so can its end. -/
def TypeRef.Readable (marks : List Char) (s : TypeRef) : Prop :=
  ∀ ⦃t : TypeRef⦄ ⦃u v : List Char⦄, t.NamesAvoid marks → EndsType marks u → EndsType marks v →
    s.text.toList ++ u = t.text.toList ++ v → s.shown = t.shown ∧ u = v

/-- The marks that end a list of types. -/
def closers : List Char := ['>', ')']

/-- The types behind the first one of a list, each with its separator. -/
def laterTypes (ts : List TypeRef) : List Char := ts.flatMap fun t => ',' :: ' ' :: t.text.toList

theorem TypeRef.toList_listText_cons (s : TypeRef) (ss : List TypeRef) :
    (listText (s :: ss)).toList = s.text.toList ++ laterTypes ss := by
  induction ss generalizing s with
  | nil => simp [listText, Text.commaSeparated, laterTypes]
  | cons t ss ih =>
    have htail := ih t
    simp only [listText, Text.commaSeparated, String.toList_intercalate, List.map_cons] at htail ⊢
    rw [List.intercalate_cons_cons, htail]
    simp [laterTypes]

theorem endsType_laterTypes (hmarks : EndNames marks) (hclose : close ∈ closers)
    (hmem : close ∈ marks) (ts : List TypeRef) (w : List Char) :
    EndsType marks (laterTypes ts ++ close :: w) := by
  intro c hc
  cases ts with
  | nil =>
    have hapart : ∀ c ∈ closers, c ∉ TypeSuffix.openers := by simp [closers, TypeSuffix.openers]
    obtain rfl : close = c := by simpa [laterTypes] using hc
    exact ⟨hmem, hapart close hclose⟩
  | cons t ts =>
    obtain rfl : ',' = c := by simpa [laterTypes] using hc
    exact ⟨hmarks.of_typeMarks ',' (by decide), by decide⟩

theorem eq_of_laterTypes_append_eq (hmarks : EndNames marks) (hclose : close ∈ closers)
    (hmem : close ∈ marks) (hss : ∀ s ∈ ss, s.Readable marks) (hts : ∀ t ∈ ts, t.NamesAvoid marks)
    (h : laterTypes ss ++ close :: u = laterTypes ts ++ close :: v) :
    ss.map TypeRef.shown = ts.map TypeRef.shown ∧ u = v := by
  have hne : close ≠ ',' := by
    rintro rfl
    exact absurd hclose (by decide)
  induction ss generalizing ts with
  | nil =>
    cases ts with
    | nil => exact ⟨rfl, (List.cons.inj h).2⟩
    | cons t ts => simp [laterTypes, hne] at h
  | cons s ss ih =>
    cases ts with
    | nil => simp [laterTypes, Ne.symm hne] at h
    | cons t ts =>
      have hparts : s.text.toList ++ (laterTypes ss ++ close :: u) =
          t.text.toList ++ (laterTypes ts ++ close :: v) := by
        simpa [laterTypes] using h
      obtain ⟨hfirst, hrest⟩ := hss s List.mem_cons_self (hts t List.mem_cons_self)
        (endsType_laterTypes hmarks hclose hmem ss u)
        (endsType_laterTypes hmarks hclose hmem ts v) hparts
      obtain ⟨hlater, huv⟩ := ih (fun s' hs' => hss s' (List.mem_cons_of_mem s hs'))
        (fun t' ht' => hts t' (List.mem_cons_of_mem t ht')) hrest
      exact ⟨by rw [List.map_cons, List.map_cons, hfirst, hlater], huv⟩

theorem TypeRef.text_append_ne_close (hclose : close ∈ closers) (t : TypeRef) :
    t.text.toList ++ u ≠ close :: v := by
  intro h
  have hapart : ∀ c ∈ closers, c ≠ '[' ∧ c ≠ '!' ∧ c.isLower = false := by
    simp [closers, Char.isLower]
  obtain ⟨hbracket, hmark, hnotLower⟩ := hapart close hclose
  obtain ⟨f, keyword, w, hf, hkeyword⟩ := t.exists_keyword hbracket hmark h
  obtain ⟨c, w', hchars, hlower⟩ := exists_lower_of_keyword hf
  rw [hchars, List.cons_append] at hkeyword
  obtain ⟨rfl, -⟩ := List.cons.inj hkeyword
  simp [hnotLower] at hlower

/-- A list of types ends at the mark that closes it. -/
theorem eq_of_listText_append_eq (hmarks : EndNames marks) (hclose : close ∈ closers)
    (hmem : close ∈ marks) (hss : ∀ s ∈ ss, s.Readable marks) (hts : ∀ t ∈ ts, t.NamesAvoid marks)
    (h : (TypeRef.listText ss).toList ++ close :: u = (TypeRef.listText ts).toList ++ close :: v) :
    ss.map TypeRef.shown = ts.map TypeRef.shown ∧ u = v := by
  cases ss with
  | nil =>
    cases ts with
    | nil => exact ⟨rfl, (List.cons.inj (List.append_cancel_left h)).2⟩
    | cons t ts =>
      rw [TypeRef.toList_listText_cons, List.append_assoc] at h
      exact absurd h.symm (t.text_append_ne_close hclose)
  | cons s ss =>
    rw [TypeRef.toList_listText_cons, List.append_assoc] at h
    cases ts with
    | nil => exact absurd h (s.text_append_ne_close hclose)
    | cons t ts =>
      rw [TypeRef.toList_listText_cons, List.append_assoc] at h
      obtain ⟨hfirst, hrest⟩ := hss s List.mem_cons_self (hts t List.mem_cons_self)
        (endsType_laterTypes hmarks hclose hmem ss u)
        (endsType_laterTypes hmarks hclose hmem ts v) h
      obtain ⟨hlater, huv⟩ := eq_of_laterTypes_append_eq hmarks hclose hmem
        (fun s' hs' => hss s' (List.mem_cons_of_mem s hs'))
        (fun t' ht' => hts t' (List.mem_cons_of_mem t ht')) hrest
      exact ⟨by rw [List.map_cons, List.map_cons, hfirst, hlater], huv⟩

/-- A suffix ends with its own last mark, whatever follows. -/
theorem TypeSuffix.eq_of_append_eq {x y : TypeSuffix} (hmarks : EndNames marks)
    (hx : ∀ s ∈ x.types, s.Readable marks) (hy : ∀ t ∈ y.types, t.NamesAvoid marks)
    (h : x.chars ++ u = y.chars ++ v) : x.shown = y.shown ∧ u = v := by
  cases x with
  | pointer =>
    cases y with
    | pointer => exact ⟨rfl, List.append_cancel_left h⟩
    | _ => simp [chars] at h
  | byRef =>
    cases y with
    | byRef => exact ⟨rfl, List.append_cancel_left h⟩
    | _ => simp [chars] at h
  | array rank =>
    cases y with
    | array rank' =>
      have hcommas : List.replicate (rank - 1) ',' ++ ']' :: u =
          List.replicate (rank' - 1) ',' ++ ']' :: v := by
        simpa [chars] using h
      obtain ⟨hcount, hrest⟩ := Text.eq_of_append_cons_eq (by simp) (by simp) hcommas
      have hrank : rank - 1 = rank' - 1 := by simpa using congrArg List.length hcount
      have hmax : max rank 1 = max rank' 1 := by omega
      exact ⟨congrArg TypeSuffix.array hmax, hrest⟩
    | _ => simp [chars] at h
  | arguments args =>
    cases y with
    | arguments args' =>
      have hlists : (TypeRef.listText args).toList ++ '>' :: u =
          (TypeRef.listText args').toList ++ '>' :: v := by
        simpa [chars] using h
      obtain ⟨hargs, hrest⟩ := eq_of_listText_append_eq hmarks (by decide)
        (hmarks.of_typeMarks '>' (by decide)) hx hy hlists
      exact ⟨congrArg TypeSuffix.arguments hargs, hrest⟩
    | _ => simp [chars] at h

theorem TypeSuffix.append_ne_of_endsType (hu : EndsType marks u) (x : TypeSuffix) :
    x.chars ++ v ≠ u := by
  rintro rfl
  obtain ⟨c, w, hchars, hopener⟩ := x.exists_opener
  exact (hu c (by simp [hchars])).2 hopener

theorem eq_of_suffixes_append_eq {xs ys : List TypeSuffix} (hmarks : EndNames marks)
    (hxs : ∀ s ∈ xs.flatMap TypeSuffix.types, s.Readable marks)
    (hys : ∀ t ∈ ys.flatMap TypeSuffix.types, t.NamesAvoid marks)
    (hu : EndsType marks u) (hv : EndsType marks v)
    (h : xs.flatMap TypeSuffix.chars ++ u = ys.flatMap TypeSuffix.chars ++ v) :
    xs.map TypeSuffix.shown = ys.map TypeSuffix.shown ∧ u = v := by
  induction xs generalizing ys with
  | nil =>
    cases ys with
    | nil => exact ⟨rfl, h⟩
    | cons y ys =>
      rw [List.flatMap_cons, List.append_assoc] at h
      exact absurd h.symm (y.append_ne_of_endsType hu)
  | cons x xs ih =>
    rw [List.flatMap_cons, List.append_assoc] at h
    cases ys with
    | nil => exact absurd h (x.append_ne_of_endsType hv)
    | cons y ys =>
      rw [List.flatMap_cons, List.append_assoc] at h
      rw [List.flatMap_cons, List.forall_mem_append] at hxs hys
      obtain ⟨hfirst, hrest⟩ := TypeSuffix.eq_of_append_eq hmarks hxs.1 hys.1 h
      obtain ⟨hlater, huv⟩ := ih hxs.2 hys.2 hrest
      exact ⟨by rw [List.map_cons, List.map_cons, hfirst, hlater], huv⟩

theorem startsWithMark_suffixes (hmarks : EndNames marks) (hu : EndsType marks u)
    (xs : List TypeSuffix) : StartsWithMark marks (xs.flatMap TypeSuffix.chars ++ u) := by
  intro c hc
  cases xs with
  | nil => exact (hu c hc).1
  | cons x xs =>
    have hsub : ∀ c ∈ TypeSuffix.openers, c ∈ typeMarks := by simp [TypeSuffix.openers, typeMarks]
    obtain ⟨d, w, hchars, hopener⟩ := x.exists_opener
    obtain rfl : d = c := by simpa [hchars] using hc
    exact hmarks.of_typeMarks d (hsub d hopener)

namespace TypeRef

theorem namesAvoid_extend (t : TypeRef) (xs : List TypeSuffix) : (t.extend xs).NamesAvoid marks ↔
    t.NamesAvoid marks ∧ ∀ s ∈ xs.flatMap TypeSuffix.types, s.NamesAvoid marks := by
  simp only [NamesAvoid, namedTypes_extend, List.forall_mem_append, List.mem_flatMap]
  constructor
  · rintro ⟨hroot, hargs⟩
    exact ⟨hroot, fun s hs p hp => hargs p ⟨s, hs, hp⟩⟩
  · rintro ⟨hroot, hargs⟩
    refine ⟨hroot, ?_⟩
    rintro p ⟨s, hs, hp⟩
    exact hargs s hs p hp

theorem readable (hmarks : EndNames marks) (s : TypeRef) (hs : s.NamesAvoid marks) :
    s.Readable marks := by
  -- by recursion on the size: the types in the suffixes are smaller than the whole
  intro t u v ht hu hv h
  obtain ⟨r, kind, xs, hr, hsplit⟩ := s.hasRoot
  obtain ⟨r', kind', ys, hr', rfl⟩ := t.hasRoot
  have hargs : ∀ a ∈ xs.flatMap TypeSuffix.types, a.Readable marks := by
    intro a ha
    obtain ⟨x, hx, hax⟩ := List.mem_flatMap.mp ha
    have hlt : sizeOf a < sizeOf s := hsplit ▸ sizeOf_lt_extend r hx hax
    exact readable hmarks a (((namesAvoid_extend r xs).mp (hsplit ▸ hs)).2 a ha)
  subst hsplit
  obtain ⟨hrnames, -⟩ := (namesAvoid_extend r xs).mp hs
  obtain ⟨hrnames', hargs'⟩ := (namesAvoid_extend r' ys).mp ht
  rw [toList_text_extend, toList_text_extend, List.append_assoc, List.append_assoc] at h
  obtain ⟨hroot, hrest⟩ := hr.eq_of_append_eq hmarks hr' hrnames hrnames'
    (startsWithMark_suffixes hmarks hu xs) (startsWithMark_suffixes hmarks hv ys) h
  obtain ⟨hsuffixes, huv⟩ := eq_of_suffixes_append_eq hmarks hargs hargs' hu hv hrest
  exact ⟨by rw [shown_extend, shown_extend, hroot, hsuffixes], huv⟩
termination_by sizeOf s

/-- Two types have one text just where they differ in nothing but what the text does not show. -/
theorem text_eq_iff_shown_eq (hs : s.NamesAvoid typeMarks) (ht : t.NamesAvoid typeMarks) :
    s.text = t.text ↔ s.shown = t.shown := by
  refine ⟨?_, text_eq_of_shown_eq⟩
  intro h
  have hend : EndsType typeMarks [] := by simp [EndsType]
  exact (readable endNames_typeMarks s hs ht hend hend (by rw [h])).1

/-- A generic type with three arguments, as two modules may write it. -/
def sampleMap (assembly name : String) (rank : Nat) (value : TypeRef) : TypeRef :=
  instantiation (named "Lib" "Map")
    [array (named assembly "System.String") rank, typeParameter 0 name, value]

theorem namesAvoid_sampleMap (assembly name : String) (rank : Nat) (value : TypeRef)
    (h : value.namedTypes = []) : (sampleMap assembly name rank value).NamesAvoid typeMarks := by
  have hkeyword : primitive? "System.String" = some "string" := by decide +kernel
  simp [NamesAvoid, sampleMap, namedTypes, namedTypesOfAll, typeMarks, h, hkeyword]

theorem text_eq_iff_shown_eq_map :
    (sampleMap "mscorlib" "K" 0 (typeParameter 1 "V")).NamesAvoid typeMarks ∧
    (sampleMap "System.Runtime" "Key" 1 (typeParameter 1 "")).NamesAvoid typeMarks ∧
    (sampleMap "mscorlib" "K" 0 (methodParameter 1 "V")).NamesAvoid typeMarks ∧
    (sampleMap "mscorlib" "K" 0 (typeParameter 1 "V")).text =
      (sampleMap "System.Runtime" "Key" 1 (typeParameter 1 "")).text ∧
    (sampleMap "mscorlib" "K" 0 (typeParameter 1 "V")).text ≠
      (sampleMap "mscorlib" "K" 0 (methodParameter 1 "V")).text := by
  have hbase := namesAvoid_sampleMap "mscorlib" "K" 0 (typeParameter 1 "V") rfl
  have hsame := namesAvoid_sampleMap "System.Runtime" "Key" 1 (typeParameter 1 "") rfl
  have hother := namesAvoid_sampleMap "mscorlib" "K" 0 (methodParameter 1 "V") rfl
  refine ⟨hbase, hsame, hother, ?_, ?_⟩
  · exact (text_eq_iff_shown_eq hbase hsame).mpr (by decide +kernel)
  · exact mt (text_eq_iff_shown_eq hbase hother).mp (by decide +kernel)

end TypeRef

end Reading

end Cil
