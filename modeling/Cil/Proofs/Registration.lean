import Mathlib
import Cil.Resolver

/-! What a table of tokens holds after any history of registrations. -/
namespace Cil

/-- The lookup that an entry is found by. -/
def Entry.kind : Entry → LookupKind
  | member _ => .member
  | string _ => .string
  | signature _ => .signature

namespace TokenTable

variable {α : Type} {table : TokenTable} {kind : LookupKind} {t : Token} {e : Entry}

section Contents

/-- What the table holds in each place, which is one of its three maps and a token. -/
def contents (table : TokenTable) : LookupKind × Token → Option Entry
  | (.member, t) => table.members[t]?.map .member
  | (.string, t) => table.strings[t]?.map .string
  | (.signature, t) => table.signatures[t]?.map .signature

theorem contents_empty (place : LookupKind × Token) : empty.contents place = none := by
  obtain ⟨kind, t⟩ := place
  cases kind <;> simp [contents, empty]

/-- An insertion changes one place and no other. -/
theorem contents_insert (table : TokenTable) (t : Token) (e : Entry) :
    (table.insert t e).contents = Function.update table.contents (e.kind, t) (some e) := by
  funext ⟨kind, u⟩
  by_cases hu : t = u
  · subst hu
    cases e <;> cases kind <;> simp [contents, insert, Entry.kind]
  · have hu' : u ≠ t := fun h => hu h.symm
    cases e <;> cases kind <;>
      simp [contents, insert, Entry.kind, Std.HashMap.getElem?_insert, hu, hu']

/-- A lookup gives what is held in its place, or an error that names the token and the lookup. -/
structure Answers (kind : LookupKind) (t : Token) (wrap : α → Entry) (held : Option Entry)
    (answer : Except ResolutionError α) : Prop where
  ok_iff : ∀ a, answer = .ok a ↔ held = some (wrap a)
  error_iff : ∀ e, answer = .error e ↔ e = ⟨t, kind⟩ ∧ held = none

theorem answers_of_found (found : Option α) {wrap : α → Entry} (hwrap : Function.Injective wrap)
    {answer : Except ResolutionError α} (hsome : ∀ a, found = some a → answer = .ok a)
    (hnone : found = none → answer = .error ⟨t, kind⟩) :
    Answers kind t wrap (found.map wrap) answer := by
  cases found with
  | none =>
    rw [hnone rfl]
    constructor <;> simp [eq_comm]
  | some a =>
    rw [hsome a rfl]
    constructor <;> simp [hwrap.eq_iff]

theorem answers_member (table : TokenTable) (t : Token) :
    Answers .member t .member (table.contents (.member, t)) (table.member t) := by
  apply answers_of_found table.members[t]? fun _ _ => Entry.member.inj
  · intro m h
    rw [member, h]
  · intro h
    rw [member, h]

theorem answers_string (table : TokenTable) (t : Token) :
    Answers .string t .string (table.contents (.string, t)) (table.string t) := by
  apply answers_of_found table.strings[t]? fun _ _ => Entry.string.inj
  · intro s h
    rw [string, h]
  · intro h
    rw [string, h]

theorem answers_signature (table : TokenTable) (t : Token) :
    Answers .signature t .signature (table.contents (.signature, t)) (table.signature t) := by
  apply answers_of_found table.signatures[t]? fun _ _ => Entry.signature.inj
  · intro b h
    rw [signature, h]
  · intro h
    rw [signature, h]

theorem Answers.eq {wrap : α → Entry} {held held' : Option Entry} {x y : Except ResolutionError α}
    (hx : Answers kind t wrap held x) (hy : Answers kind t wrap held' y) (h : held = held') :
    x = y := by
  subst h
  cases x with
  | ok a => exact ((hy.ok_iff a).mpr ((hx.ok_iff a).mp rfl)).symm
  | error e => exact ((hy.error_iff e).mpr ((hx.error_iff e).mp rfl)).symm

/-- The lookups see nothing but the contents. -/
theorem resolver_eq_of_contents_eq {table table' : TokenTable}
    (h : table.contents = table'.contents) : table.resolver = table'.resolver := by
  have hmember : table.member = table'.member := by
    funext t
    exact (table.answers_member t).eq (table'.answers_member t) (congrFun h _)
  have hstring : table.string = table'.string := by
    funext t
    exact (table.answers_string t).eq (table'.answers_string t) (congrFun h _)
  have hsignature : table.signature = table'.signature := by
    funext t
    exact (table.answers_signature t).eq (table'.answers_signature t) (congrFun h _)
  rw [resolver, resolver, hmember, hstring, hsignature]

/-- The number of entries in one of the three maps. -/
def count (table : TokenTable) : LookupKind → Nat
  | .member => table.members.size
  | .string => table.strings.size
  | .signature => table.signatures.size

theorem size_eq_count (table : TokenTable) :
    table.size = table.count .member + table.count .string + table.count .signature := rfl

/-- An insertion adds to the count of its map, if it does not replace anything. -/
theorem count_insert (table : TokenTable) (t : Token) (e : Entry) (kind : LookupKind) :
    (table.insert t e).count kind =
      if e.kind = kind ∧ table.contents (kind, t) = none then table.count kind + 1
      else table.count kind := by
  cases e <;> cases kind <;>
    simp [count, insert, contents, Entry.kind, Std.HashMap.size_insert, ite_not]

end Contents

/-- A call that registers something under a token. -/
inductive Call where
  | withMember (token : Token) (m : MemberRef)
  | withType (token : Token) (type : TypeRef)
  | withMethod (token : Token) (method : MethodRef)
  | withField (token : Token) (field : FieldRef)
  | insertMember (token : Token) (m : MemberRef)
  | withString (token : Token) (s : String)
  | withSignature (token : Token) (blob : List UInt8)

namespace Call

def token : Call → Token
  | withMember t _ | withType t _ | withMethod t _ | withField t _ | insertMember t _
  | withString t _ | withSignature t _ => t

/-- What a call registers. -/
def entry : Call → Entry
  | withMember _ m | insertMember _ m => .member m
  | withType _ type => .member (.type type)
  | withMethod _ method => .member (.method method)
  | withField _ field => .member (.field field)
  | withString _ s => .string s
  | withSignature _ blob => .signature blob

/-- Where a call registers it. -/
def place (c : Call) : LookupKind × Token := (c.entry.kind, c.token)

def apply (table : TokenTable) : Call → TokenTable
  | withMember t m => table.withMember t m
  | withType t type => table.withType t type
  | withMethod t method => table.withMethod t method
  | withField t field => table.withField t field
  | insertMember t m => table.insertMember t m
  | withString t s => table.withString t s
  | withSignature t blob => table.withSignature t blob

theorem apply_eq_insert (c : Call) (table : TokenTable) :
    c.apply table = table.insert c.token c.entry := by
  cases c <;> rfl

theorem contents_apply (c : Call) (table : TokenTable) :
    (c.apply table).contents = Function.update table.contents c.place (some c.entry) := by
  rw [apply_eq_insert, contents_insert, place]

end Call

variable {calls : List Call} {c d : Call}

/-- The table after a history of calls. -/
def afterAll (calls : List Call) : TokenTable := calls.foldl Call.apply empty

theorem afterAll_concat (calls : List Call) (c : Call) :
    afterAll (calls ++ [c]) = c.apply (afterAll calls) := by
  rw [afterAll, List.foldl_concat, afterAll]

theorem contents_foldl (table : TokenTable) (calls : List Call) :
    (calls.foldl Call.apply table).contents =
      calls.foldl (fun held (c : Call) => Function.update held c.place (some c.entry))
        table.contents := by
  induction calls generalizing table with
  | nil => rfl
  | cons c calls ih => rw [List.foldl_cons, List.foldl_cons, ih, c.contents_apply]

/-- Calls that register in different places can be exchanged. -/
theorem contents_afterAll_swap (hplace : c.place ≠ d.place) (before after : List Call) :
    (afterAll (before ++ d :: c :: after)).contents =
      (afterAll (before ++ c :: d :: after)).contents := by
  simp only [afterAll, List.foldl_append, List.foldl_cons, contents_foldl _ after,
    Call.contents_apply]
  rw [Function.update_comm hplace.symm]

section LastCall

/-- `e` is what was registered by the last call under `t` that registers in the same map. -/
def LastUnder (calls : List Call) (t : Token) (e : Entry) : Prop :=
  ∃ before c after, calls = before ++ c :: after ∧ c.token = t ∧ c.entry = e ∧
    ∀ d ∈ after, d.place ≠ c.place

theorem lastUnder_concat_iff : LastUnder (calls ++ [c]) t e ↔
    (c.token = t ∧ c.entry = e) ∨ (c.place ≠ (e.kind, t) ∧ LastUnder calls t e) := by
  constructor
  · rintro ⟨before, d, after, hcalls, rfl, rfl, hlater⟩
    rcases List.eq_nil_or_concat after with rfl | ⟨after, c', rfl⟩
    · obtain ⟨-, hlast⟩ := List.append_inj' hcalls rfl
      rw [List.singleton_inj.mp hlast]
      exact Or.inl ⟨rfl, rfl⟩
    · have hcut : calls ++ [c] = (before ++ d :: after) ++ [c'] := by simpa using hcalls
      obtain ⟨rfl, hlast⟩ := List.append_inj' hcut rfl
      rw [List.singleton_inj.mp hlast]
      refine Or.inr ⟨hlater c' (by simp), before, d, after, rfl, rfl, rfl, ?_⟩
      intro d' hd'
      exact hlater d' (by simp [hd'])
  · rintro (⟨ht, he⟩ | ⟨hplace, before, d, after, rfl, rfl, rfl, hlater⟩)
    · exact ⟨calls, c, [], rfl, ht, he, by simp⟩
    · refine ⟨before, d, after ++ [c], by simp, rfl, rfl, ?_⟩
      intro d' hd'
      rcases List.mem_append.mp hd' with hd' | hd'
      · exact hlater d' hd'
      · rw [List.mem_singleton.mp hd']
        exact hplace

theorem contents_afterAll_eq_some_iff :
    (afterAll calls).contents (kind, t) = some e ↔ e.kind = kind ∧ LastUnder calls t e := by
  -- from the end of the history: its last call decides its own place, and leaves the others alone
  induction calls using List.reverseRecOn with
  | nil => simp [afterAll, contents_empty, LastUnder]
  | append_singleton calls c ih =>
    rw [afterAll_concat, c.contents_apply, Function.update_apply, lastUnder_concat_iff]
    split
    next hplace =>
      obtain ⟨rfl, rfl⟩ := Prod.mk.inj hplace
      have hsame : c.place ≠ (e.kind, c.token) ↔ e.kind ≠ c.entry.kind := by
        simp [Call.place, eq_comm]
      rw [hsame, Option.some.injEq]
      constructor
      · rintro rfl
        exact ⟨rfl, Or.inl ⟨rfl, rfl⟩⟩
      · rintro ⟨hkind, ⟨-, he⟩ | ⟨hother, -⟩⟩
        · exact he
        · exact absurd hkind hother
    next hplace =>
      rw [ih]
      refine and_congr_right ?_
      rintro rfl
      have hnot : ¬ (c.token = t ∧ c.entry = e) := by
        rintro ⟨rfl, rfl⟩
        exact hplace rfl
      simp [hnot, Ne.symm hplace]

theorem contents_afterAll_eq_none_iff {place : LookupKind × Token} :
    (afterAll calls).contents place = none ↔ ∀ c ∈ calls, c.place ≠ place := by
  induction calls using List.reverseRecOn with
  | nil => simp [afterAll, contents_empty]
  | append_singleton calls c ih =>
    rw [afterAll_concat, c.contents_apply, Function.update_apply, List.forall_mem_append, ← ih]
    by_cases hplace : place = c.place
    · simp [hplace]
    · simp [hplace, Ne.symm hplace]

/-- A lookup after a history of calls, in terms of the calls. -/
theorem Answers.of_calls {wrap : α → Entry} {answer : Except ResolutionError α}
    (h : Answers kind t wrap ((afterAll calls).contents (kind, t)) answer)
    (hkind : ∀ a, (wrap a).kind = kind) :
    (∀ a, answer = .ok a ↔ LastUnder calls t (wrap a)) ∧
      ∀ e, answer = .error e ↔ e = ⟨t, kind⟩ ∧ ∀ c ∈ calls, c.place ≠ (kind, t) := by
  constructor
  · intro a
    rw [h.ok_iff, contents_afterAll_eq_some_iff, and_iff_right (hkind a)]
  · intro e
    rw [h.error_iff, contents_afterAll_eq_none_iff]

end LastCall

section Counting

/-- The tokens under which something was registered in one of the three maps. -/
def tokens (calls : List Call) (kind : LookupKind) : Finset Token :=
  ((calls.filter fun c => c.entry.kind = kind).map Call.token).toFinset

theorem tokens_concat (calls : List Call) (c : Call) (kind : LookupKind) :
    tokens (calls ++ [c]) kind =
      if c.entry.kind = kind then Insert.insert c.token (tokens calls kind)
      else tokens calls kind := by
  split
  next h => simp [tokens, h]
  next h => simp [tokens, h]

theorem mem_tokens_iff : t ∈ tokens calls kind ↔ ∃ c ∈ calls, c.place = (kind, t) := by
  simp [tokens, Call.place, and_assoc]

theorem contents_eq_none_iff_notMem_tokens :
    (afterAll calls).contents (kind, t) = none ↔ t ∉ tokens calls kind := by
  rw [contents_afterAll_eq_none_iff, mem_tokens_iff]
  simp

theorem count_afterAll (calls : List Call) (kind : LookupKind) :
    (afterAll calls).count kind = (tokens calls kind).card := by
  induction calls using List.reverseRecOn with
  | nil => cases kind <;> rfl
  | append_singleton calls c ih =>
    rw [afterAll_concat, c.apply_eq_insert, count_insert, tokens_concat, ih]
    simp only [contents_eq_none_iff_notMem_tokens]
    by_cases hkind : c.entry.kind = kind
    · by_cases hmem : c.token ∈ tokens calls kind
      · simp [hkind, hmem]
      · simp [hkind, hmem]
    · simp [hkind]

theorem size_afterAll (calls : List Call) :
    (afterAll calls).size = (tokens calls .member).card + (tokens calls .string).card +
      (tokens calls .signature).card := by
  simp only [size_eq_count, count_afterAll]

theorem tokens_perm {calls calls' : List Call} (h : calls.Perm calls') (kind : LookupKind) :
    tokens calls kind = tokens calls' kind := by
  ext t
  simp only [mem_tokens_iff, h.mem_iff]

theorem card_tokens_le_size (calls : List Call) (kind : LookupKind) :
    (tokens calls kind).card ≤ (afterAll calls).size := by
  rw [size_afterAll]
  cases kind <;> omega

theorem isEmpty_afterAll_iff : (afterAll calls).isEmpty = true ↔ calls = [] := by
  rw [isEmpty, beq_iff_eq]
  constructor
  · intro hsize
    rw [List.eq_nil_iff_forall_not_mem]
    intro c hc
    have hle := card_tokens_le_size calls c.entry.kind
    have hmem : c.token ∈ tokens calls c.entry.kind := mem_tokens_iff.mpr ⟨c, hc, rfl⟩
    have hpos := Finset.card_pos.mpr ⟨c.token, hmem⟩
    omega
  · rintro rfl
    rfl

end Counting

/-- After any history of calls, each lookup gives what the last call for its token and its own map
registered, and fails, in the name of that token and map, exactly if there was no such call. The
size counts the tokens that were registered in each map, once each, so the table is empty only if
no call was made. Exchanging neighbouring calls that differ in token or in map is never noticed. -/
theorem afterAll_keeps_last (calls : List Call) :
    let table := afterAll calls
    (∀ t,
      ((∀ m, table.member t = .ok m ↔ LastUnder calls t (.member m)) ∧
        ∀ e, table.member t = .error e ↔
          e = ⟨t, .member⟩ ∧ ∀ c ∈ calls, c.place ≠ (.member, t)) ∧
      ((∀ s, table.string t = .ok s ↔ LastUnder calls t (.string s)) ∧
        ∀ e, table.string t = .error e ↔
          e = ⟨t, .string⟩ ∧ ∀ c ∈ calls, c.place ≠ (.string, t)) ∧
      ((∀ b, table.signature t = .ok b ↔ LastUnder calls t (.signature b)) ∧
        ∀ e, table.signature t = .error e ↔
          e = ⟨t, .signature⟩ ∧ ∀ c ∈ calls, c.place ≠ (.signature, t))) ∧
    table.size = (tokens calls .member).card + (tokens calls .string).card +
      (tokens calls .signature).card ∧
    (table.isEmpty = true ↔ calls = []) ∧
    ∀ before c d after, calls = before ++ c :: d :: after →
      c.token ≠ d.token ∨ c.entry.kind ≠ d.entry.kind →
        let swapped := afterAll (before ++ d :: c :: after)
        swapped.resolver = table.resolver ∧ swapped.size = table.size := by
  intro table
  refine ⟨?_, size_afterAll calls, isEmpty_afterAll_iff, ?_⟩
  · intro t
    exact ⟨(table.answers_member t).of_calls fun _ => rfl,
      (table.answers_string t).of_calls fun _ => rfl,
      (table.answers_signature t).of_calls fun _ => rfl⟩
  · rintro before c d after rfl hdiffer swapped
    have hplace : c.place ≠ d.place := by
      intro h
      obtain ⟨hkind, htoken⟩ := Prod.mk.inj h
      rcases hdiffer with hdiffer | hdiffer
      · exact hdiffer htoken
      · exact hdiffer hkind
    refine ⟨resolver_eq_of_contents_eq (contents_afterAll_swap hplace before after), ?_⟩
    have hperm : (before ++ d :: c :: after).Perm (before ++ c :: d :: after) :=
      (List.Perm.swap c d after).append_left before
    simp only [swapped, table, size_afterAll, tokens_perm hperm]

/-- One token in all three maps, with a type that another one replaces, and a second token. -/
def busyHistory : List Call :=
  [.withType ⟨0x01000001⟩ (.system "System.Int32"), .withString ⟨0x01000001⟩ "one",
    .insertMember ⟨0x01000001⟩ (.type (.system "System.Int64")), .withSignature ⟨0x01000001⟩ [0],
    .withString ⟨0x70000001⟩ "two"]

theorem afterAll_keeps_last_busy :
    let table := afterAll busyHistory
    table.member ⟨0x01000001⟩ = .ok (.type (.system "System.Int64")) ∧
      table.string ⟨0x01000001⟩ = .ok "one" ∧
      table.member ⟨0x70000001⟩ = .error ⟨⟨0x70000001⟩, .member⟩ ∧
      table.size = 4 ∧ ¬ table.isEmpty = true ∧
      (afterAll
        [.withString ⟨0x01000001⟩ "one", .withType ⟨0x01000001⟩ (.system "System.Int32"),
          .insertMember ⟨0x01000001⟩ (.type (.system "System.Int64")),
          .withSignature ⟨0x01000001⟩ [0], .withString ⟨0x70000001⟩ "two"]).resolver =
        table.resolver := by
  intro table
  obtain ⟨hlookup, hsize, hempty, hswap⟩ := afterAll_keeps_last busyHistory
  obtain ⟨⟨hmember, -⟩, ⟨hstring, -⟩, -⟩ := hlookup ⟨0x01000001⟩
  obtain ⟨⟨-, hnone⟩, -⟩ := hlookup ⟨0x70000001⟩
  refine ⟨(hmember _).mpr ?_, (hstring _).mpr ?_, (hnone _).mpr ⟨rfl, by decide⟩,
    hsize.trans (by decide), mt hempty.mp (by decide), (hswap [] _ _ _ rfl (by decide)).1⟩
  · exact ⟨busyHistory.take 2, _, busyHistory.drop 3, rfl, rfl, rfl, by decide⟩
  · exact ⟨busyHistory.take 1, _, busyHistory.drop 2, rfl, rfl, rfl, by decide⟩

end TokenTable

end Cil
