import CilCompiler.Proofs.Compilation.Passes

/-! What the names of array types stand for. `Symbols.Reachable` are the symbols that a compilation can hold, and
    those of a compilation that succeeds are among them (`compile_reachable`). In all of them `T[]` is the array of
    what `T` stands for, unless the program itself declares a type of that name (`arrays_of_elements`). -/

namespace CilCompiler

/-- A value may be put in a table again, or under a new key, and all that was there is still there. -/
theorem Table.get?_put_of_same {α : Type} {t : Table α} {k k' : Text} {v v' : α} (hk : ∀ x, t.get? k = some x → x = v)
    (h : t.get? k' = some v') : (t.put k v).get? k' = some v' := by
  rw [Table.get?_put]
  split
  · rename_i he
    subst he
    rw [hk v' h]
  · exact h

theorem Text.isEmpty_iff {t : Text} : t.isEmpty = true ↔ t = .empty := by
  rcases t with ⟨bytes⟩
  simp [Text.isEmpty, Text.empty]

namespace Symbols

theorem key_ne_empty {n : Text} (h : n.isEmpty = false) : key n ≠ key .empty := by
  intro hk
  have hempty := Text.isEmpty_composed n
  rw [← key, hk, h] at hempty
  revert hempty
  decide

theorem key_array_ne_empty (n : Text) : key (TypeName.array n) ≠ key .empty := by
  refine key_ne_empty ?_
  by_contra h
  have hempty : TypeName.array n = .empty := Text.isEmpty_iff.mp (by simpa using h)
  have hbytes := congrArg Text.size hempty
  have hsize : (TypeName.array n).size = n.size + 2 := List.length_append
  rw [hsize] at hbytes
  cases hbytes

/-! ### The catalog -/

/-- Types are made for the entries of the catalog in order. -/
theorem typesFrom_names (module : Nat) (assembly : Text) (es : List Host.TypeEntry) (done : List Ty) :
    (Host.typesFrom module assembly done es).map Ty.name = done.map Ty.name ++ es.map Host.TypeEntry.name := by
  induction es generalizing done with
  | nil => simp [Host.typesFrom]
  | cons e es ih =>
    rw [Host.typesFrom, ih, List.map_append, List.append_assoc]
    -- The name does not depend on whether a base is found.
    congr 2
    rw [List.map_cons, List.map_nil]
    split <;> rfl

/-- The types a module starts with have names, and none of these is an array's. -/
theorem host_plain {id : Nat} {backend : Backend} {name runtime : Text} {t : Ty}
    (h : t ∈ (Module.new id backend name runtime).hostTypes) :
    t.name.beforeEnd? TypeName.arrayEnding = none ∧ t.name.isEmpty = false := by
  have plain : ∀ n ∈ Host.catalog.map Host.TypeEntry.name, n.beforeEnd? TypeName.arrayEnding = none ∧
      n.isEmpty = false := by
    decide
  obtain ⟨d, hd, rfl⟩ := List.mem_map.mp h
  have hd := List.mem_of_mem_take hd
  simp only [Module.new, List.mem_map] at hd
  obtain ⟨⟨t, e⟩, hte, rfl⟩ := hd
  have ht := List.mem_map_of_mem (f := Ty.name) (List.of_mem_zip hte).1
  rw [Host.types, typesFrom_names] at ht
  exact plain _ ht

namespace HostAliased
variable {s : Symbols} (h : s.HostAliased)
include h

/-- A key is not another spelling of anything where the catalog has none of this key. -/
theorem get?_eq_none {k : Text} (hk : ∀ a ∈ Host.aliases, key a.1 ≠ k) : s.aliases.get? k = none := by
  cases hget : s.aliases.get? k with
  | none => rfl
  | some v =>
    obtain ⟨e, he, -⟩ := Option.map_eq_some_iff.mp hget
    obtain ⟨a, ha, rfl⟩ := h e (List.mem_of_find?_eq_some he)
    have hkey := List.find?_some he
    simp only [decide_eq_true_eq] at hkey
    exact absurd hkey (hk a ha)

/-- The empty name and the names of arrays are entered under their own keys. -/
theorem entered?_empty : s.entered? .empty = s.types.get? (key .empty) := by
  have named : ∀ a ∈ Host.aliases, a.1.isEmpty = false := by decide
  rw [entered?, h.get?_eq_none fun a ha => key_ne_empty (named a ha)]
  rfl

theorem entered?_array (n : Text) : s.entered? (TypeName.array n) = s.types.get? (key (TypeName.array n)) := by
  have plain : ∀ a ∈ Host.aliases, a.1.beforeEnd? TypeName.arrayEnding = none := by decide
  rw [entered?, h.get?_eq_none fun a ha hk => ?_]
  · rfl
  · obtain ⟨n', hn', -⟩ := TypeName.array_of_key hk
    have hend := Text.beforeEnd?_eq_some.mpr hn'
    rw [plain a ha] at hend
    cases hend

end HostAliased

/-! ### The symbols of compilations -/

/-- Symbols that a compilation can hold: the catalog's, and what declaring and looking up makes of them, in any order. -/
inductive Reachable : Symbols → Prop
  | catalog {id backend name runtime c} :
      Compilation.enterCatalog (Compilation.start (Module.new id backend name runtime)) = .ok c → Reachable c.symbols
  | beginDeclarations {s s'} : Reachable s → s.beginDeclarations = .ok s' → Reachable s'
  | registerType {s s' t} : Reachable s → t.isArray = false → t.name.isEmpty = false →
      s.registerType t = .ok s' → Reachable s'
  | registerField {s s' f} : Reachable s → s.registerField f = .ok s' → Reachable s'
  | registerMethod {s s' m} : Reachable s → s.registerMethod m = .ok s' → Reachable s'
  | registerConstructor {s s' m} : Reachable s → s.registerConstructor m = .ok s' → Reachable s'
  | registerDelegate {s s' d} : Reachable s → s.registerDelegate d = .ok s' → Reachable s'
  | freeze {s s'} : Reachable s → s.freeze = .ok s' → Reachable s'
  | lookup {s s' n t} : Reachable s → s.lookup n = .ok (t, s') → Reachable s'

/-- The name of an array is entered for a type that was declared with it, or for the array of what its element type's
    name is entered for. -/
structure Regular (s : Symbols) : Prop where
  aliased : s.HostAliased
  unnamed : s.types.get? (key .empty) = none
  declared : ∀ d ∈ s.declared, d.isArray = false ∧ s.types.get? (key d.name) = some d
  arrays : ∀ {n : Text} {t : Ty}, s.types.get? (key (TypeName.array n)) = some t →
    (t ∈ s.declared ∧ key t.name = key (TypeName.array n)) ∨ ∃ u, s.entered? n = some u ∧ t = .array u

namespace Regular
variable {s s' : Symbols}

/-- Only the types, the other spellings and the declared types count. -/
theorem of_types (h : s.Regular) (ht : s'.types = s.types) (ha : s'.aliases = s.aliases) (hd : s'.declared = s.declared) :
    s'.Regular := by
  have hentered : ∀ n, s'.entered? n = s.entered? n := fun n => by simp only [entered?, ht, ha]
  refine ⟨?_, ?_, fun d hm => ?_, fun {n t} hn => ?_⟩
  · show ∀ e ∈ s'.aliases.entries, _
    rw [ha]
    exact h.aliased
  · rw [ht]
    exact h.unnamed
  · rw [ht]
    exact h.declared d (hd ▸ hm)
  · rw [ht] at hn
    rw [hentered, hd]
    exact h.arrays hn

/-- A name that stands for a type is not empty. -/
theorem named (h : s.Regular) {n : Text} {t : Ty} {s₁ : Symbols} (hn : s.lookup n = .ok (t, s₁)) : n.isEmpty = false := by
  by_contra hempty
  obtain rfl : n = .empty := Text.isEmpty_iff.mp (by simpa using hempty)
  rcases lookup_cases hn with ⟨he, -⟩ | ⟨-, e, u, s₁, he, -⟩
  · rw [h.aliased.entered?_empty, h.unnamed] at he
    cases he
  · cases he

/-- A type of a new name takes nothing's place. -/
theorem of_registerType (h : s.Regular) {t : Ty} (ht : t.isArray = false) (hname : t.name.isEmpty = false)
    (hs : s.registerType t = .ok s') : s'.Regular := by
  obtain ⟨_, -, hs⟩ := bind_eq_ok.mp hs
  split at hs
  · cases hs
  rename_i hnew
  cases hs
  simp only [hasType, Bool.or_eq_true, not_or, Bool.not_eq_true] at hnew
  have hfree := Table.get?_eq_none_of_has hnew.1
  have kept : ∀ {k : Text} {u : Ty}, s.types.get? k = some u → (s.types.put (key t.name) t).get? k = some u := fun hk =>
    Table.get?_put_of_same (fun x hx => by rw [hfree] at hx; cases hx) hk
  refine ⟨h.aliased, ?_, fun d hd => ?_, fun {n u} hn => ?_⟩
  · show (s.types.put _ _).get? _ = none
    rw [Table.get?_put, if_neg (key_ne_empty hname)]
    exact h.unnamed
  · rcases List.mem_append.mp hd with hd | hd
    · exact ⟨(h.declared d hd).1, kept (h.declared d hd).2⟩
    · rw [List.mem_singleton.mp hd]
      refine ⟨ht, ?_⟩
      show (s.types.put _ _).get? _ = some t
      rw [Table.get?_put, if_pos rfl]
  · have hn : (s.types.put (key t.name) t).get? (key (TypeName.array n)) = some u := hn
    rw [Table.get?_put] at hn
    split at hn
    · rename_i hk
      cases hn
      exact .inl ⟨List.mem_append_right _ (List.mem_singleton_self _), hk⟩
    · rcases h.arrays hn with ⟨hd, hk⟩ | ⟨v, hv, rfl⟩
      · exact .inl ⟨List.mem_append_left _ hd, hk⟩
      · exact .inr ⟨v, kept hv, rfl⟩

/-- Looking up an array's name enters it after its element type. -/
theorem of_lookup (h : s.Regular) {n : Text} {t : Ty} (hl : s.lookup n = .ok (t, s')) : s'.Regular := by
  induction n using elem?_induction generalizing s s' t with
  | h n ih =>
    have hmeaning : s.meaning n = some t := meaning_eq_some.mpr ⟨s', hl⟩
    rcases lookup_cases hl with ⟨-, rfl⟩ | ⟨-, e, u, s₁, he, hu, rfl, rfl⟩
    · exact h
    have h₁ := ih e he h hu
    have hentered := lookup_entered hu
    have hsame := lookup_sameNames h.aliased.plain hu
    obtain ⟨-, rfl⟩ := TypeName.elem?_eq_some.mp he
    rw [(h₁.aliased.plain he).1, Option.getD_none]
    -- The name can have been entered only for the type it stands for.
    have same : ∀ v, s₁.types.get? (key (TypeName.array e)) = some v → v = .array u := by
      intro v hv
      rw [← h₁.aliased.entered?_array] at hv
      have hm := hsame.meaning (TypeName.array e)
      rw [meaning_eq_some.mpr ⟨s₁, lookup_of_entered hv⟩, hmeaning] at hm
      exact Option.some.inj hm
    have kept : ∀ {k : Text} {v : Ty}, s₁.types.get? k = some v →
        (s₁.types.put (key (TypeName.array e)) (.array u)).get? k = some v := Table.get?_put_of_same same
    refine ⟨h₁.aliased, ?_, fun d hd => ⟨(h₁.declared d hd).1, kept (h₁.declared d hd).2⟩, fun {m v} hm => ?_⟩
    · show (s₁.types.put _ _).get? _ = none
      rw [Table.get?_put, if_neg (key_array_ne_empty e)]
      exact h₁.unnamed
    · have hm : (s₁.types.put (key (TypeName.array e)) (.array u)).get? (key (TypeName.array m)) = some v := hm
      rw [Table.get?_put] at hm
      split at hm
      · rename_i hk
        cases hm
        obtain ⟨e', harray, hkey⟩ := TypeName.array_of_key hk
        cases Text.append_right_cancel harray
        rw [entered?_congr hkey] at hentered
        exact .inr ⟨u, kept hentered, rfl⟩
      · rcases h₁.arrays hm with hd | ⟨w, hw, rfl⟩
        · exact .inl hd
        · exact .inr ⟨w, kept hw, rfl⟩

end Regular

/-- Types with members are entered under their own names. -/
theorem enterMembers_types (xs : List TypeMembers) (s : Symbols) :
    (xs.foldl enterMembers s).declared = s.declared ∧
      ∀ {k : Text} {t : Ty}, (xs.foldl enterMembers s).types.get? k = some t →
        s.types.get? k = some t ∨ k = key t.name ∧ t ∈ xs.map TypeMembers.type := by
  induction xs generalizing s with
  | nil => exact ⟨rfl, fun h => .inl h⟩
  | cons x xs ih =>
    obtain ⟨hdeclared, htypes⟩ := ih (s.enterMembers x)
    refine ⟨hdeclared, fun {k t} hk => ?_⟩
    rcases htypes hk with hk | ⟨hk, ht⟩
    · have hk : (s.types.put (key x.type.name) x.type).get? k = some t := hk
      rw [Table.get?_put] at hk
      split at hk
      · rename_i he
        cases hk
        exact .inr ⟨he.symm, List.mem_cons_self⟩
      · exact .inl hk
    · exact .inr ⟨hk, List.mem_cons_of_mem _ ht⟩

theorem registerAliases_kept {s s' : Symbols} {l : List (Text × Text)} (h : Compilation.registerAliases s l = .ok s') :
    s'.types = s.types ∧ s'.declared = s.declared ∧ s'.methods = s.methods := by
  induction l generalizing s with
  | nil =>
    cases h
    exact ⟨rfl, rfl, rfl⟩
  | cons a l ih =>
    obtain ⟨s₁, h1, h2⟩ := bind_eq_ok.mp h
    obtain ⟨_, -, h1⟩ := bind_eq_ok.mp h1
    split at h1
    · cases h1
      have hrest := ih h2
      exact hrest
    · cases h1

theorem Regular.of_catalog {id : Nat} {backend : Backend} {name runtime : Text} {c : Compilation}
    (h : Compilation.enterCatalog (Compilation.start (Module.new id backend name runtime)) = .ok c) :
      c.symbols.Regular := by
  have haliased := (Compilation.enterCatalog_start h).2.2
  obtain ⟨s, h1, h⟩ := bind_eq_ok.mp h
  obtain ⟨s', h2, h⟩ := bind_eq_ok.mp h
  cases h
  obtain ⟨_, -, h1⟩ := bind_eq_ok.mp h1
  obtain rfl := Except.ok.inj h1
  obtain ⟨htypes, hdeclared, -⟩ := registerAliases_kept h2
  have host :=
    enterMembers_types ((Module.new id backend name runtime).hostTypes.map
      (Module.new id backend name runtime).membersOf) {}
  have plain : ∀ {k : Text} {t : Ty}, s'.types.get? k = some t →
      k = key t.name ∧ t.name.beforeEnd? TypeName.arrayEnding = none ∧ t.name.isEmpty = false := by
    intro k t hk
    rw [htypes] at hk
    rcases host.2 hk with hk | ⟨hk, ht⟩
    · cases hk
    · rw [List.map_map] at ht
      obtain ⟨u, hu, rfl⟩ := List.mem_map.mp ht
      exact ⟨hk, host_plain hu⟩
  refine ⟨haliased, ?_, fun d hd => ?_, fun {n t} hn => ?_⟩
  · cases hk : s'.types.get? (key .empty) with
    | none => rfl
    | some t =>
      obtain ⟨hk, -, hne⟩ := plain hk
      exact absurd hk.symm (key_ne_empty hne)
  · have hnone : s'.declared = [] := hdeclared.trans host.1
    have hd : d ∈ s'.declared := hd
    rw [hnone] at hd
    cases hd
  · obtain ⟨hk, hend, -⟩ := plain hn
    obtain ⟨n', hn', -⟩ := TypeName.array_of_key hk.symm
    rw [Text.beforeEnd?_eq_some.mpr hn'] at hend
    cases hend

/-- Whatever a compilation declares and looks up, in whatever order. -/
theorem Reachable.regular {s : Symbols} (h : s.Reachable) : s.Regular := by
  induction h with
  | catalog h => exact .of_catalog h
  | registerType _ ht hname hs ih => exact ih.of_registerType ht hname hs
  | lookup _ hl ih => exact ih.of_lookup hl
  | beginDeclarations _ hs ih | freeze _ hs ih =>
    obtain ⟨_, -, hs⟩ := bind_eq_ok.mp hs
    cases hs
    exact ih.of_types rfl rfl rfl
  | registerField _ hs ih | registerMethod _ hs ih | registerConstructor _ hs ih =>
    obtain ⟨_, -, hs⟩ := bind_eq_ok.mp hs
    dsimp only at hs
    split at hs
    · cases hs
    · cases hs
      exact ih.of_types rfl rfl rfl
  | registerDelegate _ hs ih =>
    obtain ⟨_, -, hs⟩ := bind_eq_ok.mp hs
    split at hs
    · cases hs
    · cases hs
      exact ih.of_types rfl rfl rfl

namespace Regular
variable {s : Symbols} (h : s.Regular) {n : Text}
include h

variable (free : ∀ d ∈ s.declared, key d.name ≠ key (TypeName.array n))
include free

theorem entered_array {v : Ty} (hv : s.entered? (TypeName.array n) = some v) :
    ∃ u, s.entered? n = some u ∧ v = .array u := by
  rw [h.aliased.entered?_array] at hv
  rcases h.arrays hv with ⟨hd, hk⟩ | hu
  · exact absurd hk (free v hd)
  · exact hu

theorem lookup_array {t : Ty} {s₁ : Symbols} (hn : s.lookup n = .ok (t, s₁)) :
    ∃ s₂, s.lookup (TypeName.array n) = .ok (.array t, s₂) := by
  have he : TypeName.elem? (TypeName.array n) = some n := TypeName.elem?_eq_some.mpr ⟨h.named hn, rfl⟩
  cases ha : s.entered? (TypeName.array n) with
  | none => exact lookup_of_elem ha he hn
  | some v =>
    obtain ⟨u, hu, rfl⟩ := h.entered_array free ha
    rw [lookup_of_entered hu] at hn
    cases hn
    exact ⟨s, lookup_of_entered ha⟩

theorem lookup_element {v : Ty} {s₂ : Symbols} (ha : s.lookup (TypeName.array n) = .ok (v, s₂)) :
    ∃ t s₁, s.lookup n = .ok (t, s₁) ∧ v = .array t := by
  rcases lookup_cases ha with ⟨hv, -⟩ | ⟨-, e, u, s₁, he, hu, rfl, -⟩
  · obtain ⟨u, hu, rfl⟩ := h.entered_array free hv
    exact ⟨u, s, lookup_of_entered hu, rfl⟩
  · obtain ⟨-, he⟩ := TypeName.elem?_eq_some.mp he
    cases Text.append_right_cancel he
    exact ⟨u, s₁, hu, rfl⟩

end Regular
end Symbols

/-! ### Compilations -/

theorem Symbols.reachable_invariant : Symbols.Invariant Symbols.Reachable where
  beginDeclarations := .beginDeclarations
  registerType := .registerType
  registerField := .registerField
  registerMethod h _ := .registerMethod h
  registerConstructor := .registerConstructor
  registerDelegate := .registerDelegate
  freeze := .freeze
  lookup := .lookup

/-- The symbols that a compilation leaves are among those described. -/
theorem Compilation.compile_reachable {p : Program} {backend : Backend} {name runtime : Text}
    {isCanceled : Bool} {c : Compilation}
    (h : (compile p backend name runtime isCanceled).Gives c) : c.symbols.Reachable :=
  Symbols.reachable_invariant.compile .catalog h

/-! ### Programs that declare no type under an array's name -/

namespace Compilation.Described
variable {P : Ty → Prop} {p : Program} {c₀ c : Compilation} (h : Described P p c₀ c)
  (free : ∀ s ∈ p.sources, s.name.endsWith TypeName.arrayEnding = false)
include h free

theorem plain {i : Nat} {e : TypeDef} (he : c.module.types[i]? = some e) :
    e.type.name.endsWith TypeName.arrayEnding = false := by
  have catalog : ∀ e ∈ hostModule.types.toList, e.type.name.endsWith TypeName.arrayEnding = false := by decide +kernel
  rcases h.definition he with ⟨-, hhost⟩ | ⟨k, d, -, -, hs, htyped, hm⟩
  · exact catalog e hhost
  · rw [Made.type hm, htyped.name]
    exact free _ hs

/-- The names of arrays are entered for arrays only. -/
theorem entered_array (hr : c.symbols.Regular) {n : Text} {t : Ty} (ht : c.symbols.entered? (TypeName.array n) = some t) :
    t.isArray = true := by
  rw [hr.aliased.entered?_array] at ht
  by_contra harray
  obtain ⟨hk, i, e, he, rfl⟩ := h.coherent.known ht (by simpa using harray)
  obtain ⟨n', hn', -⟩ := TypeName.array_of_key hk.symm
  exact TypeName.array_ne (h.plain free he) hn'.symm

end Compilation.Described

/-! ### Arrays of elements -/

/-- Makes an array of elements of a type. -/
def Lower.arrayOf (t : Ty) (size : Option Ty → Lower Pushed) : Lower Pushed := do
  let int32 := (← read).roles.int32
  let n ← size (some int32)
  if Ty.same n.type (some int32) then
    emit (.type .newarr (some t))
    return { type := some (.array t) }
  else fail (.typing (.sizeNotInt (Ty.shown n.type)))

/-- A type is found for a name and its array for `T[]`, or neither is; making an array of the name follows what is found. -/
def Symbols.ArrayNamed (s : Symbols) (n : Text) : Prop :=
  (∃ t s₁ s₂, s.lookup n = .ok (t, s₁) ∧ s.lookup (TypeName.array n) = .ok (.array t, s₂) ∧
    ∀ (size : Option Ty → Lower Pushed) (c : Scope) (w : Work), w.symbols = s →
      Lower.constructArray n size c w = Lower.arrayOf t size c { w with symbols := s₂ }) ∨
  ∃ f g, s.lookup n = .error f ∧ s.lookup (TypeName.array n) = .error g ∧
    ∀ (size : Option Ty → Lower Pushed) (c : Scope) (w : Work), w.symbols = s → Lower.constructArray n size c w = .error g

namespace Compilation

/-- Whatever has been declared and looked up, `T[]` stands for the array of what `T` stands for where the program
    declares no type of this name; arrays are then made with the type of their elements. -/
theorem arrays_of_elements {s : Symbols} {n : Text} (h : s.Reachable)
    (free : ∀ d ∈ s.declared, Symbols.key d.name ≠ Symbols.key (TypeName.array n)) : s.ArrayNamed n := by
  have hregular := h.regular
  cases hn : s.lookup n with
  | ok r =>
    obtain ⟨t, s₁⟩ := r
    obtain ⟨s₂, ha⟩ := hregular.lookup_array free hn
    refine .inl ⟨t, s₁, s₂, hn, ha, fun size c w hw => ?_⟩
    rw [← hw] at ha
    have hlookup : Lower.lookupType (TypeName.array n) c w = .ok (.array t, { w with symbols := s₂ }) :=
      Lower.lookupType_ok.mpr ⟨s₂, ha, rfl⟩
    exact (Lower.bind_of_ok hlookup :)
  | error f =>
    cases ha : s.lookup (TypeName.array n) with
    | ok r =>
      obtain ⟨v, s₂⟩ := r
      obtain ⟨t, s₁, ht, -⟩ := hregular.lookup_element free ha
      rw [hn] at ht
      cases ht
    | error g =>
      refine .inr ⟨f, g, hn, ha, fun size c w hw => ?_⟩
      have hlookup : Lower.lookupType (TypeName.array n) c w = .error g := by
        rw [Lower.lookupType, hw, ha]
        rfl
      show (Lower.lookupType (TypeName.array n) c w >>= fun r => _) = _
      rw [hlookup]
      rfl

/-- A class of a given name, and one with a field that holds an array. -/
def rowProgram (name : Text) : Program where
  delegates := []
  classes := [{ name, fields := [], ctors := [], methods := [] }, {
    name := "Row"
    fields := [{ name := "cells", type := "int[]", isStatic := false, init := .missing }]
    ctors := []
    methods := [] }]

theorem arrays_of_elements_cell : ∃ c, (compile (rowProgram "Cell") .dynamic "m" "v4" false).Gives c ∧
    (∀ d ∈ c.symbols.declared, Symbols.key d.name ≠ Symbols.key (TypeName.array "int")) ∧ c.symbols.ArrayNamed "int" := by
  obtain ⟨c, hc, hall⟩ := Logged.gives_of_any (x := compile (rowProgram "Cell") .dynamic "m" "v4" false) (j := default)
    (p := fun c => decide (∀ d ∈ c.symbols.declared, Symbols.key d.name ≠ Symbols.key (TypeName.array "int")))
      (by decide +kernel)
  have free := of_decide_eq_true hall
  exact ⟨c, hc, free, arrays_of_elements (compile_reachable hc) free⟩

/-- A class may be called like an array, and then this name stands for the class. -/
theorem arrays_hidden_by_class : ∃ c t u s₁ s₂, (compile (rowProgram "int[]") .dynamic "m" "v4" false).Gives c ∧
    c.symbols.Reachable ∧ c.symbols.lookup "int" = .ok (t, s₁) ∧ c.symbols.lookup "int[]" = .ok (u, s₂) ∧ u ≠ .array t := by
  obtain ⟨c, hc, hall⟩ := Logged.gives_of_any (x := compile (rowProgram "int[]") .dynamic "m" "v4" false) (j := default)
    (p := fun c => decide (∃ t, c.symbols.meaning "int" = some t ∧ ∃ u, c.symbols.meaning "int[]" = some u ∧ u ≠ .array t))
    (by decide +kernel)
  obtain ⟨t, ht, u, hu, hne⟩ := of_decide_eq_true hall
  obtain ⟨s₁, ht⟩ := Symbols.meaning_eq_some.mp ht
  obtain ⟨s₂, hu⟩ := Symbols.meaning_eq_some.mp hu
  exact ⟨c, t, u, s₁, s₂, hc, compile_reachable hc, ht, hu, hne⟩

end Compilation
end CilCompiler
