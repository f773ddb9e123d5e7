import CilCompiler.Proofs.Compilation.Coherent

/-!
The catalog of a dynamic module. Whatever name a new dynamic module has, it holds the same types, and entering
them gives the same symbols; so what is said here of one such module is said of all, and found by evaluation.
-/

namespace CilCompiler

/-- A dynamic module that holds the catalog only. -/
def hostModule : Module := Module.new 0 .dynamic .empty .empty

/-- The roles of the catalog's types. -/
def hostRoles : Roles := Compilation.rolesOf hostModule

/-- The symbols with the catalog entered. -/
def hostSymbols : Symbols :=
  match Compilation.enterCatalog (Compilation.start hostModule) with
  | .ok c => c.symbols
  | .error _ => {}

/-- A compilation with the catalog entered, at the beginning of declarations. -/
def hostCompilation (name : Text) : Compilation :=
  { module := { hostModule with name }, symbols := { hostSymbols with phase := .declare }, roles := hostRoles }

/-- The catalog can be entered, under the names of its types; what is entered for a type are the members it has. -/
theorem hostSymbols_evaluated :
    (Compilation.enterCatalog (Compilation.start hostModule)).isOk = true ∧ hostSymbols.phase = .builtins ∧
    (∀ d ∈ hostModule.types.toList,
      hostSymbols.types.get? (Symbols.key d.type.name) = some d.type ∧ hostSymbols.fieldsOf d.type = d.fields.toList ∧
        hostSymbols.allMethods d.type = d.methods.toList.map Routine.method ∧
        hostSymbols.ctorsOf d.type = d.ctors.toList.map Routine.method) ∧
    (∀ d ∈ hostModule.types.toList, hostSymbols.aliases.get? (Symbols.key d.type.name) = none) ∧
    (∀ e ∈ hostSymbols.types.entries, e.1 = Symbols.key e.2.name ∧ ∃ d ∈ hostModule.types.toList, d.type = e.2) ∧
    (∀ e ∈ hostSymbols.fields.entries, ∃ d ∈ hostModule.types.toList, Symbols.key d.type.name = e.1) ∧
    (∀ e ∈ hostSymbols.methods.entries, ∃ d ∈ hostModule.types.toList, Symbols.key d.type.name = e.1) ∧
    ∀ e ∈ hostSymbols.ctors.entries, ∃ d ∈ hostModule.types.toList, Symbols.key d.type.name = e.1 := by decide +kernel

theorem enterCatalog_new {name runtime : Text} {c : Compilation}
    (h : Compilation.enterCatalog (Compilation.start (Module.new 0 .dynamic name runtime)) = .ok c) :
    ∃ n, c = { module := { hostModule with name := n }, symbols := hostSymbols, roles := hostRoles } := by
  have entered : ∃ s, Compilation.enterCatalog (Compilation.start hostModule) =
      .ok { module := hostModule, symbols := s, roles := hostRoles } := by
    have hok := hostSymbols_evaluated.1
    cases hc : Compilation.enterCatalog (Compilation.start hostModule) with
    | error f =>
      rw [hc] at hok
      cases hok
    | ok c =>
      obtain ⟨s₁, -, hc⟩ := bind_eq_ok.mp hc
      obtain ⟨s₂, -, hc⟩ := bind_eq_ok.mp hc
      cases hc
      exact ⟨s₂, rfl⟩
  obtain ⟨s, hs⟩ := entered
  have hsymbols : hostSymbols = s := by
    unfold hostSymbols
    rw [hs]
  refine ⟨if name.isEmpty then Module.defaultName else name, ?_⟩
  obtain ⟨s₁, h1, h⟩ := bind_eq_ok.mp h
  obtain ⟨s₂, h2, h⟩ := bind_eq_ok.mp h
  cases h
  obtain ⟨s₁', h1', hs⟩ := bind_eq_ok.mp hs
  obtain ⟨s₂', h2', hs⟩ := bind_eq_ok.mp hs
  cases hs
  have h1 : (Compilation.start hostModule).symbols.registerBuiltins
    ((Compilation.start hostModule).module.hostTypes.map (Compilation.start hostModule).module.membersOf) = .ok s₁ := h1
  rw [h1'] at h1
  cases h1
  rw [h2'] at h2
  cases h2
  rw [hsymbols]
  rfl

/-! ### Coherence -/

theorem mem_zipIdx_of_getElem? {α : Type} {xs : Array α} {k : Nat} {x : α} (h : xs[k]? = some x) :
    (x, k) ∈ xs.toList.zipIdx := by
  rw [List.mk_mem_zipIdx_iff_getElem?, Array.getElem?_toList]
  exact h

/-- The definitions of the catalog and their members know where they are; all types that the members mention are of
    the catalog, and only results are void. -/
theorem hostModule_evaluated :
    (∀ x ∈ hostModule.types.toList.zipIdx,
      x.1.type.isArray = false ∧ x.1.type.module = 0 ∧ x.1.type.declared.index = x.2 ∧
        (∀ f ∈ x.1.fields.toList.zipIdx, f.1.owner = x.1.type ∧ f.1.index = f.2 ∧
          f.1.slot = if f.1.isStatic then none else some (Field.instances (x.1.fields.toList.take f.2))) ∧
        x.1.slots = Field.instances x.1.fields.toList ∧
        (∀ y ∈ x.1.ctors.toList.zipIdx,
          y.1.method.owner = x.1.type ∧ y.1.method.isCtor = true ∧ y.1.method.index = y.2 ∧ y.1.method.isStatic = false) ∧
        ∀ y ∈ x.1.methods.toList.zipIdx,
          y.1.method.owner = x.1.type ∧ y.1.method.isCtor = false ∧ y.1.method.index = y.2) ∧
    (∀ d ∈ hostModule.types.toList,
      (∀ f ∈ d.fields.toList, ∃ e ∈ hostModule.types.toList, f.type = some e.type ∧ e.type.isVoid = false) ∧
        (∀ x ∈ d.routines, ∃ e ∈ hostModule.types.toList, x.method.ret = some e.type) ∧
        ∀ x ∈ d.routines, ∀ p ∈ x.method.params, ∃ e ∈ hostModule.types.toList, p = some e.type ∧ e.type.isVoid = false) ∧
    hostModule.type? TypeName.void = some hostRoles.void := by decide +kernel

theorem hostModule_shaped : hostModule.Shaped := by
  intro i d hd
  obtain ⟨h1, h2, h3, h4, h5, h6, h7⟩ := hostModule_evaluated.1 _ (mem_zipIdx_of_getElem? hd)
  exact ⟨h1, h2, h3, fun hf => h4 _ (mem_zipIdx_of_getElem? hf), h5, fun hx => h6 _ (mem_zipIdx_of_getElem? hx),
    fun hx => h7 _ (mem_zipIdx_of_getElem? hx)⟩

theorem Table.mem_of_get? {α : Type} {t : Table α} {k : Text} {v : α} (h : t.get? k = some v) : (k, v) ∈ t.entries := by
  obtain ⟨e, he, rfl⟩ := Option.map_eq_some_iff.mp h
  have hk := List.find?_some he
  simp only [decide_eq_true_eq] at hk
  have hmem := List.mem_of_find?_eq_some he
  rw [← hk]
  exact hmem

theorem mem_of_getD_ne_nil {α : Type} {t : Table (List α)} {k : Text} (h : (t.get? k).getD [] ≠ []) :
    ∃ l, (k, l) ∈ t.entries := by
  cases hk : t.get? k with
  | none =>
    rw [hk] at h
    exact absurd rfl h
  | some l => exact ⟨l, Table.mem_of_get? hk⟩

theorem hostCompilation_coherent (name : Text) : (hostCompilation name).Coherent := by
  have member : ∀ {d : TypeDef}, d ∈ hostModule.types.toList → ∃ i : Nat, hostModule.types[i]? = some d :=
    fun hd => Array.mem_iff_getElem?.mp (Array.mem_toList_iff.mp hd)
  have listed : ∀ {i : Nat} {d : TypeDef}, hostModule.types[i]? = some d → d ∈ hostModule.types.toList := by
    intro i d hd
    exact Array.mem_toList_iff.mpr (Array.mem_of_getElem? hd)
  obtain ⟨-, -, entered, unaliased, known, fields, methods, ctors⟩ := hostSymbols_evaluated
  refine ⟨rfl, hostModule_shaped, hostModule_evaluated.2.2, fun hd => (entered _ (listed hd)).1,
    fun hd => unaliased _ (listed hd), fun {k t} hk _ => ?_, fun hd => ?_, fun {t} ht => ?_⟩
  · obtain ⟨hkey, d, hd, ht⟩ := known _ (Table.mem_of_get? hk)
    obtain ⟨i, hi⟩ := member hd
    exact ⟨hkey, i, d, hi, ht⟩
  · obtain ⟨-, h1, h2, h3⟩ := entered _ (listed hd)
    exact ⟨h1, h2, h3⟩
  · have owner : ∃ d ∈ hostModule.types.toList, Symbols.key d.type.name = Symbols.key t.name := by
      rcases ht with ht | ht | ht
      · obtain ⟨l, hl⟩ := mem_of_getD_ne_nil ht
        exact fields _ hl
      · obtain ⟨l, hl⟩ := mem_of_getD_ne_nil ht
        exact methods _ hl
      · obtain ⟨l, hl⟩ := mem_of_getD_ne_nil ht
        exact ctors _ hl
    obtain ⟨d, hd, hkey⟩ := owner
    obtain ⟨i, hi⟩ := member hd
    exact ⟨i, d, hi, hkey⟩

/-! ### Types of members -/

theorem hostModule_admitted {P : Ty → Prop} (h : ∀ d ∈ hostModule.types.toList, P d.type) {d : TypeDef}
    (hd : d ∈ hostModule.types.toList) : d.Admitted P := by
  obtain ⟨h1, h2, h3⟩ := hostModule_evaluated.2.1 d hd
  refine ⟨h d hd, fun f hf => ?_, fun x hx => ?_, fun x hx p hp => ?_⟩
  · obtain ⟨e, he, ht, hv⟩ := h1 f hf
    exact ⟨e.type, ht, h e he, hv⟩
  · obtain ⟨e, he, ht⟩ := h2 x hx
    exact ⟨e.type, ht, h e he⟩
  · obtain ⟨e, he, ht, hv⟩ := h3 x hx p hp
    exact ⟨e.type, ht, h e he, hv⟩

end CilCompiler
