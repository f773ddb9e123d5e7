import CilCompiler.Proofs.Compilation.Legible
import CilCompiler.Proofs.Transparency
import CilCompiler.Proofs.Typed.Running

/-! Machines of compiled programs. A machine that runs the module of a compiled program, looked at with the types that
    the program can name and the members that the symbols know, is sound (`Stages.platform_sound`), and plain where no
    declared type has the name of an array: the members of the catalog are called as they suit, those of classes have
    typed bodies, and the runtime calls delegates. -/

namespace CilCompiler

/-! ### The catalog -/

/-- What the types of the catalog are: value types hold numbers or pointers, and none has the name of an array or a
    field of an instance. -/
theorem catalog_types : ∀ e ∈ hostModule.types.toList,
    (e.type.isValue = true → e.type.isVoid = false →
      (e.type.name = TypeName.int32 ∨ e.type.name = TypeName.boolean) ∨ e.type.name = TypeName.intPtr) ∧
    (e.type.isValue = false → TypeName.isReference e.type.name = true ∨ e.type.name = TypeName.string) ∧
    e.type.name.endsWith TypeName.arrayEnding = false ∧
    (∀ f ∈ e.fields.toList, f.isStatic = true ∧ f.type.map Ty.name = some TypeName.string ∧ Heap.initial f = .str .empty) ∧
    (∀ u ∈ Ty.lineage hostRoles.object e.type, ∃ d ∈ hostModule.types.toList, d.type = u) := by
  decide +kernel

/-- What the members of the catalog are: all methods are implemented, constructors are those of objects and builders,
    virtual methods of a name have one result, and none is called as delegates are. -/
theorem catalog_members : ∀ e ∈ hostModule.types.toList,
    (∀ y ∈ e.methods.toList, y.native.any (·.suits y.method) = true ∧ y.method.name ≠ Method.invokeName) ∧
    (∀ y ∈ e.ctors.toList, TypeName.isReference e.type.name = true ∧ y.impl ≠ .runtime ∧
      (e.type.name = TypeName.stringBuilder ∧ y.native = some .constructBuilder ∨
        e.type.name ≠ TypeName.stringBuilder ∧ y.native.any (·.suits y.method) = true)) ∧
    ∀ y ∈ e.methods.toList, y.method.isVirtual = true → y.method.isStatic = false ∧
      ∀ d ∈ hostModule.types.toList, ∀ x ∈ d.methods.toList, x.method.isVirtual = true → x.method.name = y.method.name →
        Ty.same x.method.ret y.method.ret = true := by
  decide +kernel

/-- Methods are inherited from the root of all types only. -/
theorem catalog_inherited : ∀ d ∈ hostModule.types.toList, (d.type = hostRoles.multicastDelegate → d.methods = #[]) ∧
    ∀ e ∈ hostModule.types.toList, d.type ∈ Ty.lineage hostRoles.object e.type →
      d.type = e.type ∨ d.type.name = TypeName.object ∨ d.methods = #[] := by
  decide +kernel

theorem catalog_roles :
    (∃ e ∈ hostModule.types.toList, e.type = hostRoles.object ∧ e.type.name = TypeName.object ∧
      hostModule.type? TypeName.object = some e.type) ∧
    (∃ e ∈ hostModule.types.toList, e.type.name = TypeName.string ∧ hostModule.type? TypeName.string = some e.type) ∧
    ∃ e ∈ hostModule.types.toList, e.type = hostRoles.multicastDelegate := by
  decide +kernel

/-- Names that types of the catalog have. -/
theorem catalog_names :
    ∀ n ∈ [TypeName.int32, TypeName.boolean, TypeName.intPtr, TypeName.string, TypeName.object, TypeName.stringBuilder],
    ∃ e ∈ hostModule.types.toList, e.type.name = n := by
  decide +kernel


namespace Ty
variable {o t u : Ty}

theorem mem_lineage (h : u ∈ lineage o t) : u ∈ t.chain ∨ u = o := by
  unfold lineage at h
  split at h
  · exact .inl h
  · exact (List.mem_append.mp h).imp id List.mem_singleton.mp

theorem lineage_of_chain (h : u ∈ t.chain) : u ∈ lineage o t := by
  unfold lineage
  split
  · exact h
  · exact List.mem_append_left _ h

end Ty

/-- What is kept of a list stands behind what is kept before it. -/
theorem getElem?_filter_countP {α : Type} {q : α → Bool} {a : α} {l : List α} {k : Nat} (hk : l[k]? = some a)
    (hq : q a = true) :
    (l.filter q)[(l.take k).countP q]? = some a := by
  induction l generalizing k with
  | nil => cases hk
  | cons b l ih =>
    cases k with
    | zero =>
      cases hk
      simp [hq]
    | succ k =>
      have hk : l[k]? = some a := hk
      by_cases hb : q b = true
      · simpa [hb] using ih hk
      · simpa [hb] using ih hk

namespace Compilation

/-- A definition is that of a declared type. -/
structure Declares (p : Program) (c : Compilation) (i k : Nat) (d : DeclaredType) (e : TypeDef) : Prop where
  place : i = Module.hostCount + k
  declared : c.types[k]? = some d
  type : e.type = d.type
  source : d.source ∈ p.sources
  typed : d.source.TypedBy d.type

/-- Where a definition comes from: the catalog, or a declared class or delegate. -/
inductive Origin (p : Program) (c₀ c : Compilation) (i : Nat) (e : TypeDef) : Prop
  | catalog : i < Module.hostCount → e ∈ hostModule.types.toList → Origin p c₀ c i e
  | «class» {k d cd} : Declares p c i k d e → d.source = .class cd →
      ClassMade c₀.module.Knows c₀.symbols hostRoles cd d e → Origin p c₀ c i e
  | delegate {k d dd} : Declares p c i k d e → d.source = .delegate dd → DelegateMade hostRoles d e → Origin p c₀ c i e

/-- A definition as it is left has the type and the fields of the one it was, and its members. -/
structure Left (M : Module) (e e' : TypeDef) : Prop where
  found : M.def? e.type = some e'
  type : e'.type = e.type
  fields : e'.fields = e.fields
  slots : e'.slots = e.slots
  methods : e'.methods.toList.map Routine.method = e.methods.toList.map Routine.method
  ctors : e'.ctors.toList.map Routine.method = e.ctors.toList.map Routine.method

/-- A machine with the types that a compiled program can name, and the members of these. -/
def platformOf (m : Machine) (c₀ c : Compilation) (plain : Prop) : Platform where
  machine := m
  Admits := c₀.module.Knows
  symbols := c.symbols
  object := hostRoles.object
  plain

namespace Stages
variable {p : Program} {c₀ c c₁ c₂ : Compilation} {f : Method → Draft} {i j k : Nat} {d : DeclaredType} {x : Member}
    {e e' : TypeDef} {t u : Ty}

/-! ### Definitions -/

section Definitions
variable (h : Stages p c₀ c c₁ c₂ f)
include h

theorem origin (he : c.module.types[i]? = some e) : Origin p c₀ c i e := by
  rcases h.described.definition he with ⟨hi, hhost⟩ | ⟨k, d, hi, hk, hs, htyped, hm⟩
  · exact .catalog hi hhost
  · have declares : e.type = d.type → Declares p c i k d e := fun ht => ⟨hi, hk, ht, hs, htyped⟩
    cases hsource : d.source with
    | «class» cd =>
      simp only [Made, hsource] at hm
      exact .class (declares hm.type) hsource hm
    | delegate dd =>
      simp only [Made, hsource] at hm
      exact .delegate (declares hm.type) hsource hm

/-- A type that is known and no array has a definition. -/
theorem known_def (ht : c₀.module.Knows t) (harray : t.isArray = false) :
    ∃ (i : Nat) (e : TypeDef), c.module.types[i]? = some e ∧ e.type = t := by
  obtain ⟨e, he, rfl⟩ := (Module.knows_iff harray).mp ht
  obtain ⟨i, hi⟩ := Array.mem_iff_getElem?.mp (Array.mem_toList_iff.mp he)
  obtain ⟨-, j, e', he', ht⟩ :=
    h.described.coherent.known (h.described.grown.kept (h.described.laid.coherent.entered hi)) harray
  exact ⟨j, e', he', ht⟩

theorem host_known (he : e ∈ hostModule.types.toList) : c₀.module.Knows e.type := h.described.admits_host he

theorem known_module (ht : c₀.module.Knows t) : t.module = 0 := by
  have plain : ∀ {t : Ty}, c₀.module.Knows t → t.isArray = false → t.module = 0 := by
    intro t ht harray
    obtain ⟨i, e, he, rfl⟩ := h.known_def ht harray
    exact (h.described.coherent.shaped he).module.trans h.described.id
  induction t with
  | array e ih => exact ih ht
  | root d => exact plain ht rfl
  | derived d b => exact plain ht rfl

theorem left_at (he : c.module.types[i]? = some e) : ∃ e', c₂.module.types[i]? = some e' ∧ Left c₂.module e e' := by
  obtain ⟨-, hfinal, -⟩ := h.generated.finish h.described h.finished
  have hleft := hfinal he
  have found := Module.Shaped.def? h.shaped hleft
  split at found
  · rename_i hi
    rw [if_pos hi] at hleft
    exact ⟨e, hleft, found, rfl, rfl, rfl, rfl, rfl⟩
  · rename_i hi
    rw [if_neg hi] at hleft
    refine ⟨_, hleft, found, rfl, rfl, rfl, ?_, ?_⟩ <;>
      simp [TypeDef.finished, TypeDef.withDrafts, Function.comp_def, Routine.method_finished, Routine.withDraft]

theorem left_def (he : c.module.types[i]? = some e) : ∃ e', Left c₂.module e e' := by
  obtain ⟨e', -, hleft⟩ := h.left_at he
  exact ⟨e', hleft⟩

/-- Every definition has been left as it is by one. -/
theorem came_from (he' : e' ∈ c₂.module.types.toList) :
    ∃ (i : Nat) (e : TypeDef), c.module.types[i]? = some e ∧ Left c₂.module e e' := by
  obtain ⟨-, -, hsize, -⟩ := h.generated.finish h.described h.finished
  obtain ⟨i, hi⟩ := Array.mem_iff_getElem?.mp (Array.mem_toList_iff.mp he')
  have hlt := (Array.getElem?_eq_some_iff.mp hi).1
  rw [hsize] at hlt
  obtain ⟨e'', hi', hleft⟩ := h.left_at (Array.getElem?_eq_getElem hlt)
  cases hi.symm.trans hi'
  exact ⟨i, _, Array.getElem?_eq_getElem hlt, hleft⟩

/-- Definitions of one key are one. -/
theorem def_unique (he : c.module.types[i]? = some e) (he' : c.module.types[j]? = some e')
    (hk : e.type.key = e'.type.key) : e = e' := by
  obtain rfl := h.described.coherent.unique he he' hk
  exact Option.some.inj (he.symm.trans he')

/-- A definition whose key is the name of a type of the catalog has the name. -/
theorem name_of_key (he : c.module.types[i]? = some e) {n : Text} (hk : e.type.key = n)
    (hn : n ∈ [TypeName.int32, TypeName.boolean, TypeName.intPtr, TypeName.string, TypeName.object,
      TypeName.stringBuilder]) :
    e.type.name = n := by
  obtain ⟨e', he', hname⟩ := catalog_names n hn
  obtain ⟨j, -, hj⟩ := h.described.host_def he'
  have hkey : e'.type.key = n := Ty.key_host hname (by
    simp only [List.mem_cons, List.not_mem_nil, or_false] at hn ⊢
    tauto)
  rw [h.def_unique he hj (hk.trans hkey.symm), hname]

theorem reference_key (he : c.module.types[i]? = some e) (href : TypeName.isReference e.type.name = true) :
    TypeName.isReference e.type.key = true := by
  simp only [TypeName.isReference, Bool.and_eq_true, decide_eq_true_eq] at href ⊢
  obtain ⟨⟨⟨hint, hboolean⟩, hpointer⟩, hstring⟩ := href
  exact ⟨⟨⟨fun hk => hint (h.name_of_key he hk (by simp)), fun hk => hboolean (h.name_of_key he hk (by simp))⟩,
    fun hk => hpointer (h.name_of_key he hk (by simp))⟩, fun hk => hstring (h.name_of_key he hk (by simp))⟩

/-- Declared types have other names than those of the catalog. -/
theorem declared_name (hd : c.types[k]? = some d) :
    TypeName.isReference d.type.name = true ∧ d.type.name ≠ TypeName.object ∧
    d.type.name ≠ TypeName.string ∧ d.type.name ≠ TypeName.stringBuilder := by
  have other : ∀ n ∈ [TypeName.int32, TypeName.boolean, TypeName.intPtr, TypeName.string, TypeName.object,
      TypeName.stringBuilder],
      d.type.name ≠ n := by
    rintro n hn rfl
    obtain ⟨e, he, hname⟩ := catalog_names _ hn
    exact h.described.declared_ne_host hd he (congrArg Symbols.key hname.symm)
  refine ⟨?_, other _ (by simp), other _ (by simp), other _ (by simp)⟩
  simp only [TypeName.isReference, Bool.and_eq_true, decide_eq_true_eq]
  exact ⟨⟨⟨other _ (by simp), other _ (by simp)⟩, other _ (by simp)⟩, other _ (by simp)⟩

/-- Values of declared types are references. -/
theorem declared_reference (he : c.module.types[i]? = some e) (hd : Declares p c j k d e) :
    TypeName.isReference e.type.key = true :=
  h.reference_key he (hd.type ▸ (h.declared_name hd.declared).1)

theorem declared_ne_builder (he : c.module.types[i]? = some e) (hd : Declares p c j k d e) :
    e.type.key ≠ TypeName.stringBuilder := fun hk =>
  (h.declared_name hd.declared).2.2.2 (hd.type ▸ h.name_of_key he hk (by simp))

/-- Locations of a known type hold a value of the type at first. -/
theorem known_starts (ht : c₀.module.Knows t) : t.Starts := by
  refine Ty.starts_of_key fun n hn hk => ?_
  cases harray : t.isArray with
  | false =>
    obtain ⟨i, e, he, rfl⟩ := h.known_def ht harray
    exact h.name_of_key he hk (by
      simp only [List.mem_cons, List.not_mem_nil, or_false] at hn ⊢
      tauto)
  | true =>
    cases t with
    | array e =>
      have hends : n.endsWith TypeName.arrayEnding = false := by
        simp only [List.mem_cons, List.not_mem_nil, or_false] at hn
        rcases hn with rfl | rfl | rfl <;> decide
      exact absurd (e.key_array.symm.trans hk) (TypeName.array_ne hends)
    | root d => cases harray
    | derived d b => cases harray

theorem lists (he : c.module.types[i]? = some e) : c.symbols.Lists e := h.described.coherent.lists he

/-- The bases of a known type are of the catalog, and only the root of all types has methods. -/
theorem lineage_cases (ht : c₀.module.Knows t) (hu : u ∈ Ty.lineage hostRoles.object t) :
    u = t ∨ ∃ e ∈ hostModule.types.toList, e.type = u ∧ (u.name = TypeName.object ∨ e.methods = #[]) := by
  obtain ⟨⟨eo, ho, hobject, hname, -⟩, -, em, hm, hmulticast⟩ := catalog_roles
  -- Bases of types of the catalog are of the catalog.
  have inherited : ∀ {e : TypeDef}, e ∈ hostModule.types.toList → u ∈ Ty.lineage hostRoles.object e.type →
      ∃ d ∈ hostModule.types.toList, d.type = u ∧ (u = e.type ∨ u.name = TypeName.object ∨ d.methods = #[]) := by
    intro e he hu
    obtain ⟨d, hd, rfl⟩ := (catalog_types e he).2.2.2.2 u hu
    exact ⟨d, hd, rfl, (catalog_inherited d hd).2 e he hu⟩
  rcases Ty.mem_lineage hu with hu' | rfl
  · cases t with
    | array e => exact .inl (List.mem_singleton.mp hu')
    | root d => exact .inl (List.mem_singleton.mp hu')
    | derived d b =>
      obtain ⟨i, e, he, het⟩ := h.known_def ht rfl
      rcases h.origin he with ⟨-, hhost⟩ | ⟨hd, hs, -⟩ | ⟨hd, hs, -⟩
      · rw [← het] at hu ⊢
        obtain ⟨d', hd', htype, hcases⟩ := inherited hhost hu
        exact hcases.imp id fun hcases => ⟨d', hd', htype, hcases⟩
      · have hbase := hd.typed.base
        rw [← hd.type, het, hs] at hbase
        cases hbase
      · have hbase := hd.typed.base
        rw [← hd.type, het, hs] at hbase
        obtain rfl : b = hostRoles.multicastDelegate := Option.some.inj hbase
        rcases List.mem_cons.mp hu' with rfl | hu'
        · exact .inl rfl
        · rw [← hmulticast] at hu'
          obtain ⟨d', hd', htype, hcases⟩ := inherited hm (Ty.lineage_of_chain hu')
          refine .inr ⟨d', hd', htype, hcases.elim (fun hu => .inr ?_) id⟩
          exact (catalog_inherited d' hd').1 (htype.trans (hu.trans hmulticast))
  · exact .inr ⟨eo, ho, hobject, .inl (hobject ▸ hname)⟩

theorem method_owner (he : c.module.types[i]? = some e) {y : Routine} (hy : y ∈ e.methods.toList) :
    y.method.owner = e.type := by
  exact ((h.described.coherent.shaped he).method hy).1

/-- Only methods of the catalog are virtual, and those that call delegates. -/
theorem virtual_origin (he : c.module.types[i]? = some e) {y : Routine} (hy : y ∈ e.methods.toList)
    (hvirtual : y.method.isVirtual = true) :
    y.method.isStatic = false ∧ (e ∈ hostModule.types.toList ∨ y.method.name = Method.invokeName ∧
      ∀ z ∈ e.methods.toList, z = y) := by
  rcases h.origin he with ⟨-, hhost⟩ | ⟨-, -, hmade⟩ | ⟨-, -, hmade⟩
  · exact ⟨((catalog_members e hhost).2.2 y hy hvirtual).1, .inl hhost⟩
  · obtain ⟨x, hx, hxy⟩ := List.mem_map.mp (hmade.members ▸ List.mem_map_of_mem (List.mem_append_right _ hy))
    obtain ⟨_, -, hdeclares⟩ := Described.forall₂_mem hmade.declares hx
    rw [← hxy, hdeclares.isVirtual] at hvirtual
    cases hvirtual
  · obtain ⟨ctor, invoke, -, hmethods, -, -, -, -, hname, hst, -⟩ := hmade.routines
    rw [hmethods] at hy ⊢
    obtain rfl : y = invoke := List.mem_singleton.mp hy
    exact ⟨hst, .inr ⟨hname, fun z hz => List.mem_singleton.mp hz⟩⟩

/-- A member of the catalog is found in every module. -/
theorem host_routine (he : e ∈ hostModule.types.toList) {y : Routine} (hy : y ∈ e.routines) :
    c₂.module.routine? y.method = some y := by
  obtain ⟨i, hlt, hi⟩ := hostModule_place he
  exact Module.Shaped.routine? h.shaped ((h.host hlt).trans hi) hy

/-- A declared delegate is described. -/
theorem delegate_described (hd : Declares p c i k d e) (hmade : DelegateMade hostRoles d e) : ∃ D : Delegate,
    c.symbols.delegate? (some e.type) = some D ∧ D.type = e.type := by
  obtain ⟨ctor, invoke, -, -, -, -, -, -, -, -, hdelegate⟩ := hmade.routines
  refine ⟨_, h.described.delegates.mpr ⟨d, List.mem_of_getElem? hd.declared, hdelegate, ?_⟩, hd.type.symm⟩
  show Symbols.key e.type.name = Symbols.key d.type.name
  rw [hd.type]

/-- Instances have their fields in the cells that they get. -/
theorem lays (m : Machine) (plain : Prop) (he : c.module.types[i]? = some e) (ht : e'.type = e.type)
    (hf : e'.fields = e.fields) (hs : e'.slots = e.slots) :
    (platformOf m c₀ c plain).Lays e' where
  type g hg := by
    obtain ⟨t, ht, hT, -⟩ := (h.described.admitted he).fields g (hf ▸ hg)
    exact ⟨t, ht, h.known_starts hT⟩
  slot := by
    intro g hg hst
    have hshaped := h.described.coherent.shaped he
    have hg : g ∈ c.symbols.fieldsOf e'.type := hg
    rw [ht, (h.lists he).fields] at hg
    obtain ⟨k, hk⟩ := List.mem_iff_getElem?.mp hg
    obtain ⟨-, -, hslot⟩ := hshaped.fields (by rwa [Array.getElem?_toList] at hk)
    rw [hst, if_neg Bool.false_ne_true] at hslot
    have hkept := getElem?_filter_countP (q := fun g : Field => !g.isStatic) hk (by rw [hst]; rfl)
    refine ⟨_, hslot, ?_, hf ▸ hkept⟩
    rw [hs, hshaped.slots, Field.instances, Field.instances, List.countP_eq_length_filter (l := e.fields.toList)]
    exact (List.getElem?_eq_some_iff.mp hkept).1

/-- A type that a known one inherits from has a definition, where it is no array. -/
theorem inherited_def (ht : c₀.module.Knows t) (hu : u ∈ Ty.lineage hostRoles.object t) (harray : u.isArray = false) :
    ∃ (i : Nat) (e : TypeDef), c.module.types[i]? = some e ∧ e.type = u ∧
      (u = t ∨ e ∈ hostModule.types.toList ∧ (u.name = TypeName.object ∨ e.methods = #[])) := by
  rcases h.lineage_cases ht hu with rfl | ⟨e, he, rfl, hmethods⟩
  · obtain ⟨i, e, he, rfl⟩ := h.known_def ht harray
    exact ⟨i, e, he, rfl, .inl rfl⟩
  · obtain ⟨i, -, hi⟩ := h.described.host_def he
    exact ⟨i, e, hi, rfl, .inr ⟨he, hmethods⟩⟩

end Definitions

/-! ### Names -/

section Names
variable (h : Stages p c₀ c c₁ c₂ f)
include h

/-- Where no declared type has the name of an array, no definition has the key of one. -/
theorem key_ne_array (free : ∀ s ∈ p.sources, s.name.endsWith TypeName.arrayEnding = false)
    (he : c.module.types[i]? = some e) (t : Ty) :
    e.type.key ≠ (Ty.array t).key := by
  intro hk
  obtain ⟨n', hn', -⟩ := TypeName.array_of_key hk
  exact TypeName.array_ne (h.described.plain free he) hn'.symm

/-- A definition with the key of a known type is that of the type, or the type is an array. -/
theorem def_of_key (ht : c₀.module.Knows t) (he : c.module.types[i]? = some e) (hk : e.type.key = t.key) :
    e.type = t ∨ t.isArray = true ∧ e ∉ hostModule.types.toList := by
  cases harray : t.isArray with
  | false =>
    obtain ⟨j, e', he', rfl⟩ := h.known_def ht harray
    exact .inl (by rw [h.def_unique he he' hk])
  | true =>
    refine .inr ⟨rfl, fun hhost => ?_⟩
    cases t with
    | array u =>
      obtain ⟨n, hn, -⟩ := TypeName.array_of_key hk
      exact TypeName.array_ne (catalog_types e hhost).2.2.1 hn.symm
    | root d => cases harray
    | derived d b => cases harray

/-- The members of a known type, or of one it inherits from, are those of a definition. -/
theorem inherited_owner (ht : c₀.module.Knows t) (hu : u ∈ Ty.lineage hostRoles.object t)
    (hmembers : c.symbols.fieldsOf u ≠ [] ∨ c.symbols.allMethods u ≠ [] ∨ c.symbols.ctorsOf u ≠ []) :
    ∃ (i : Nat) (e : TypeDef), c.module.types[i]? = some e ∧ e.type.key = u.key ∧
      (u = t ∨ e ∈ hostModule.types.toList ∧ e.type = u ∧ (u.name = TypeName.object ∨ e.methods = #[])) := by
  obtain ⟨i, e, he, hk⟩ := h.described.coherent.owned hmembers
  refine ⟨i, e, he, hk, (h.lineage_cases ht hu).imp id ?_⟩
  rintro ⟨e', he', rfl, hmethods⟩
  obtain ⟨j, -, hj⟩ := h.described.host_def he'
  obtain rfl := h.def_unique he hj hk
  exact ⟨he', rfl, hmethods⟩

/-- A field of a known type, or of one it inherits from. -/
theorem inherited_field (ht : c₀.module.Knows t) (hu : u ∈ Ty.lineage hostRoles.object t) {x : Field}
    (hx : x ∈ c.symbols.fieldsOf u) :
    ∃ (i : Nat) (e : TypeDef), c.module.types[i]? = some e ∧ e.type.key = u.key ∧ x ∈ e.fields.toList ∧
      (u = t ∨ e ∈ hostModule.types.toList) := by
  obtain ⟨i, e, he, hk, hcases⟩ := h.inherited_owner ht hu (.inl (List.ne_nil_of_mem hx))
  rw [Symbols.fieldsOf_of_key hk.symm, (h.lists he).fields] at hx
  exact ⟨i, e, he, hk, hx, hcases.imp id And.left⟩

/-- A method of a known type, or of one it inherits from. -/
theorem inherited_method (ht : c₀.module.Knows t) (hu : u ∈ Ty.lineage hostRoles.object t) {r : Method}
    (hr : r ∈ c.symbols.allMethods u) :
    ∃ (i : Nat) (e : TypeDef), c.module.types[i]? = some e ∧ e.type.key = u.key ∧ ∃ y ∈ e.methods.toList, y.method = r ∧
      (u = t ∨ e ∈ hostModule.types.toList ∧ e.type.name = TypeName.object) := by
  obtain ⟨i, e, he, hk, hcases⟩ := h.inherited_owner ht hu (.inr (.inl (List.ne_nil_of_mem hr)))
  rw [Symbols.allMethods_of_key hk.symm, (h.lists he).methods] at hr
  obtain ⟨y, hy, rfl⟩ := List.mem_map.mp hr
  refine ⟨i, e, he, hk, y, hy, rfl, hcases.imp id fun ⟨hhost, htype, hname⟩ => ⟨hhost, ?_⟩⟩
  rw [htype]
  refine hname.resolve_right fun hnone => ?_
  rw [hnone] at hy
  cases hy

/-- Only instances of declared types have fields, and nothing inherits them. -/
theorem platform_field {x : Field} (ht : c₀.module.Knows t) (hu : u ∈ Ty.lineage hostRoles.object t)
    (hx : x ∈ c.symbols.fieldsOf u)
    (hst : x.isStatic = false) :
    u = t ∧ ((∀ s ∈ p.sources, s.name.endsWith TypeName.arrayEnding = false) → t.isArray = false) ∧
      TypeName.isReference t.key = true := by
  obtain ⟨i, e, he, hk, hmem, hcases⟩ := h.inherited_field ht hu hx
  have other : e ∉ hostModule.types.toList := by
    intro hhost
    rw [((catalog_types e hhost).2.2.2.1 x hmem).1] at hst
    cases hst
  obtain rfl := hcases.resolve_right other
  refine ⟨rfl, fun free => ?_, ?_⟩
  · cases u with
    | array v => exact absurd hk (h.key_ne_array free he v)
    | root d => rfl
    | derived d b => rfl
  · rw [← hk]
    rcases h.origin he with ⟨-, hhost⟩ | ⟨hd, -, -⟩ | ⟨hd, -, -⟩
    · exact absurd hhost other
    · exact h.declared_reference he hd
    · exact h.declared_reference he hd

/-- A static field holds a value of its type from the beginning. -/
theorem platform_initial {x : Field} (ht : c₀.module.Knows t) (hu : u ∈ Ty.lineage hostRoles.object t)
    (hx : x ∈ c.symbols.fieldsOf u) {v : Ty}
    (hv : x.type = some v) : Heap.Belongs {} (Heap.initial x) v.key := by
  obtain ⟨i, e, he, -, hmem, -⟩ := h.inherited_field ht hu hx
  have declared : ∀ {k : Nat} {d : DeclaredType}, Declares p c i k d e → Heap.Belongs {} (Heap.initial x) v.key := by
    intro k d hd
    have howner : x.owner = e.type := (h.described.coherent.shaped he).field hmem
    have hname : ¬(x.owner.name = TypeName.string ∧ x.owner.declared.index < Module.hostCount) := fun hs =>
      (h.declared_name hd.declared).2.2.1 (by rw [← hd.type, ← howner]; exact hs.1)
    obtain ⟨v', hv', hV, -⟩ := (h.described.admitted he).fields x hmem
    cases hv.symm.trans hv'
    unfold Heap.initial
    rw [if_neg hname, hv]
    exact h.known_starts hV {}
  rcases h.origin he with ⟨-, hhost⟩ | ⟨hd, -, -⟩ | ⟨hd, -, -⟩
  · obtain ⟨-, hname, hinitial⟩ := (catalog_types e hhost).2.2.2.1 x hmem
    rw [hv] at hname
    rw [hinitial, Ty.key_host (show v.name = TypeName.string from Option.some.inj hname) (by decide)]
    exact .string
  · exact declared hd
  · exact declared hd

/-- A definition has the members of its key. -/
theorem owns {m : Machine} {plain : Prop} (he : c.module.types[i]? = some e) (hk : e.type.key = t.key)
    (href : TypeName.isReference e.type.name = true) :
    (platformOf m c₀ c plain).Owns e.type t :=
  ⟨(h.described.admitted he).type, (h.described.coherent.shaped he).notArray, hk, h.reference_key he href⟩

end Names

/-! ### Members -/

section Members
variable (h : Stages p c₀ c c₁ c₂ f) {m : Machine} (hm : m.Loads c₂.module) {plain : Prop} {r : Method}
include h hm

theorem provides_host (he : e ∈ hostModule.types.toList) {y : Routine} (hy : y ∈ e.routines)
    (hn : y.native.any (·.suits y.method) = true) : (platformOf m c₀ c plain).Provides y.method := by
  obtain ⟨n, hnative, hsuits⟩ := (Option.any_eq_true _ _).mp hn
  exact .native ((hm.routine? _).trans (h.host_routine he hy)) hnative hsuits

theorem provides_member (hd : c.types[k]? = some d) (hx : x ∈ d.members) : (platformOf m c₀ c plain).Provides x.method := by
  obtain ⟨y, b, hdefined⟩ := h.member hd hx
  obtain ⟨hcomplete, hresolves, hlocals⟩ := h.resolves hd hx hdefined
  obtain ⟨cd, e, decl, z, hof⟩ := h.described.member hd hx
  obtain ⟨s, -, -, hemits⟩ := h.generated.lowered (d, x) (mem_pairs.mpr ⟨List.mem_of_getElem? hd, hx⟩)
  have howner : x.method.owner = d.type := hof.declares.owner
  have htypes : (c.scopeOf x).params.map (fun q => q.2.2) = x.types := by
    have hlen : (x.params.map Param.name).length = x.types.length := by
      rw [List.length_map, hof.declares.params, hof.declares.types.length_eq]
    show ((((x.params.map Param.name).zip x.types).zipIdx.map _).map _) = _
    rw [List.map_map, show ∀ l : List ((Text × Ty) × Nat), l.map _ = (l.map Prod.fst).map Prod.snd from fun l => by
      rw [List.map_map]; rfl]
    rw [List.zipIdx_map_fst, List.map_snd_zip (Nat.le_of_eq hlen.symm)]
  have hruns : (platformOf m c₀ c plain).Runs x.method b (h.setting x) (f x.method) :=
    { ok := h.setting_ok hd hx
      admits := rfl
      symbols := rfl
      object := by
        show c.roles.object = _
        rw [h.described.roles]
        rfl
      complete := hcomplete
      doubles := hemits.doubles
      resolves := hresolves
      locals := hlocals
      starts := fun t ht => by
        obtain ⟨n, hn⟩ := List.mem_iff_getElem?.mp ht
        rw [Array.getElem?_toList] at hn
        exact h.known_starts (hcomplete.locals hn).admits
      ret := hof.declares.result
      args := by
        rw [hof.declares.signature]
        show ((if x.method.isStatic then [] else [x.method.owner]) ++ (c.scopeOf x).params.map fun q => q.2.2).map some = _
        rw [htypes, List.map_append]
        cases x.method.isStatic <;> rfl }
  refine .code ((hm.routine? _).trans hdefined.routine) hdefined.native hdefined.impl hdefined.body ?_ ?_ hruns
  · rw [howner]
    exact (h.described.made hd).1.isValue
  · rw [howner]
    exact (h.declared_name hd).2.1

/-- `Invoke` of a declared delegate. -/
theorem provides_invoke (he : c.module.types[i]? = some e) (hd : Declares p c i k d e) (hmade : DelegateMade hostRoles d e)
    (hplain : plain → ∀ t : Ty, e.type.key ≠ (Ty.array t).key) {y : Routine} (hy : y ∈ e.methods.toList) :
      (platformOf m c₀ c plain).Provides y.method := by
  obtain ⟨D, hD, htype⟩ := h.delegate_described hd hmade
  obtain ⟨e₂, invoke, hdefined⟩ := h.delegate hD
  obtain ⟨e', he', htype', -, -, hmethods⟩ := h.left_def he
  have hsame : e' = e₂ := by
    have := hdefined.definition
    rw [hdefined.type, htype, he'] at this
    exact Option.some.inj this
  have honly : e.methods.toList.map Routine.method = [invoke] := by
    rw [← hmethods, hsame, ← Array.toList_map, hdefined.only]
  have hinvoke : y.method = invoke := List.mem_singleton.mp (honly ▸ List.mem_map_of_mem hy)
  obtain ⟨x, hx, -, himpl, hnative⟩ := hdefined.called
  have howner := h.method_owner he hy
  have hobject := (h.declared_name hd.declared).2.1
  rw [← hd.type] at hobject
  refine .invoke (D := D) ((hm.routine? _).trans (hinvoke ▸ hx)) hnative himpl (hinvoke ▸ hdefined.name)
      (hinvoke ▸ hdefined.isStatic) ?_ ?_ ?_ ?_ ?_
    (hinvoke ▸ hdefined.signature.1) (hinvoke ▸ hdefined.signature.2)
  · rw [howner, hd.type]
    exact hd.typed.isValue
  · rwa [howner]
  · rw [howner]
    exact h.declared_reference he hd
  · rwa [howner]
  · rw [howner]
    exact hD

/-- The methods of a definition are provided. -/
theorem provides_method (free : plain → ∀ s ∈ p.sources, s.name.endsWith TypeName.arrayEnding = false)
    (he : c.module.types[i]? = some e)
    {y : Routine} (hy : y ∈ e.methods.toList) : (platformOf m c₀ c plain).Provides y.method := by
  rcases h.origin he with ⟨-, hhost⟩ | ⟨hd, -, hmade⟩ | ⟨hd, -, hmade⟩
  · exact h.provides_host hm hhost (List.mem_append_right _ hy) ((catalog_members e hhost).1 y hy).1
  · obtain ⟨x, hx, hxy⟩ := List.mem_map.mp (hmade.members ▸ List.mem_map_of_mem (List.mem_append_right _ hy))
    exact hxy ▸ h.provides_member hm hd.declared hx
  · exact h.provides_invoke hm he hd hmade (fun hp => h.key_ne_array (free hp) he) hy

theorem platform_definition (ht : c₀.module.Knows t) (harray : t.isArray = false) :
    ∃ d, m.def? t = some d ∧ d.type = t ∧ (platformOf m c₀ c plain).Lays d := by
  obtain ⟨i, e, he, rfl⟩ := h.known_def ht harray
  obtain ⟨e', he', htype, hfields, hslots, -⟩ := h.left_def he
  exact ⟨e', (hm.def? _).trans he', htype, h.lays m plain he htype hfields hslots⟩

/-- The constructors of the root of all types do nothing. -/
theorem platform_base {r : Method} (hr : r ∈ c.symbols.ctorsOf hostRoles.object) :
    (platformOf m c₀ c plain).Provides r ∧ r.isStatic = false ∧ r.owner.name = TypeName.object := by
  obtain ⟨⟨e, he, htype, hname, -⟩, -⟩ := catalog_roles
  obtain ⟨i, -, hi⟩ := h.described.host_def he
  rw [← htype, (h.lists hi).ctors] at hr
  obtain ⟨y, hy, rfl⟩ := List.mem_map.mp hr
  obtain ⟨howner, -, hst⟩ := (h.described.coherent.shaped hi).ctor hy
  obtain ⟨-, -, hbuilds⟩ := (catalog_members e he).2.1 y hy
  rcases hbuilds with ⟨hbuilder, -⟩ | ⟨-, hn⟩
  · rw [hname] at hbuilder
    cases hbuilder
  · exact ⟨h.provides_host hm he (List.mem_append_left _ hy) hn, hst, by rw [howner, hname]⟩

/-- What a virtual call of a method may reach is a method of the same result. -/
theorem platform_target {t' u' : Ty} {y : Routine} (ht : c₀.module.Knows t) (ht' : c₀.module.Knows t')
    (hkey : t'.key = t.key)
    (hu : u ∈ Ty.lineage hostRoles.object t) (hr : r ∈ c.symbols.allMethods u) (hvirtual : r.isVirtual = true)
    (hu' : u' ∈ Ty.lineage hostRoles.object t') (he' : m.def? u' = some e') (hy : y ∈ e'.methods)
    (hname : y.method.name = r.name)
    (hvirtual' : y.method.isVirtual = true) :
    y.method ∈ c.symbols.allMethods u' ∧ y.method.isStatic = false ∧ Ty.same y.method.ret r.ret = true := by
  rw [hm.def?] at he'
  have hmem : y.method ∈ c.symbols.allMethods u' := by
    obtain ⟨i, e, he, rfl, -⟩ := h.inherited_def ht' hu' (Module.def?_some he').2.1
    obtain ⟨e₂, he₂, -, -, -, hmethods⟩ := h.left_def he
    rw [he₂] at he'
    cases he'
    rw [(h.lists he).methods, ← hmethods]
    exact List.mem_map_of_mem (Array.mem_toList_iff.mpr hy)
  obtain ⟨i, e, he, hk, z, hz, rfl, hcases⟩ := h.inherited_method ht hu hr
  obtain ⟨i', e₁, he₁, hk₁, z', hz', hzy, hcases'⟩ := h.inherited_method ht' hu' hmem
  rw [← hzy] at hname hvirtual' ⊢
  obtain ⟨-, hor⟩ := h.virtual_origin he hz hvirtual
  obtain ⟨hst, hor'⟩ := h.virtual_origin he₁ hz' hvirtual'
  refine ⟨hzy ▸ hmem, hst, ?_⟩
  rcases hor with hhost | ⟨hinvoke, honly⟩
  · rcases hor' with hhost' | ⟨hinvoke, -⟩
    · exact ((catalog_members e hhost).2.2 z hz hvirtual).2 e₁ hhost' z' hz' hvirtual' hname
    · exact absurd (hname.symm.trans hinvoke) ((catalog_members e hhost).1 z hz).2
  · -- Both are what calls the delegate.
    have other : e ∉ hostModule.types.toList := fun hhost => absurd hinvoke ((catalog_members e hhost).1 z hz).2
    have other' : e₁ ∉ hostModule.types.toList :=
      fun hhost => absurd (hname.trans hinvoke) ((catalog_members e₁ hhost).1 z' hz').2
    obtain rfl := hcases.resolve_right fun hc => other hc.1
    obtain rfl := hcases'.resolve_right fun hc => other' hc.1
    obtain rfl := h.def_unique he he₁ (by rw [hk, hk₁, hkey])
    rw [honly z' hz', Ty.same_iff]

theorem platform_ctor (hD : c.symbols.delegate? (some t) = none) (hr : r ∈ c.symbols.ctorsOf t) :
    (platformOf m c₀ c plain).Owns r.owner t ∧ r.isStatic = false ∧ (platformOf m c₀ c plain).Builds r.owner r := by
  obtain ⟨i, e, he, hk⟩ := h.described.coherent.owned (.inr (.inr (List.ne_nil_of_mem hr)))
  replace hk : e.type.key = t.key := hk
  rw [Symbols.ctorsOf_of_key hk.symm, (h.lists he).ctors] at hr
  obtain ⟨y, hy, rfl⟩ := List.mem_map.mp hr
  have hy' : y ∈ e.routines := List.mem_append_left _ hy
  obtain ⟨howner, -, hst⟩ := (h.described.coherent.shaped he).ctor hy
  rw [howner]
  rcases h.origin he with ⟨-, hhost⟩ | ⟨hd, hs, hmade⟩ | ⟨hd, hs, hmade⟩
  · obtain ⟨href, himpl, hbuilds⟩ := (catalog_members e hhost).2.1 y hy
    have hfound := (hm.routine? _).trans (h.host_routine hhost hy')
    refine ⟨h.owns he hk href, hst, ?_⟩
    rcases hbuilds with ⟨hname, hnative⟩ | ⟨hname, hn⟩
    · exact .builder (Ty.key_host hname (by decide)) hfound hnative himpl
    · exact .object (fun hkey => hname (h.name_of_key he hkey (by simp))) hfound himpl (h.provides_host hm hhost hy' hn)
  · obtain ⟨x, hx, hxy⟩ := List.mem_map.mp (hmade.members ▸ List.mem_map_of_mem hy')
    obtain ⟨y', b, hdefined⟩ := h.member hd.declared hx
    refine ⟨h.owns he hk (hd.type ▸ (h.declared_name hd.declared).1), hst, ?_⟩
    exact .object (h.declared_ne_builder he hd) ((hm.routine? _).trans (hxy ▸ hdefined.routine)) hdefined.impl
      (hxy ▸ h.provides_member hm hd.declared hx)
  · obtain ⟨D, hD', -⟩ := h.delegate_described hd hmade
    rw [← Symbols.delegate?_of_key hk, hD'] at hD
    cases hD

theorem platform_delegate {D : Delegate} (hD : c.symbols.delegate? (some t) = some D) :
    (platformOf m c₀ c plain).Binds t D := by
  obtain ⟨k, d, e, hd, -, hkey, htype, he, hmade⟩ := h.described.delegate_made hD
  replace hkey : t.key = d.type.key := hkey
  rw [← hmade.type] at hkey
  obtain ⟨e₂, invoke, hdefined⟩ := h.delegate hD
  have htype : e₂.type = e.type := by rw [hdefined.type, htype, hmade.type]
  obtain ⟨href, -, -, hname⟩ := h.declared_name hd
  rw [← hmade.type] at href hname
  obtain ⟨x, hx, himpl, -⟩ := hdefined.made
  have howner : D.ctor.owner = e.type := hdefined.owner.trans htype
  refine ⟨howner ▸ h.owns he hkey.symm href, fun hk => hname (h.name_of_key he (hkey.symm.trans hk) (by simp)), ?_, x,
    (hm.routine? _).trans hx, himpl⟩
  rw [howner, ← htype]
  exact hdefined.isDelegate

/-- Only delegates are described. -/
theorem delegate?_none (he : c.module.types[i]? = some e) (hnot : e.type.isDelegate = false) :
    c.symbols.delegate? (some e.type) = none := by
  cases hD : c.symbols.delegate? (some e.type) with
  | none => rfl
  | some D =>
    have hbinds : (platformOf m c₀ c False).Binds e.type D := h.platform_delegate hm hD
    obtain ⟨howns, -, hdelegate, -⟩ := hbinds
    obtain ⟨j, e', he', htype⟩ := h.known_def howns.admits howns.notArray
    obtain rfl := h.def_unique he' he (by rw [htype, howns.key])
    rw [htype, hdelegate] at hnot
    cases hnot

end Members

/-! ### Soundness -/

section Soundness
variable (h : Stages p c₀ c c₁ c₂ f) {m : Machine} (hm : m.Loads c₂.module) {plain : Prop}
  (free : plain → ∀ s ∈ p.sources, s.name.endsWith TypeName.arrayEnding = false) {r : Method}
include h hm free

theorem platform_method (ht : c₀.module.Knows t) (hu : u ∈ Ty.lineage hostRoles.object t)
    (hr : r ∈ c.symbols.allMethods u) :
    (platformOf m c₀ c plain).Provides r ∧
      (r.owner.key = t.key ∧ r.owner.isValue = t.isValue ∨ r.owner.name = TypeName.object) := by
  obtain ⟨i, e, he, hk, y, hy, rfl, hcases⟩ := h.inherited_method ht hu hr
  refine ⟨h.provides_method hm free he hy, ?_⟩
  rw [h.method_owner he hy]
  rcases hcases with rfl | ⟨-, hname⟩
  · refine .inl ⟨hk, ?_⟩
    rcases h.def_of_key ht he hk with htype | ⟨harray, hother⟩
    · rw [htype]
    · have hvalue : u.isValue = false := by
        cases u with
        | array v => rfl
        | root d => cases harray
        | derived d b => cases harray
      rw [hvalue]
      rcases h.origin he with ⟨-, hhost⟩ | ⟨hd, -, -⟩ | ⟨hd, -, -⟩
      · exact absurd hhost hother
      · exact hd.type ▸ hd.typed.isValue
      · exact hd.type ▸ hd.typed.isValue
  · exact .inr hname

/-- What typed code relies on is so for a machine that runs a compiled module. -/
theorem platform_sound : (platformOf m c₀ c plain).Sound where
  starts ht := h.known_starts ht
  element ht := ht
  value := by
    intro t ht hvalue hvoid
    obtain ⟨e, he, rfl⟩ := h.value_host ht hvalue
    exact (catalog_types e he).1 hvalue hvoid
  reference := by
    intro t ht hvalue
    cases harray : t.isArray with
    | true =>
      cases t with
      | array e => exact .inl (e.key_array ▸ TypeName.isReference_array _)
      | root d => cases harray
      | derived d b => cases harray
    | false =>
      obtain ⟨i, e, he, rfl⟩ := h.known_def ht harray
      rcases h.origin he with ⟨-, hhost⟩ | ⟨hd, -, -⟩ | ⟨hd, -, -⟩
      · exact ((catalog_types e hhost).2.1 hvalue).imp (h.reference_key he) (Ty.key_host · (by decide))
      · exact .inl (h.declared_reference he hd)
      · exact .inl (h.declared_reference he hd)
  apart := by
    intro hp t ht harray
    obtain ⟨i, e, he, rfl⟩ := h.known_def ht harray
    exact h.key_ne_array (free hp) he
  definition ht harray := h.platform_definition hm ht harray
  host := by
    intro t ht
    obtain ⟨⟨e, he, htype, -, hfound⟩, -⟩ := catalog_roles
    show m.hostType t.module TypeName.object = hostRoles.object
    rw [h.known_module ht, hm.hostType (h.type?_host hfound), htype]
  string := by
    obtain ⟨-, ⟨e, he, hname, hfound⟩, -⟩ := catalog_roles
    have hstring : m.hostType m.module TypeName.string = e.type := by rw [hm.module, hm.hostType (h.type?_host hfound)]
    show c₀.module.Knows (m.hostType m.module TypeName.string) ∧
        (m.hostType m.module TypeName.string).name = TypeName.string
    rw [hstring]
    exact ⟨h.host_known he, hname⟩
  object := by
    obtain ⟨⟨e, -, htype, hname, -⟩, -⟩ := catalog_roles
    show hostRoles.object.name = TypeName.object
    rw [← htype, hname]
  field ht hu hx hst := by
    obtain ⟨htype, harray, href⟩ := h.platform_field ht hu hx hst
    exact ⟨htype, fun hp => harray (free hp), href⟩
  initial ht hu hx _ hv := h.platform_initial ht hu hx hv
  method ht hu hr := h.platform_method hm free ht hu hr
  target ht ht' hk hu hr hv hu' he hy hn hv' := h.platform_target hm ht ht' hk hu hr hv hu' he hy hn hv'
  ctor _ _ hD hr := h.platform_ctor hm hD hr
  base hr := h.platform_base hm hr
  delegate _ hD := h.platform_delegate hm hD

end Soundness

end Stages
end Compilation
end CilCompiler
