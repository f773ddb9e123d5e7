import CilCompiler.Proofs.Compilation.Program
import CilCompiler.Proofs.Typed.Stmt

/-!
The setting of a member's body. What the passes before bodies leave is all that lowering relies on: the types
of roles, parameters, fields and signatures are admitted, and the members of types are those of the module.
-/

namespace CilCompiler

namespace Compilation

/-- What the code of a member's body may refer to. -/
def settingOf (P : Ty → Prop) (c : Compilation) (x : Member) : Setting :=
  { scope := c.scopeOf x, symbols := c.symbols, Admits := P }

namespace Described
variable {P : Ty → Prop} {p : Program} {c₀ c : Compilation}

theorem host_def (h : Described P p c₀ c) {e : TypeDef} (he : e ∈ hostModule.types.toList) :
    ∃ i < Module.hostCount, c.module.types[i]? = some e := by
  obtain ⟨i, hlt, hi⟩ := hostModule_place he
  exact ⟨i, hlt, (h.host i hlt).trans hi⟩

/-- A definition with the name of one of the catalog is that one. -/
theorem host_unique (h : Described P p c₀ c) {i : Nat} {d e : TypeDef} (hd : c.module.types[i]? = some d)
    (he : e ∈ hostModule.types.toList) (hk : Symbols.key d.type.name = Symbols.key e.type.name) :
    i < Module.hostCount ∧ d = e := by
  obtain ⟨j, hj, hje⟩ := h.host_def he
  obtain rfl := h.coherent.unique hd hje hk
  rw [hje] at hd
  exact ⟨hj, by simpa using hd.symm⟩

theorem admits_host (h : Described P p c₀ c) {e : TypeDef} (he : e ∈ hostModule.types.toList) : P e.type := by
  obtain ⟨i, -, hi⟩ := h.host_def he
  exact (h.admitted hi).type

/-- No declared type has the name of one of the catalog. -/
theorem declared_ne_host (h : Described P p c₀ c) {k : Nat} {d : DeclaredType} (hd : c.types[k]? = some d) {e : TypeDef}
    (he : e ∈ hostModule.types.toList) : Symbols.key d.type.name ≠ Symbols.key e.type.name := by
  intro hk
  obtain ⟨-, e', he', hm⟩ := h.made hd
  have ht : e'.type = d.type := by
    unfold Made at hm
    split at hm
    · exact hm.type
    · exact hm.type
  rw [← ht] at hk
  have := (h.host_unique he' he hk).1
  omega

/-- The catalog's void type. -/
theorem void_mem : ∃ e ∈ hostModule.types.toList, e.type.name = TypeName.void ∧ e.ctors = #[] ∧ e.methods = #[] := by
  decide +kernel

theorem declared_notVoid (h : Described P p c₀ c) {k : Nat} {d : DeclaredType} (hd : c.types[k]? = some d) :
    d.type.isVoid = false := by
  obtain ⟨e, he, hn, -⟩ := void_mem
  refine decide_eq_false fun hv => h.declared_ne_host hd he ?_
  rw [hv, hn]

/-- A member comes from a class that declares it, and stands in the class's definition. -/
structure Of (P : Ty → Prop) (p : Program) (s : Symbols) (c : Compilation) (k : Nat) (d : DeclaredType) (x : Member)
    (cd : ClassDecl) (e : TypeDef) (m : Bool × MethodDecl) (y : Routine) : Prop where
  source : d.source = .class cd
  mem : cd ∈ p.classes
  definition : c.module.types[Module.hostCount + k]? = some e
  made : ClassMade P s hostRoles cd d e
  decl : m ∈ cd.routines
  declares : x.Declares P s hostRoles d.type m
  routine : y ∈ e.routines
  method : y.method = x.method

theorem forall₂_mem {α β : Type} {R : α → β → Prop} {as : List α} {bs : List β} (h : List.Forall₂ R as bs)
    {b : β} (hb : b ∈ bs) :
    ∃ a ∈ as, R a b := by
  obtain ⟨k, hk⟩ := List.mem_iff_getElem?.mp hb
  obtain ⟨a, ha, hR⟩ := forall₂_getElem? h hk
  exact ⟨a, List.mem_of_getElem? ha, hR⟩

theorem member (h : Described P p c₀ c) {k : Nat} {d : DeclaredType} {x : Member} (hd : c.types[k]? = some d)
    (hx : x ∈ d.members) : ∃ cd e m y, Of P p c₀.symbols c k d x cd e m y := by
  obtain ⟨-, e, he, hm⟩ := h.made hd
  have hsrc : d.source ∈ p.sources := h.sources ▸ List.mem_map_of_mem (List.mem_of_getElem? hd)
  cases hs : d.source with
  | delegate dd =>
    simp only [Made, hs] at hm
    rw [hm.members] at hx
    cases hx
  | «class» cd =>
    simp only [Made, hs] at hm
    obtain ⟨m, hmem, hdecl⟩ := forall₂_mem hm.declares hx
    obtain ⟨y, hy, hmethod⟩ := List.mem_map.mp (hm.members ▸ List.mem_map_of_mem hx)
    refine ⟨cd, e, m, y, hs, ?_, he, hm, hmem, hdecl, hy, hmethod⟩
    rw [hs] at hsrc
    simpa [Program.sources] using hsrc

/-- A member's body is that of a constructor or a method of its class; the body of a constructor that is not written
    is empty. -/
theorem Of.body_mem {s : Symbols} {k : Nat} {d : DeclaredType} {x : Member} {cd : ClassDecl} {e : TypeDef}
    {m : Bool × MethodDecl}
    {y : Routine} (h : Of P p s c k d x cd e m y) :
    x.body = [] ∨ (∃ ctor ∈ cd.ctors, x.body = ctor.body) ∨ ∃ method ∈ cd.methods, x.body = method.body := by
  have hdecl := h.decl
  simp only [ClassDecl.routines, List.mem_append, List.mem_map] at hdecl
  rw [h.declares.body]
  rcases hdecl with ⟨ctor, hc, rfl⟩ | ⟨method, hm, rfl⟩
  · unfold ClassDecl.allCtors at hc
    split at hc
    · cases List.mem_singleton.mp hc
      exact .inl rfl
    · exact .inr (.inl ⟨ctor, hc, rfl⟩)
  · exact .inr (.inr ⟨method, hm, rfl⟩)

/-- The names of types in a member's body are names of the program. -/
theorem Of.bodyNames {s : Symbols} {k : Nat} {d : DeclaredType} {x : Member} {cd : ClassDecl} {e : TypeDef}
    {m : Bool × MethodDecl} {y : Routine} (h : Of P p s c k d x cd e m y) {n : Text} (hn : n ∈ Stmt.typeNamesAll x.body) :
    n ∈ p.typeNames := by
  refine List.mem_append_left _ (List.mem_flatMap.mpr ⟨cd, h.mem, ?_⟩)
  simp only [ClassDecl.typeNames, List.mem_append, List.mem_flatMap]
  rcases h.body_mem with he | ⟨ctor, hc, he⟩ | ⟨method, hm, he⟩
  · simp [he, Stmt.typeNamesAll] at hn
  · exact .inl (.inr ⟨ctor, hc, List.mem_append_right _ (he ▸ hn)⟩)
  · exact .inr ⟨method, hm, List.mem_append_right _ (he ▸ hn)⟩

theorem Of.initNames {s : Symbols} {k : Nat} {d : DeclaredType} {x : Member} {cd : ClassDecl} {e : TypeDef}
    {m : Bool × MethodDecl} {y : Routine} (h : Of P p s c k d x cd e m y) {init : Field × Expr}
    (hi : init ∈ d.inits) {n : Text}
    (hn : n ∈ init.2.typeNames) : n ∈ p.typeNames := by
  obtain ⟨-, -, f, hf, hinit⟩ := h.made.inits init hi
  refine List.mem_append_left _ (List.mem_flatMap.mpr ⟨cd, h.mem, ?_⟩)
  simp only [ClassDecl.typeNames, List.mem_append, List.mem_flatMap]
  exact .inl (.inl ⟨f, hf, List.mem_cons_of_mem _ (hinit ▸ hn)⟩)

/-! ### What lowering relies on -/

/-- A parameter is the argument that its number says. -/
theorem scopeOf_args (c : Compilation) (x : Member) {n : Text} {i : Nat} {t : Ty} (h : (n, i, t) ∈ (c.scopeOf x).params) :
    (c.scopeOf x).args[i]? = some t ∧ t ∈ x.types := by
  simp only [scopeOf, List.mem_map] at h
  obtain ⟨⟨⟨n, t⟩, j⟩, hj, he⟩ := h
  cases he
  rw [List.mk_mem_zipIdx_iff_getElem?] at hj
  have hget : ((x.params.map Param.name).zip x.types)[j]? = some (n, t) := hj
  refine ⟨?_, (List.of_mem_zip (List.mem_of_getElem? hget)).2⟩
  have types : ((c.scopeOf x).params.map fun q => q.2.2)[j]? = some t := by
    show ((((x.params.map Param.name).zip x.types).zipIdx.map fun q =>
      (q.1.1, (if x.method.isStatic then 0 else 1) + q.2, q.1.2)).map fun q => q.2.2)[j]? = some t
    rw [List.getElem?_map, List.getElem?_map, List.getElem?_zipIdx, hget]
    rfl
  show ((if x.method.isStatic then [] else [x.method.owner]) ++ _)[(if x.method.isStatic then 0 else 1) + j]? = some t
  cases x.method.isStatic with
  | true =>
    rw [if_pos rfl, if_pos rfl, Nat.zero_add]
    exact types
  | false =>
    rw [if_neg Bool.false_ne_true, if_neg Bool.false_ne_true, Nat.add_comm, List.singleton_append, List.getElem?_cons_succ]
    exact types

theorem hostRoles_mem : ∀ t ∈ [hostRoles.int32, hostRoles.boolean, hostRoles.string],
    ∃ e ∈ hostModule.types.toList, e.type = t := by decide +kernel

/-- The catalog's methods that join strings. -/
theorem hostString_concat : ∃ e ∈ hostModule.types.toList, e.type = hostRoles.string ∧
    ∀ x ∈ e.methods.toList, x.method.name = "Concat" → x.method.ret = some hostRoles.string := by decide +kernel

theorem hostRoles_names : hostRoles.int32.name = TypeName.int32 ∧ hostRoles.boolean.name = TypeName.boolean ∧
    hostRoles.string.name = TypeName.string := by decide +kernel

/-- A described delegate is that of a declared type. -/
theorem delegate_made (h : Described P p c₀ c) {t : Ty} {D : Delegate} (hD : c.symbols.delegate? (some t) = some D) :
    ∃ k d e, c.types[k]? = some d ∧ d.delegate = some D ∧ Symbols.key t.name = Symbols.key d.type.name ∧ D.type = d.type ∧
      c.module.types[Module.hostCount + k]? = some e ∧ DelegateMade hostRoles d e := by
  obtain ⟨d, hd, hdel, hkey⟩ := h.delegates.mp hD
  obtain ⟨k, hk⟩ := List.mem_iff_getElem?.mp hd
  obtain ⟨-, e, he, hm⟩ := h.made hk
  unfold Made at hm
  split at hm
  · rw [hm.delegate] at hdel
    cases hdel
  · obtain ⟨ctor, invoke, -, -, -, -, -, -, -, -, heq⟩ := hm.routines
    rw [heq] at hdel
    cases hdel
    exact ⟨k, d, e, hk, heq, hkey, rfl, he, hm⟩

/-- Members that are found for a type stand in a definition. -/
theorem located (h : Described P p c₀ c) {u : Ty} {r : Method}
    (hr : r ∈ c.symbols.allMethods u ∨ r ∈ c.symbols.ctorsOf u ∨ r ∈ c.module.ctors u .instances) :
    ∃ (i : Nat) (e : TypeDef), c.module.types[i]? = some e ∧ ∃ y ∈ e.routines, y.method = r := by
  rcases hr with hr | hr | hr
  · obtain ⟨i, e, he, -, y, hy, hm⟩ := h.coherent.mem_allMethods hr
    exact ⟨i, e, he, y, List.mem_append_right _ hy, hm⟩
  · obtain ⟨i, e, he, -, y, hy, hm⟩ := h.coherent.mem_ctorsOf hr
    exact ⟨i, e, he, y, List.mem_append_left _ hy, hm⟩
  · unfold Module.ctors at hr
    split at hr
    · rename_i e he
      split at hr
      · obtain ⟨y, hy, hm⟩ := List.mem_map.mp hr
        exact ⟨_, e, (Module.def?_some he).1, y, List.mem_append_left _ hy, hm⟩
      · cases hr
    · cases hr

theorem constructed_notVoid (h : Described P p c₀ c) {t : Ty} {r : Method} (hr : r ∈ c.symbols.ctorsOf t) :
    t.isVoid = false := by
  refine decide_eq_false fun hv => ?_
  obtain ⟨i, e, he, hkey, y, hy, -⟩ := h.coherent.mem_ctorsOf hr
  obtain ⟨v, hv', hn, hc, -⟩ := void_mem
  rw [hv, ← hn] at hkey
  obtain ⟨-, rfl⟩ := h.host_unique he hv' hkey
  rw [hc] at hy
  cases hy

/-- A delegate is made from an object and a function pointer. -/
theorem delegate_ok (h : Described P p c₀ c) {t : Ty} {D : Delegate} (hD : c.symbols.delegate? (some t) = some D) :
    t.isVoid = false ∧ D.ctor.params.length = 2 := by
  obtain ⟨k, d, e, hd, hdel, hkey, -, -, hm⟩ := h.delegate_made hD
  obtain ⟨ctor, invoke, -, -, -, -, -, hp, -, -, heq⟩ := hm.routines
  rw [hdel] at heq
  cases heq
  refine ⟨decide_eq_false fun hv => ?_, by rw [hp]; rfl⟩
  obtain ⟨v, hv', hn, -⟩ := void_mem
  refine h.declared_ne_host hd hv' ?_
  rw [← hkey, hv, hn]

theorem concat_ret (h : Described P p c₀ c) {r : Method} (hr : r ∈ c.symbols.allMethods hostRoles.string)
    (hn : r.name = "Concat") :
    r.ret = some hostRoles.string := by
  obtain ⟨i, e, he, hkey, y, hy, rfl⟩ := h.coherent.mem_allMethods hr
  obtain ⟨v, hv, ht, hconcat⟩ := hostString_concat
  rw [← ht] at hkey
  obtain ⟨-, rfl⟩ := h.host_unique he hv hkey
  exact hconcat y hy hn

theorem setting_ok (h : Described P p c₀ c) (helem : ∀ {e : Ty}, P (.array e) → P e) {k : Nat}
    {d : DeclaredType} {x : Member}
    (hd : c.types[k]? = some d) (hx : x ∈ d.members) : (settingOf P c x).Ok := by
  obtain ⟨cd, e, m, y, hof⟩ := h.member hd hx
  obtain ⟨htyped, -⟩ := h.made hd
  have hadm := h.admitted hof.definition
  have hroles : (settingOf P c x).scope.roles = hostRoles := h.roles
  have howner : (settingOf P c x).scope.owner = d.type := hof.declares.owner
  have roleP : ∀ t ∈ [hostRoles.int32, hostRoles.boolean, hostRoles.string], P t := by
    intro t ht
    obtain ⟨e, he, rfl⟩ := hostRoles_mem t ht
    exact h.admits_host he
  obtain ⟨hint, hbool, hstr⟩ := hostRoles_names
  exact {
    int32 := by rw [hroles]; exact hint
    boolean := by rw [hroles]; exact hbool
    string := by rw [hroles]; exact hstr
    roles := by
      rw [hroles]
      exact ⟨roleP _ (by simp), roleP _ (by simp), roleP _ (by simp)⟩
    element := helem
    owner := by
      rw [howner]
      exact ⟨hof.made.type ▸ hadm.type, h.declared_notVoid hd⟩
    ownerObject := by
      rw [howner]
      exact htyped.isValue
    ret := by
      obtain ⟨t, ht, hP⟩ := hadm.results y hof.routine
      rw [hof.method, hof.declares.result] at ht
      cases ht
      exact hP
    ctor := fun hc => by
      have hstatic := ((h.coherent.shaped hof.definition).routine hof.routine).2 (by rw [hof.method]; exact hc)
      rw [hof.method] at hstatic
      exact hstatic
    arg := fun {n i t} hp => by
      obtain ⟨harg, hmem⟩ := scopeOf_args c x hp
      obtain ⟨q, -, -, hl⟩ := forall₂_mem hof.declares.types hmem
      exact ⟨harg, hl.1, hl.2⟩
    field := fun {u f} hf => by
      obtain ⟨i, u', hu', -, hmem⟩ := h.coherent.mem_fieldsOf hf
      obtain ⟨t, ht, hP, hv⟩ := (h.admitted hu').fields f hmem
      exact ⟨t, ht, hP, hv⟩
    ret? := fun {u r} hr => by
      obtain ⟨i, u', hu', z, hz, rfl⟩ := h.located (.inl hr)
      exact (h.admitted hu').results z hz
    params := fun {u r} hr q hq => by
      obtain ⟨i, u', hu', z, hz, rfl⟩ := h.located hr
      obtain ⟨t, ht, hP, hv⟩ := (h.admitted hu').params z hz q hq
      exact ⟨t, ht, hP, hv⟩
    constructed := h.constructed_notVoid
    delegate := h.delegate_ok
    concat := fun {r} hr hn => by
      rw [hroles] at hr ⊢
      exact h.concat_ret hr hn }

end Described
end Compilation
end CilCompiler
