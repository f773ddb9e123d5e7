import CilCompiler.Proofs.Compilation.Coherent
import CilCompiler.Proofs.Compilation.Recorded
import CilCompiler.Proofs.Compilation.Steps

/-! The members that a program declares. A method or constructor that is defined is none that there was before, so no
    two members are the same (`Added`), and none of them has a body until bodies are generated. All this holds for
    listings and for code alike. -/

namespace CilCompiler

/-! ### Members that are defined -/

namespace Module
variable {m m' : Module} {t : Ty} {r : Method}

theorem modifyDef_id (m : Module) (t : Ty) : m.modifyDef t (fun d => d) = m := by
  have same : m.types.modify t.declared.index (fun d => d) = m.types := by
    apply Array.ext_getElem?
    intro i
    rw [Array.getElem?_modify]
    split <;> simp
  rw [modifyDef, same]

/-- A method that is defined stands behind those there are. -/
theorem defineMethod_new {name : Text} {attrs : MethodAttributes} {ret : Option Ty} {params : List (Option Ty)}
    (h : m.defineMethod t name attrs ret params = .ok (r, m')) : ¬ m.Has r ∧ m'.Has r := by
  obtain ⟨d, hopen, h⟩ := bind_eq_ok.mp h
  cases h
  have hdef := (open?_ok hopen).1
  constructor
  · rintro ⟨x, hx, -⟩
    rw [Module.routine?, hdef, Option.bind_some] at hx
    simp [TypeDef.routine?] at hx
  · refine ⟨{ method := _, paramNames := params.map fun _ => .empty }, ?_, rfl⟩
    rw [Module.routine?, def?_modifyDef _ (def?_some hdef).2.1, hdef]
    simp only [Option.map_some, Option.bind_some, TypeDef.routine?, Bool.false_eq_true, if_false, Array.getElem?_push_size]

theorem defineConstructor_new {attrs : MethodAttributes} {params : List (Option Ty)}
    (h : m.defineConstructor t attrs params = .ok (r, m')) : ¬ m.Has r ∧ m'.Has r := by
  obtain ⟨d, hopen, h⟩ := bind_eq_ok.mp h
  cases h
  have hdef := (open?_ok hopen).1
  constructor
  · rintro ⟨x, hx, -⟩
    rw [Module.routine?, hdef, Option.bind_some] at hx
    simp [TypeDef.routine?] at hx
  · refine ⟨{ method := _, paramNames := params.map fun _ => .empty }, ?_, rfl⟩
    rw [Module.routine?, def?_modifyDef _ (def?_some hdef).2.1, hdef]
    simp only [Option.map_some, Option.bind_some, TypeDef.routine?, if_true, Array.getElem?_push_size]

end Module

namespace Compilation

variable {t : Ty} {c c₁ c' : Compilation}

/-! ### What steps keep -/

theorem Step.grows (h : Step t c c') : c.module.Grows c'.module := by
  cases h with
  | lookup h => exact .of_types (by rw [lookup_module h]) (by rw [lookup_module h]) (by rw [lookup_module h])
  | defineField h => exact .defineField h
  | defineMethod h => exact .defineMethod h
  | defineConstructor h => exact .defineConstructor h
  | defineParameter _ h => exact .defineParameter h
  | setImplementation _ h => exact .setImplementation h
  | registerField | registerMethod | registerConstructor => exact .of_types rfl rfl rfl

theorem Steps.has (h : Steps t c c') {r : Method} (hr : c.module.Has r) : c'.module.Has r :=
  h.keeps (P := fun c => c.module.Has r) (fun hstep hr => hstep.grows.has hr) hr

/-- What holds of an empty body holds of all bodies. -/
theorem Step.bodied {Q : Draft → Prop} (hQ : Q {}) (h : Step t c c') (hb : c.module.Bodied Q) : c'.module.Bodied Q := by
  cases h with
  | lookup h => rw [lookup_module h]; exact hb
  | defineField h => exact hb.defineField h
  | defineMethod h => exact hb.defineMethod hQ h
  | defineConstructor h => exact hb.defineConstructor hQ h
  | defineParameter _ h => exact hb.defineParameter h
  | setImplementation _ h => exact hb.setImplementation h
  | registerField | registerMethod | registerConstructor => exact hb

/-- A step changes one definition at most, and neither its type nor whether it is finished. -/
theorem Step.module (h : Step t c c') : ∃ f : TypeDef → TypeDef, c'.module = c.module.modifyDef t f ∧
    ∀ d, (f d).type = d.type ∧ (f d).isCreated = d.isCreated := by
  have none : ∀ m : Module, ∃ f : TypeDef → TypeDef, m = m.modifyDef t f ∧ ∀ d, (f d).type = d.type ∧
      (f d).isCreated = d.isCreated :=
    fun m => ⟨fun d => d, (m.modifyDef_id t).symm, fun _ => ⟨rfl, rfl⟩⟩
  have routine : ∀ (r : Method) (f : Routine → Routine) (d : TypeDef),
      (d.modifyRoutine r f).type = d.type ∧ (d.modifyRoutine r f).isCreated = d.isCreated :=
    fun r f d => ⟨d.type_modifyRoutine r f, d.isCreated_modifyRoutine r f⟩
  cases h with
  | lookup h =>
    rw [lookup_module h]
    exact none _
  | defineField h =>
    obtain ⟨d, -, h⟩ := bind_eq_ok.mp h
    cases h
    exact ⟨_, rfl, fun _ => ⟨rfl, rfl⟩⟩
  | defineMethod h =>
    obtain ⟨d, -, h⟩ := bind_eq_ok.mp h
    cases h
    exact ⟨_, rfl, fun _ => ⟨rfl, rfl⟩⟩
  | defineConstructor h =>
    obtain ⟨d, -, h⟩ := bind_eq_ok.mp h
    cases h
    exact ⟨_, rfl, fun _ => ⟨rfl, rfl⟩⟩
  | defineParameter hr h =>
    subst hr
    unfold Module.defineParameter at h
    split at h
    · cases h
    · cases h
      exact ⟨_, rfl, routine _ _⟩
  | setImplementation hr h =>
    subst hr
    obtain ⟨d, -, h⟩ := bind_eq_ok.mp h
    cases h
    exact ⟨_, rfl, routine _ _⟩
  | registerField | registerMethod | registerConstructor => exact none _

/-- No step finishes a type. -/
theorem Step.isCreated (h : Step t c c') (u : Ty) : c'.module.isCreated u = c.module.isCreated u := by
  obtain ⟨f, hm, hf⟩ := h.module
  unfold Module.isCreated
  cases ha : u.isArray with
  | true => rw [Module.def?_of_isArray ha, Module.def?_of_isArray ha]
  | false =>
    rw [hm, Module.def?_modifyDef_of _ ha]
    by_cases hi : t.declared.index = u.declared.index
    · rw [if_pos hi]
      cases c.module.def? u with
      | none => rfl
      | some d => exact (hf d).2
    · rw [if_neg hi]

theorem Step.type? (h : Step t c c') (n : Text) : c'.module.type? n = c.module.type? n := by
  obtain ⟨f, hm, hf⟩ := h.module
  rw [hm, Module.type?_modifyDef _ _ fun d => (hf d).1]

/-- A step changes the module and the symbols only. -/
theorem Step.rest (h : Step t c c') : c' = { c with module := c'.module, symbols := c'.symbols } := by
  cases h with
  | lookup h =>
    obtain ⟨⟨u, s⟩, -, h⟩ := bind_eq_ok.mp h
    cases h
    rfl
  | _ => rfl

theorem Step.aliases (h : Step t c c') : c'.symbols.aliases = c.symbols.aliases := by
  cases h with
  | lookup h =>
    obtain ⟨⟨u, s⟩, h1, h⟩ := bind_eq_ok.mp h
    cases h
    exact (Symbols.lookup_extends h1).grown.aliases
  | registerField _ h => rw [Symbols.registerField_ok h]; rfl
  | registerMethod _ _ h =>
    obtain ⟨_, -, h⟩ := bind_eq_ok.mp h
    dsimp only at h
    split at h <;> cases h
    rfl
  | registerConstructor _ h =>
    obtain ⟨_, -, h⟩ := bind_eq_ok.mp h
    dsimp only at h
    split at h <;> cases h
    rfl
  | _ => rfl

namespace Steps

theorem type? (h : Steps t c c') (n : Text) : c'.module.type? n = c.module.type? n :=
  h.keeps (P := fun c' => c'.module.type? n = c.module.type? n) (fun hstep h => (hstep.type? n).trans h) rfl

theorem isCreated (h : Steps t c c') (u : Ty) : c'.module.isCreated u = c.module.isCreated u :=
  h.keeps (P := fun c' => c'.module.isCreated u = c.module.isCreated u) (fun hstep h => (hstep.isCreated u).trans h) rfl

theorem rest (h : Steps t c c') : c' = { c with module := c'.module, symbols := c'.symbols } := by
  refine h.keeps (P := fun c' => c' = { c with module := c'.module, symbols := c'.symbols }) (fun hstep h => ?_) rfl
  rw [hstep.rest, h]

theorem roles (h : Steps t c c') : c'.roles = c.roles := by rw [h.rest]

theorem aliases (h : Steps t c c') : c'.symbols.aliases = c.symbols.aliases :=
  h.keeps (P := fun c' => c'.symbols.aliases = c.symbols.aliases) (fun hstep h => hstep.aliases.trans h) rfl

end Steps

/-! ### Members that are declared -/

/-- Members that are declared from one state to another: the first has none of them and the second all, no two are the
    same, and no member is lost. -/
structure Added (c c' : Compilation) (xs : List Member) : Prop where
  keeps : ∀ {r : Method}, c.module.Has r → c'.module.Has r
  fresh : ∀ x ∈ xs, ¬ c.module.Has x.method
  has : ∀ x ∈ xs, c'.module.Has x.method
  distinct : xs.Pairwise fun x y => x.method ≠ y.method

namespace Added

theorem none (h : Steps t c c') : Added c c' [] :=
  ⟨h.has, fun x hx => (by cases hx), fun x hx => (by cases hx), .nil⟩

theorem append {xs ys : List Member} (h : Added c c₁ xs) (h' : Added c₁ c' ys) : Added c c' (xs ++ ys) where
  keeps hr := h'.keeps (h.keeps hr)
  fresh x hx := by
    rcases List.mem_append.mp hx with hx | hx
    · exact h.fresh x hx
    · exact fun hr => h'.fresh x hx (h.keeps hr)
  has x hx := by
    rcases List.mem_append.mp hx with hx | hx
    · exact h'.keeps (h.has x hx)
    · exact h'.has x hx
  distinct := by
    refine List.pairwise_append.mpr ⟨h.distinct, h'.distinct, fun x hx y hy he => ?_⟩
    exact h'.fresh y hy (he ▸ h.has x hx)

end Added

/-- A constructor of a type: an instance's member of the usual name without a result. -/
structure Constructs (c : Compilation) (t : Ty) (x : Member) : Prop where
  owner : x.method.owner = t
  isStatic : x.method.isStatic = false
  result : x.method.ret = c.module.type? TypeName.void
  ret : x.ret = c.roles.void

theorem Constructs.steps {x : Member} {u : Ty} (h : Steps u c c') (hx : Constructs c' t x) : Constructs c t x :=
  ⟨hx.owner, hx.isStatic, hx.result.trans (h.type? _), hx.ret.trans (congrArg Roles.void h.roles)⟩

theorem declareCtor_added {cd : CtorDecl} {x : Member} (h : c.declareCtor t cd = .ok (x, c')) :
    Added c c' [x] ∧ Constructs c t x := by
  have hsteps := declareCtor_steps h
  obtain ⟨⟨types, c₁⟩, h1, h⟩ := bind_eq_ok.mp h
  obtain ⟨⟨r, m₁⟩, h2, h⟩ := bind_eq_ok.mp h
  obtain ⟨m₂, h3, h⟩ := bind_eq_ok.mp h
  obtain ⟨s, h4, h⟩ := bind_eq_ok.mp h
  cases h
  have hlookup : Steps t c c₁ := lookupParams_steps h1
  obtain ⟨hold, hnew⟩ := Module.defineConstructor_new h2
  have hr := owner_of_defineConstructor h2
  refine ⟨⟨hsteps.has, ?_, ?_, List.pairwise_singleton ..⟩, ?_⟩
  · simp only [List.forall_mem_singleton]
    exact fun hhas => hold (hlookup.has hhas)
  · simp only [List.forall_mem_singleton]
    exact (nameParams_steps (c := { c₁ with module := m₁ }) hr h3).has hnew
  · obtain ⟨d, -, h2⟩ := bind_eq_ok.mp h2
    cases h2
    refine ⟨rfl, ?_, hlookup.type? _, congrArg Roles.void hlookup.roles⟩
    show MethodAttributes.isStatic (MethodAttributes.forConstructor .methods) = false
    decide

theorem declareMethod_added {md : MethodDecl} {x : Member} (h : c.declareMethod t md = .ok (x, c')) :
    Added c c' [x] ∧ x.method.owner = t ∧ x.method.isCtor = false := by
  have hsteps := declareMethod_steps h
  obtain ⟨⟨ret, c₁⟩, h1, h⟩ := bind_eq_ok.mp h
  obtain ⟨⟨types, c₂⟩, h2, h⟩ := bind_eq_ok.mp h
  obtain ⟨⟨r, m₁⟩, h3, h⟩ := bind_eq_ok.mp h
  obtain ⟨m₂, h4, h⟩ := bind_eq_ok.mp h
  obtain ⟨s, h5, h⟩ := bind_eq_ok.mp h
  cases h
  have hlookup : Steps t c c₂ := (lookupReturn_steps h1).trans (lookupParams_steps h2)
  obtain ⟨hold, hnew⟩ := Module.defineMethod_new h3
  obtain ⟨hr, -⟩ := of_defineMethod h3
  refine ⟨⟨hsteps.has, ?_, ?_, List.pairwise_singleton ..⟩, ?_⟩
  · simp only [List.forall_mem_singleton]
    exact fun hhas => hold (hlookup.has hhas)
  · simp only [List.forall_mem_singleton]
    exact (nameParams_steps (c := { c₂ with module := m₁ }) hr h4).has hnew
  · obtain ⟨d, -, h3⟩ := bind_eq_ok.mp h3
    cases h3
    exact ⟨rfl, rfl⟩

theorem declareEach_added {α : Type} {declare : Compilation → α → Except Fault (Member × Compilation)} {Q : Member → Prop}
    {l : List α} {xs : List Member} (hc : Steps t c₁ c)
    (step : ∀ {c c' : Compilation} {a : α} {x : Member}, Steps t c₁ c → declare c a = .ok (x, c') →
      Steps t c c' ∧ Added c c' [x] ∧ Q x)
    (h : declareEach declare c l = .ok (xs, c')) : Added c c' xs ∧ ∀ x ∈ xs, Q x := by
  induction l generalizing c xs with
  | nil =>
    cases h
    exact ⟨.none (.refl (t := t) _), fun x hx => (by cases hx)⟩
  | cons a l ih =>
    obtain ⟨⟨x, c₂⟩, h1, h⟩ := bind_eq_ok.mp h
    obtain ⟨⟨rest, c₃⟩, h2, h⟩ := bind_eq_ok.mp h
    cases h
    obtain ⟨hsteps, hadded, hx⟩ := step hc h1
    obtain ⟨hrest, hxs⟩ := ih (hc.trans hsteps) h2
    exact ⟨hadded.append hrest, List.forall_mem_cons.mpr ⟨hx, hxs⟩⟩

/-- The members of a type that is declared; its constructors are constructors of it. -/
theorem declareType_added {d d' : DeclaredType} (hd : d.members = []) (h : c.declareType d = .ok (d', c')) :
    Added c c' d'.members ∧ d'.type = d.type ∧
      ∀ x ∈ d'.members, x.method.owner = d.type ∧ (x.method.isCtor = true → Constructs c d.type x) := by
  have hsteps := declareType_steps h
  unfold declareType at h
  split at h
  · obtain ⟨⟨D, c₁⟩, h1, h⟩ := bind_eq_ok.mp h
    cases h
    rw [hd]
    exact ⟨.none hsteps, rfl, fun x hx => (by cases hx)⟩
  · obtain ⟨⟨inits, c₁⟩, h1, h⟩ := bind_eq_ok.mp h
    obtain ⟨⟨ctors, c₂⟩, h2, h⟩ := bind_eq_ok.mp h
    obtain ⟨⟨methods, c₃⟩, h3, h⟩ := bind_eq_ok.mp h
    cases h
    have hfields := declareFields_steps h1
    have hbetween : Steps d.type c₁ c₂ := declareEach_steps declareCtor_steps h2
    obtain ⟨hctors, hc⟩ := declareEach_added (Q := Constructs c d.type) hfields (fun hs h => by
      obtain ⟨ha, hx⟩ := declareCtor_added h
      exact ⟨declareCtor_steps h, ha, hx.steps hs⟩) h2
    obtain ⟨hmethods, hm⟩ := declareEach_added (Q := fun x => x.method.owner = d.type ∧
        x.method.isCtor = false) (hfields.trans hbetween) (fun _ h => by
      obtain ⟨ha, hx⟩ := declareMethod_added h
      exact ⟨declareMethod_steps h, ha, hx⟩) h3
    refine ⟨(Added.none hfields).append (hctors.append hmethods), rfl, fun x hx => ?_⟩
    rcases List.mem_append.mp hx with hx | hx
    · exact ⟨(hc x hx).owner, fun _ => hc x hx⟩
    · obtain ⟨ho, hctor⟩ := hm x hx
      exact ⟨ho, fun h => by rw [hctor] at h; cases h⟩

end Compilation
end CilCompiler
