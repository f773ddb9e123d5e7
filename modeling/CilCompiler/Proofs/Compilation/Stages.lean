import CilCompiler.Proofs.Compilation.Passes
import CilCompiler.Proofs.Machine.VerifiedStack

/-!
Methods of compiled programs. The method that a class declares at a place is found at that place of the class's finished
definition, with the verified body that was generated for it.

Compiled modules as a machine finds them. All types that a program can name are types of its module, or arrays of such types
(`Module.Knows`), so the states that a compilation goes through are described for these (`Stages`). The module that is left
holds the catalog, delegates that the runtime implements, and a verified body for every member of a class.
-/

namespace CilCompiler
namespace Compilation

variable {P : Ty → Prop} {p : Program} {c₀ c c₁ c₂ : Compilation} {f : Method → Draft}

/-- The definitions of a compiled module know where they are. -/
theorem Generated.shaped (h : Described P p c₀ c) (hg : Generated P c (pairs c.types) f c₁) (hf : c₁.finish = .ok c₂) :
    c₂.module.Shaped := by
  obtain ⟨hrest, hfinal, hsize, -⟩ := hg.finish h hf
  have hid : c₂.module.id = c.module.id := by rw [hrest, hg.eq]; rfl
  intro i e he
  have hlt := (Array.getElem?_eq_some_iff.mp he).1
  rw [hsize] at hlt
  have hget := Array.getElem?_eq_getElem hlt
  have hshaped := h.coherent.shaped hget
  rw [hfinal hget] at he
  rw [hid]
  cases he
  split
  · exact hshaped
  · exact (hshaped.withDrafts f).finished

theorem countP_of_forall₂ {α β : Type} {R : α → β → Prop} {as : List α} {bs : List β}
    (h : List.Forall₂ R as bs) {q : α → Bool}
    {q' : β → Bool} (hq : ∀ {a b}, R a b → q' b = q a) : bs.countP q' = as.countP q := by
  induction h with
  | nil => rfl
  | cons hab _ ih => rw [List.countP_cons, List.countP_cons, ih, hq hab]

/-- A class's definition has its constructors before its methods. -/
theorem ctors_size {s : Symbols} {roles : Roles} {cd : ClassDecl} {d : DeclaredType} {e : TypeDef} {id i : Nat}
    (h : ClassMade P s roles cd d e) (hs : e.Shaped id i) : e.ctors.size = cd.allCtors.length := by
  have declared : (d.members.map Member.method).countP Method.isCtor = cd.allCtors.length := by
    have hcount : d.members.countP (Method.isCtor ∘ Member.method) = cd.routines.countP Prod.fst :=
      countP_of_forall₂ h.declares fun hx => hx.isCtor
    rw [List.countP_map, hcount]
    simp [ClassDecl.routines, List.countP_map, Function.comp_def]
  have ctors : e.ctors.toList.countP (Method.isCtor ∘ Routine.method) = e.ctors.size := by
    rw [List.countP_eq_length.mpr, Array.length_toList]
    intro y hy
    exact (hs.ctor hy).2.1
  have methods : e.methods.toList.countP (Method.isCtor ∘ Routine.method) = 0 := by
    rw [List.countP_eq_zero]
    intro y hy
    simp [(hs.method hy).2]
  rw [h.members, List.countP_map, TypeDef.routines, List.countP_append, ctors, methods] at declared
  exact declared

/-- A method that a class declares, as the module has it. -/
structure Compiled (P : Ty → Prop) (s : Symbols) (c : Compilation) (f : Method → Draft) (m : Module)
    (k j : Nat) (cd : ClassDecl)
    (decl : MethodDecl) (d : DeclaredType) (x : Member) (e : TypeDef) (y : Routine) (b : Body) : Prop where
  type : c.types[k]? = some d
  source : d.source = .class cd
  member : x ∈ d.members
  declares : x.Declares P s hostRoles d.type (false, decl)
  definition : m.types[Module.hostCount + k]? = some e
  created : e.isCreated = true
  name : e.type.name = cd.name
  method : e.methods[j]? = some y
  same : y.method = x.method
  native : y.native = none
  impl : y.impl ≠ .runtime
  body : y.body = some b
  verified : (f x.method).verify (some x.ret) = .ok b

/-- Every method that a class declares is compiled. -/
theorem Generated.compiled (h : Described P p c₀ c) (hg : Generated P c (pairs c.types) f c₁)
    (hf : c₁.finish = .ok c₂) {i j : Nat}
    {cd : ClassDecl} {decl : MethodDecl} (hc : p.classes[i]? = some cd) (hd : cd.methods[j]? = some decl) :
    ∃ d x e y b, Compiled P c₀.symbols c f c₂.module (p.delegates.length + i) j cd decl d x e y b := by
  obtain ⟨-, hfinal, -, hfinishable⟩ := hg.finish h hf
  have hsource : p.sources[p.delegates.length + i]? = some (.class cd) := by
    rw [Program.sources, List.getElem?_append_right (by simp)]
    simp [hc]
  obtain ⟨d, hk, hs⟩ : ∃ d, c.types[p.delegates.length + i]? = some d ∧ d.source = .class cd := by
    rw [← h.sources, List.getElem?_map] at hsource
    exact Option.map_eq_some_iff.mp hsource
  obtain ⟨htyped, e, he, hmade⟩ := h.made hk
  have hmade : ClassMade P c₀.symbols hostRoles cd d e := by simpa only [Made, hs] using hmade
  have hshaped := h.coherent.shaped he
  have hdecl : cd.routines[cd.allCtors.length + j]? = some (false, decl) := by
    rw [ClassDecl.routines, List.getElem?_append_right (by simp)]
    simp [hd]
  obtain ⟨x, hx, hdeclares⟩ : ∃ x, d.members[cd.allCtors.length + j]? = some x ∧
      x.Declares P c₀.symbols hostRoles d.type (false, decl) := by
    have hlt := (List.getElem?_eq_some_iff.mp hdecl).1
    rw [hmade.declares.length_eq] at hlt
    obtain ⟨m, hm, hdeclares⟩ := forall₂_getElem? hmade.declares (List.getElem?_eq_getElem hlt)
    rw [hdecl] at hm
    cases hm
    exact ⟨_, List.getElem?_eq_getElem hlt, hdeclares⟩
  obtain ⟨y, hy, hxy⟩ : ∃ y, e.methods[j]? = some y ∧ y.method = x.method := by
    have hmem := congrArg (fun l => l[cd.allCtors.length + j]?) hmade.members
    simp only [List.getElem?_map, hx, Option.map_some] at hmem
    obtain ⟨y, hy, hxy⟩ := Option.map_eq_some_iff.mp hmem.symm
    rw [TypeDef.routines, List.getElem?_append_right (by simp [ctors_size hmade hshaped])] at hy
    refine ⟨y, ?_, hxy⟩
    simpa [ctors_size hmade hshaped] using hy
  have hyr : y ∈ e.routines := List.mem_append_right _ (Array.mem_toList_iff.mpr (Array.mem_of_getElem? hy))
  have hrec := hmade.recorded y hyr
  have himpl : (y.withDraft f).impl ≠ .runtime := by
    rw [show (y.withDraft f).impl = y.impl from rfl, hrec.impl]
    decide
  obtain ⟨b, hb⟩ : ∃ b, (f x.method).verify (some x.ret) = .ok b := by
    have hfin := (hfinishable he).routines (y.withDraft f) (by
      rw [TypeDef.routines_withDrafts]
      exact List.mem_map_of_mem hyr)
    rcases hfin with hrun | ⟨b, hb⟩
    · exact absurd hrun himpl
    · rw [show (y.withDraft f).draft = f y.method from rfl, show (y.withDraft f).method = y.method from rfl, hxy,
          hdeclares.result] at hb
      exact ⟨b, hb⟩
  have hbody : (y.withDraft f).draft.verify (y.withDraft f).method.ret = .ok b := by
    rw [show (y.withDraft f).draft = f y.method from rfl, show (y.withDraft f).method = y.method from rfl, hxy,
        hdeclares.result, hb]
  have hfinished : (y.withDraft f).finished = { y.withDraft f with body := some b } := by
    rw [Routine.finished, if_neg himpl, hbody]
    rfl
  refine ⟨d, x, (e.withDrafts f).finished, (y.withDraft f).finished, b, hk, hs, List.mem_of_getElem? hx, hdeclares, ?_,
      rfl, ?_, ?_, ?_, ?_, ?_, ?_, hb⟩
  · rw [hfinal he, if_neg (by omega)]
  · show e.type.name = cd.name
    rw [hmade.type, htyped.name, hs]
    rfl
  · simp [TypeDef.finished, TypeDef.withDrafts, hy]
  · rw [Routine.method_finished]
    exact hxy
  · rw [hfinished]
    exact hrec.native
  · rw [hfinished]
    exact himpl
  · rw [hfinished]

end Compilation

/-! ### Types that a module knows -/

/-- A module has the type, or the one that it is an array of. -/
def Module.Knows (m : Module) : Ty → Prop
  | .array e => m.Knows e
  | .root d => ∃ x ∈ m.types.toList, x.type = .root d
  | .derived d b => ∃ x ∈ m.types.toList, x.type = .derived d b

theorem Module.knows_iff {m : Module} {t : Ty} (ht : t.isArray = false) : m.Knows t ↔ ∃ x ∈ m.types.toList, x.type = t := by
  cases t with
  | array e => cases ht
  | root d => exact .rfl
  | derived d b => exact .rfl

namespace Compilation

/-- The states that a compilation goes through: types laid out, members declared and delegates described, bodies generated,
    and types finished. -/
structure Stages (p : Program) (c₀ c c₁ c₂ : Compilation) (f : Method → Draft) : Prop where
  described : Described c₀.module.Knows p c₀ c
  generated : Generated c₀.module.Knows c (pairs c.types) f c₁
  finished : c₁.finish = .ok c₂

theorem compile_stages {p : Program} {name runtime : Text} {isCanceled : Bool} {c₂ : Compilation}
    (h : (compile p .dynamic name runtime isCanceled).Gives c₂) :
    ∃ c₀ c c₁ f, (Compilation.generated p (start (Module.new 0 .dynamic name runtime))).Gives c₁ ∧
      Stages p c₀ c c₁ c₂ f := by
  obtain ⟨-, c₁, hgen, hfinish⟩ := compile_gives h
  obtain ⟨c₀, c, -, laid, hgenerate, hdescribed⟩ := generated_described hgen
  have names : ∀ n ∈ p.typeNames, c₀.symbols.Names c₀.module.Knows n := fun n _ => Symbols.names_of_array (fun h => h) _ n
  have described : Described c₀.module.Knows p c₀ c := by
    refine hdescribed (fun {i e} he => ?_) names
    exact (Module.knows_iff (laid.coherent.shaped he).notArray).mpr ⟨e,
        Array.mem_toList_iff.mpr (Array.mem_of_getElem? he), rfl⟩
  obtain ⟨f, hf⟩ := described.generate (fun h => h) names hgenerate
  exact ⟨c₀, c, c₁, f, hgen, described, hf, hfinish⟩

namespace Stages
variable {p : Program} {c₀ c c₁ c₂ : Compilation} {f : Method → Draft} {k : Nat} {d : DeclaredType} {x : Member}

theorem names (_ : Stages p c₀ c c₁ c₂ f) : ∀ n ∈ p.typeNames, c₀.symbols.Names c₀.module.Knows n :=
  fun n _ => Symbols.names_of_array (fun h => h) _ n

/-- The setting in which a member was lowered. -/
abbrev setting (_ : Stages p c₀ c c₁ c₂ f) (x : Member) : Setting := settingOf c₀.module.Knows c x

theorem supplied (h : Stages p c₀ c c₁ c₂ f) (hd : c.types[k]? = some d) (hx : x ∈ d.members) :
    Supplied c₀.module.Knows c d x :=
  h.described.supplied (fun h => h) h.names hd hx

theorem setting_ok (h : Stages p c₀ c c₁ c₂ f) (hd : c.types[k]? = some d) (hx : x ∈ d.members) : (h.setting x).Ok :=
  (h.supplied hd hx).ok

theorem shaped (h : Stages p c₀ c c₁ c₂ f) : c₂.module.Shaped := h.generated.shaped h.described h.finished

theorem types (h : Stages p c₀ c c₁ c₂ f) : c₁.types = c.types := by rw [h.generated.eq]

theorem scopeOf (h : Stages p c₀ c c₁ c₂ f) (x : Member) : c₁.scopeOf x = c.scopeOf x := by
  rw [h.generated.eq]
  exact scopeOf_withDrafts c f _ x

theorem module_id (h : Stages p c₀ c c₁ c₂ f) : c₂.module.id = 0 := by
  obtain ⟨hrest, -⟩ := h.generated.finish h.described h.finished
  rw [hrest, h.generated.eq]
  exact h.described.id

/-! ### The catalog -/

theorem host (h : Stages p c₀ c c₁ c₂ f) {i : Nat} (hi : i < Module.hostCount) :
    c₂.module.types[i]? = hostModule.types[i]? := by
  obtain ⟨-, hfinal, -⟩ := h.generated.finish h.described h.finished
  have hlt : i < hostModule.types.size := by rw [hostModule_size]; exact hi
  have he := Array.getElem?_eq_getElem hlt
  rw [hfinal ((h.described.host i hi).trans he), if_pos hi, he]

theorem host_prefix (h : Stages p c₀ c c₁ c₂ f) : hostModule.types.toList <+: c₂.module.types.toList := by
  refine List.prefix_iff_getElem?.mpr fun i hi => ?_
  rw [Array.length_toList, hostModule_size] at hi
  rw [Array.getElem?_toList, h.host hi, ← Array.getElem?_toList]
  exact List.getElem?_eq_getElem _

/-- The types of the catalog come first, so their names stand for them. -/
theorem type?_host (h : Stages p c₀ c c₁ c₂ f) {n : Text} {t : Ty} (ht : hostModule.type? n = some t) :
    c₂.module.type? n = some t := by
  obtain ⟨rest, hrest⟩ := h.host_prefix
  unfold Module.type? at ht ⊢
  obtain ⟨e, he, rfl⟩ := Option.map_eq_some_iff.mp ht
  rw [← Array.find?_toList] at he ⊢
  rw [← hrest, List.find?_append, he]
  rfl

theorem def?_host (h : Stages p c₀ c c₁ c₂ f) {e : TypeDef} (he : e ∈ hostModule.types.toList) :
    c₂.module.def? e.type = some e := by
  obtain ⟨i, hlt, hi⟩ := hostModule_place he
  exact Module.Shaped.def? h.shaped ((h.host hlt).trans hi)

/-! ### Declared types -/

/-- The definition of a declared type, as finishing leaves it. -/
theorem definition (h : Stages p c₀ c c₁ c₂ f) {e : TypeDef} (he : c.module.types[Module.hostCount + k]? = some e) :
    c₂.module.types[Module.hostCount + k]? = some (e.withDrafts f).finished := by
  obtain ⟨-, hfinal, -⟩ := h.generated.finish h.described h.finished
  rw [hfinal he, if_neg (by omega)]

/-- A delegate's definition has one constructor and `Invoke`, and the runtime implements both. -/
structure DelegateDefined (M : Module) (D : Delegate) (e : TypeDef) (invoke : Method) : Prop where
  definition : M.def? e.type = some e
  type : e.type = D.type
  created : e.isCreated = true
  isDelegate : e.type.isDelegate = true
  noFields : e.fields = #[]
  params : D.ctor.params = [some hostRoles.object, some hostRoles.intPtr]
  owner : D.ctor.owner = e.type
  made : ∃ x, M.routine? D.ctor = some x ∧ x.impl = .runtime ∧ x.native = none
  called : ∃ x, M.routine? invoke = some x ∧ x.method = invoke ∧ x.impl = .runtime ∧ x.native = none
  name : invoke.name = Method.invokeName
  isStatic : invoke.isStatic = false
  only : e.methods.map Routine.method = #[invoke]
  signature : invoke.params = D.params ∧ invoke.ret = D.ret

theorem finished_supplied {y : Routine} (hy : y.Supplied) : (y.withDraft f).finished = y.withDraft f := by
  rw [Routine.finished, if_pos (show (y.withDraft f).impl = .runtime from hy.impl)]

theorem multicast_name : hostRoles.multicastDelegate.name = TypeName.multicastDelegate := by decide +kernel

theorem delegate (h : Stages p c₀ c c₁ c₂ f) {t : Ty} {D : Delegate} (hD : c.symbols.delegate? (some t) = some D) :
    ∃ e invoke, DelegateDefined c₂.module D e invoke := by
  obtain ⟨k, d, e, hk, hdel, -, htype, he, hm⟩ := h.described.delegate_made hD
  obtain ⟨ctor, invoke, hctors, hmethods, hcs, his, -, hparams, hname, hstatic, heq⟩ := hm.routines
  rw [hdel] at heq
  cases heq
  have hdef := h.definition he
  have hshaped := h.shaped hdef
  have ctors : (e.withDrafts f).finished.ctors = #[ctor.withDraft f] := by
    simp [TypeDef.finished, TypeDef.withDrafts, hctors, finished_supplied hcs]
  have methods : (e.withDrafts f).finished.methods = #[invoke.withDraft f] := by
    simp [TypeDef.finished, TypeDef.withDrafts, hmethods, finished_supplied his]
  have found : ∀ {y : Routine}, y.withDraft f ∈ (e.withDrafts f).finished.routines →
      c₂.module.routine? y.method = some (y.withDraft f) := fun hy => Module.Shaped.routine? h.shaped hdef hy
  obtain ⟨htyped, -⟩ := h.described.made hk
  have hsource : ∃ dd, d.source = .delegate dd := by
    cases hs : d.source with
    | delegate dd => exact ⟨dd, rfl⟩
    | «class» cd =>
      obtain ⟨-, e', he', hmade⟩ := h.described.made hk
      simp only [Made, hs] at hmade
      rw [hmade.delegate] at hdel
      cases hdel
  obtain ⟨dd, hsource⟩ := hsource
  refine ⟨(e.withDrafts f).finished, invoke.method, Module.Shaped.def? h.shaped hdef, hm.type, rfl, ?_, hm.fields,
      hparams, ?_, ?_, ?_, hname, hstatic, ?_, rfl, rfl⟩
  · show e.type.isDelegate = true
    have hbase : e.type.base? = some hostRoles.multicastDelegate := by
      rw [hm.type, htyped.base, hsource]
      rfl
    simp [Ty.isDelegate, hbase, multicast_name]
  · exact (hshaped.ctors (k := 0) (x := ctor.withDraft f) (by rw [ctors]; rfl)).1
  · exact ⟨_, found (by rw [TypeDef.routines, ctors]; simp), hcs.impl, hcs.native⟩
  · exact ⟨_, found (by rw [TypeDef.routines, methods]; simp), rfl, his.impl, his.native⟩
  · rw [methods, List.map_toArray]
    rfl

/-- The body of a class's member. -/
structure MemberDefined (M : Module) (D : Draft) (x : Member) (y : Routine) (b : Body) : Prop where
  routine : M.routine? x.method = some y
  method : y.method = x.method
  native : y.native = none
  impl : y.impl ≠ .runtime
  body : y.body = some b
  verified : D.verify (some x.ret) = .ok b

theorem member (h : Stages p c₀ c c₁ c₂ f) (hd : c.types[k]? = some d) (hx : x ∈ d.members) :
    ∃ y b, MemberDefined c₂.module (f x.method) x y b := by
  obtain ⟨-, -, -, hfinishable⟩ := h.generated.finish h.described h.finished
  obtain ⟨cd, e, m, y, hof⟩ := h.described.member hd hx
  have hrec := hof.made.recorded y hof.routine
  have himpl : (y.withDraft f).impl ≠ .runtime := by
    rw [show (y.withDraft f).impl = y.impl from rfl, hrec.impl]
    decide
  have hmem : y.withDraft f ∈ (e.withDrafts f).routines := by
    rw [TypeDef.routines_withDrafts]
    exact List.mem_map_of_mem hof.routine
  have hdraft : (y.withDraft f).draft.verify (y.withDraft f).method.ret = (f x.method).verify (some x.ret) := by
    show (f y.method).verify y.method.ret = _
    rw [hof.method, hof.declares.result]
  obtain ⟨b, hb⟩ : ∃ b, (f x.method).verify (some x.ret) = .ok b := by
    rcases (hfinishable hof.definition).routines _ hmem with hrun | ⟨b, hb⟩
    · exact absurd hrun himpl
    · exact ⟨b, hdraft ▸ hb⟩
  have hfinished : (y.withDraft f).finished = { y.withDraft f with body := some b } := by
    rw [Routine.finished, if_neg himpl, hdraft, hb]
    rfl
  have hfound := Module.Shaped.routine? h.shaped (h.definition hof.definition) (x := (y.withDraft f).finished) (by
    have : (e.withDrafts f).finished.routines = (e.withDrafts f).routines.map Routine.finished := by
      simp [TypeDef.routines, TypeDef.finished]
    rw [this]
    exact List.mem_map_of_mem hmem)
  rw [hfinished] at hfound
  have hfound : c₂.module.routine? y.method = some { y.withDraft f with body := some b } := hfound
  rw [hof.method] at hfound
  exact ⟨_, b, hfound, hof.method, hrec.native, himpl, rfl, hb⟩

/-- The draft of a member, and the code that it is finished to. -/
theorem resolves (h : Stages p c₀ c c₁ c₂ f) (hd : c.types[k]? = some d) (hx : x ∈ d.members) {y : Routine} {b : Body}
    (hm : MemberDefined c₂.module (f x.method) x y b) :
    (h.setting x).Complete (f x.method) ∧ (f x.method).ResolvesTo b.code ∧ b.locals = (f x.method).locals := by
  have hlowered := h.generated.lowered (d, x) (List.mem_flatMap.mpr ⟨d, List.mem_of_getElem? hd, List.mem_map_of_mem hx⟩)
  have hcomplete := Lowered.complete (h.supplied hd hx) hlowered
  refine ⟨hcomplete, ((hcomplete.built h.described.coherent.dynamic).balanced hm.verified).2, ?_⟩
  obtain ⟨l, -, hv⟩ := bind_eq_ok.mp hm.verified
  dsimp only at hv
  split at hv
  · cases hv
  · obtain ⟨_, -, hv⟩ := bind_eq_ok.mp hv
    cases hv
    rfl

end Stages
end Compilation

/-! ### Machines -/

/-- A machine runs the code of one module. -/
structure Machine.Loads (m : Machine) (M : Module) : Prop where
  modules : m.modules = #[M]
  module : m.module = 0
  id : M.id = 0

/-- A machine for a compiled module. -/
def Compilation.machine (c : Compilation) (maxDepth : Nat) : Machine :=
  { modules := #[c.module], module := 0, maxDepth, isCanceled := false }

theorem Compilation.Stages.loads {p : Program} {c₀ c c₁ c₂ : Compilation} {f : Method → Draft} (h : Stages p c₀ c c₁ c₂ f)
    (maxDepth : Nat) : (c₂.machine maxDepth).Loads c₂.module := ⟨rfl, rfl, h.module_id⟩

namespace Machine.Loads
variable {m : Machine} {M : Module}

theorem def? (h : m.Loads M) (t : Ty) : m.def? t = M.def? t := by
  unfold Machine.def?
  rw [h.modules]
  by_cases ht : t.module = 0
  · rw [ht]
    rfl
  · have hnone : M.def? t = none := by
      cases hd : M.def? t with
      | none => rfl
      | some d =>
        rw [h.id.symm] at ht
        exact absurd (Module.def?_some hd).2.2 ht
    rw [hnone, Array.getElem?_eq_none (by simp; omega)]
    rfl

theorem routine? (h : m.Loads M) (r : Method) : m.routine? r = M.routine? r := by
  have hdef := h.def? r.owner
  unfold Machine.routine?
  unfold Machine.def? at hdef
  unfold Module.routine?
  rw [← hdef]
  cases m.modules[r.owner.module]? with
  | none => rfl
  | some x => rfl

theorem hostType (h : m.Loads M) {n : Text} {t : Ty} (ht : M.type? n = some t) : m.hostType 0 n = t := by
  unfold Machine.hostType
  rw [h.modules]
  simp [ht]

end Machine.Loads
end CilCompiler
