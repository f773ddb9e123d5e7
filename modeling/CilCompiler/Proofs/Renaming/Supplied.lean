import CilCompiler.Proofs.Renaming.Lowering
import CilCompiler.Proofs.Renaming.Prepared
import CilCompiler.Proofs.StackBalance

/-! Bodies of compilations that are alike. What lowering a body relies on in one of them it can rely on in the other,
    so the members of a program can be lowered into a listing as they can into a module that is run
    (`prepared_supplied`). -/

namespace CilCompiler

variable {ρ : Renaming}

/-- Renaming twice changes nothing. -/
def Renaming.Involutive (ρ : Renaming) : Prop := ∀ t, ρ.ty (ρ.ty t) = t

/-- A kind of types that does not depend on how types are called apart. -/
def Renaming.Keeps (ρ : Renaming) (P : Ty → Prop) : Prop := ∀ t, P (ρ.ty t) ↔ P t

/-- Types of one kind are renamed to types of another, and no others are. -/
def Renaming.Carries (ρ : Renaming) (P Q : Ty → Prop) : Prop := ∀ t, Q (ρ.ty t) ↔ P t

theorem Symbols.Entered.all {s s' : Symbols} {P Q : Ty → Prop} (hP : ρ.Carries P Q) (h : s.Entered ρ s') :
    s'.All Q ↔ s.All P := by
  constructor
  · intro ha k t hk
    exact (hP t).mp (ha (k := k) (by rw [h.types, hk]; rfl))
  · intro ha k t hk
    rw [h.types] at hk
    obtain ⟨u, hu, rfl⟩ := Option.map_eq_some_iff.mp hk
    exact (hP u).mpr (ha hu)

/-- Names stand for types of a kind on both sides. -/
theorem Symbols.Entered.names {s s' : Symbols} {P Q : Ty → Prop} {n : Text} (hP : ρ.Carries P Q) (hi : ρ.Involutive)
    (h : s.Entered ρ s')
    (hn : s.Names P n) : s'.Names Q n := by
  intro s₁' s₂' t' hg ha hl
  -- The renamed table has what was added as well.
  let s₁ : Symbols := { s with types := ⟨s₁'.types.entries.map fun e => (e.1, ρ.ty e.2)⟩ }
  have hget : ∀ k, s₁.types.get? k = (s₁'.types.get? k).map ρ.ty := by
    intro k
    simp only [s₁, Table.get?, List.find?_map, Option.map_map]
    rfl
  have hentered : s₁.Entered ρ s₁' := by
    refine ⟨hg.aliases.trans h.aliases, fun k => ?_⟩
    rw [hget, Option.map_map]
    cases s₁'.types.get? k with
    | none => rfl
    | some t => exact congrArg some (hi t).symm
  have hgrown : s.Grown s₁ := by
    refine ⟨rfl, fun {k t} hk => ?_, fun {k t} hk => ?_⟩
    · rw [hget, hg.kept (by rw [h.types, hk]; rfl : s'.types.get? k = some (ρ.ty t)), Option.map_some, hi]
    · rw [hget] at hk
      obtain ⟨u, hu, rfl⟩ := Option.map_eq_some_iff.mp hk
      rcases hg.added hu with hold | harr
      · rw [h.types] at hold
        obtain ⟨v, hv, rfl⟩ := Option.map_eq_some_iff.mp hold
        rw [hi]
        exact .inl hv
      · exact .inr (by rw [Renaming.isArray_ty, harr])
  obtain ⟨⟨t, s₂⟩, hl, ht, h₂⟩ := (hentered.lookup n).of_ok_right hl
  obtain ⟨hPt, ha₂⟩ := hn s₁ s₂ t hgrown ((hentered.all hP).mp ha) hl
  exact ⟨by rw [show t' = ρ.ty t from ht]; exact (hP t).mpr hPt, (h₂.all hP).mpr ha₂⟩

/-- A renamed definition mentions renamed types only. -/
theorem TypeDef.Admitted.renamed {P Q : Ty → Prop} {d : TypeDef} (h : d.Admitted P) (hP : ρ.Carries P Q) :
    (ρ.typeDef d).Admitted Q where
  type := (hP _).mpr h.type
  fields f hf := by
    rw [Renaming.fields_typeDef, Array.toList_map] at hf
    obtain ⟨g, hg, rfl⟩ := List.mem_map.mp hf
    obtain ⟨t, ht, hPt, hv⟩ := h.fields g hg
    exact ⟨ρ.ty t, by simp [Renaming.field, ht], (hP _).mpr hPt, by rw [Renaming.isVoid_ty, hv]⟩
  results x hx := by
    rw [Renaming.routines_typeDef] at hx
    obtain ⟨y, hy, rfl⟩ := List.mem_map.mp hx
    obtain ⟨t, ht, hPt⟩ := h.results y hy
    exact ⟨ρ.ty t, by simp [Renaming.routine, ht], (hP _).mpr hPt⟩
  params x hx q hq := by
    rw [Renaming.routines_typeDef] at hx
    obtain ⟨y, hy, rfl⟩ := List.mem_map.mp hx
    have hq : q ∈ (ρ.method y.method).params := hq
    rw [Renaming.params_method] at hq
    obtain ⟨q', hq', rfl⟩ := List.mem_map.mp hq
    obtain ⟨t, rfl, hPt, hv⟩ := h.params y hy q' hq'
    exact ⟨ρ.ty t, rfl, (hP _).mpr hPt, by rw [Renaming.isVoid_ty, hv]⟩

namespace Compilation.Alike
variable {P Q : Ty → Prop} {c c' : Compilation} {d : DeclaredType} {x : Member}

theorem scopeOf_args (c c' : Compilation) (x : Member) : (c'.scopeOf (ρ.member x)).args = (c.scopeOf x).args.map ρ.ty := by
  unfold Scope.args
  rw [scopeOf_params ρ c c' x]
  have hstatic : (c'.scopeOf (ρ.member x)).isStatic = (c.scopeOf x).isStatic := rfl
  have howner : (c'.scopeOf (ρ.member x)).owner = ρ.ty (c.scopeOf x).owner := rfl
  rw [hstatic, howner]
  cases (c.scopeOf x).isStatic <;> simp

variable (hP : ρ.Carries P Q) (hi : ρ.Involutive) (h : c.Alike ρ c')
include hP hi h

/-- A setting is as sound as the renamed one. -/
theorem setting_ok (hρ : ρ.Still) (hok : (settingOf P c x).Ok) : (settingOf Q c' (ρ.member x)).Ok := by
  have fields : ∀ {t : Ty} {f : Field}, f ∈ c'.symbols.fieldsOf t → ∃ u g, g ∈ c.symbols.fieldsOf u ∧ f = ρ.field g := by
    intro t f hf
    rw [← hi t, h.symbols.fields trivial] at hf
    obtain ⟨g, hg, rfl⟩ := List.mem_map.mp hf
    exact ⟨_, g, hg, rfl⟩
  have methods : ∀ {t : Ty} {m : Method}, m ∈ c'.symbols.allMethods (ρ.ty t) →
      ∃ r ∈ c.symbols.allMethods t, m = ρ.method r := by
    intro t m hm
    rw [h.symbols.methods trivial] at hm
    obtain ⟨r, hr, rfl⟩ := List.mem_map.mp hm
    exact ⟨r, hr, rfl⟩
  have ctors : ∀ {t : Ty} {m : Method}, m ∈ c'.symbols.ctorsOf (ρ.ty t) → ∃ r ∈ c.symbols.ctorsOf t, m = ρ.method r := by
    intro t m hm
    rw [h.symbols.ctors trivial] at hm
    obtain ⟨r, hr, rfl⟩ := List.mem_map.mp hm
    exact ⟨r, hr, rfl⟩
  have holds : ∀ {t : Ty}, (settingOf P c x).Holds t → (settingOf Q c' (ρ.member x)).Holds (ρ.ty t) :=
    fun ht => ⟨(hP _).mpr ht.admits, by rw [Renaming.isVoid_ty]; exact ht.notVoid⟩
  have element : ∀ {e : Ty}, Q (.array e) → Q e := by
    intro e he
    rw [← hi e] at he ⊢
    exact (hP _).mpr (hok.element ((hP (.array (ρ.ty e))).mp he))
  have hroles : (settingOf Q c' (ρ.member x)).scope.roles = ρ.roles (settingOf P c x).scope.roles := h.roles
  refine {
    int32 := by rw [hroles]; exact (ρ.name_ty _).trans hok.int32
    boolean := by rw [hroles]; exact (ρ.name_ty _).trans hok.boolean
    string := by rw [hroles]; exact (ρ.name_ty _).trans hok.string
    roles := by rw [hroles]; exact ⟨(hP _).mpr hok.roles.1, (hP _).mpr hok.roles.2.1, (hP _).mpr hok.roles.2.2⟩
    element := element
    owner := holds hok.owner
    ownerObject := (ρ.isValue_ty _).trans hok.ownerObject
    ret := (hP _).mpr hok.ret
    ctor := hok.ctor
    arg := fun {n i t} hp => ?_
    field := fun {t f} hf => ?_
    ret? := fun {t m} hm => ?_
    params := fun {t m} hm q hq => ?_
    constructed := fun {t m} hm => ?_
    delegate := fun {t D} hD => ?_
    concat := fun {m} hm hn => ?_ }
  · have hp : (n, i, t) ∈ (c'.scopeOf (ρ.member x)).params := hp
    rw [scopeOf_params ρ c c' x] at hp
    obtain ⟨⟨n', i', t'⟩, hmem, he⟩ := List.mem_map.mp hp
    cases he
    obtain ⟨harg, ht⟩ := hok.arg hmem
    refine ⟨?_, holds ht⟩
    show (c'.scopeOf (ρ.member x)).args[i']? = _
    rw [scopeOf_args c c' x, List.getElem?_map]
    exact congrArg (Option.map ρ.ty) harg
  · obtain ⟨u, g, hg, rfl⟩ := fields hf
    obtain ⟨v, hv, hh⟩ := hok.field hg
    exact ⟨ρ.ty v, by simp [Renaming.field, hv], holds hh⟩
  · rw [← hi t] at hm
    obtain ⟨r, hr, rfl⟩ := methods hm
    obtain ⟨v, hv, hPv⟩ := hok.ret? hr
    exact ⟨ρ.ty v, by simp [hv], (hP _).mpr hPv⟩
  · have known : ∃ r, m = ρ.method r ∧ (r ∈ c.symbols.allMethods (ρ.ty t) ∨ r ∈ c.symbols.ctorsOf (ρ.ty t) ∨
        r ∈ (c.scopeOf x).ctorsOf (ρ.ty t)) := by
      rw [← hi t] at hm
      rcases hm with hm | hm | hm
      · obtain ⟨r, hr, rfl⟩ := methods hm
        exact ⟨r, rfl, .inl hr⟩
      · obtain ⟨r, hr, rfl⟩ := ctors hm
        exact ⟨r, rfl, .inr (.inl hr)⟩
      · have hm : m ∈ c'.module.ctors (ρ.ty (ρ.ty t)) .instances := hm
        rw [(h.module.local hρ).ctors trivial] at hm
        obtain ⟨r, hr, rfl⟩ := List.mem_map.mp hm
        exact ⟨r, rfl, .inr (.inr hr)⟩
    obtain ⟨r, rfl, hr⟩ := known
    rw [Renaming.params_method] at hq
    obtain ⟨q', hq', rfl⟩ := List.mem_map.mp hq
    obtain ⟨v, rfl, hh⟩ := hok.params hr q' hq'
    exact ⟨ρ.ty v, rfl, holds hh⟩
  · rw [← hi t] at hm ⊢
    obtain ⟨r, hr, rfl⟩ := ctors hm
    rw [Renaming.isVoid_ty]
    exact hok.constructed hr
  · have hD : c'.symbols.delegates.get? (Symbols.key t.name) = some D := hD
    rw [h.symbols.delegates] at hD
    obtain ⟨D', hD', rfl⟩ := Option.map_eq_some_iff.mp hD
    obtain ⟨hv, hlen⟩ := hok.delegate (t := t) hD'
    exact ⟨hv, by simp [Renaming.delegate, hlen]⟩
  · rw [hroles] at hm ⊢
    obtain ⟨r, hr, rfl⟩ := methods hm
    rw [Renaming.ret_method, hok.concat hr (by rwa [Renaming.name_method] at hn)]
    rfl

/-- What a member of one compilation is supplied with, the renamed member of the other one is. -/
theorem supplied (hρ : ρ.Still) (hs : Supplied P c d x) : Supplied Q c' (ρ.declaredType d) (ρ.member x) := by
  have named : ∀ {n : Text}, (settingOf P c x).Named n → (settingOf Q c' (ρ.member x)).Named n :=
    fun hn => h.symbols.names.names hP hi hn
  refine ⟨setting_ok hP hi h hρ hs.ok, fun n hmem => named (hs.names n hmem), fun z hz => ?_⟩
  obtain ⟨y, hy, rfl⟩ := List.mem_map.mp hz
  obtain ⟨⟨hadm, t, ht, hf⟩, hst, hnames⟩ := hs.inits y hy
  refine ⟨⟨(hP _).mpr hadm, ρ.ty t, ?_, ?_⟩, hst, fun n hmem => named (hnames n hmem)⟩
  · show ρ.ty t ∈ Ty.lineage c'.roles.object (ρ.ty x.method.owner)
    rw [h.roles]
    exact (Renaming.lineage_ty ρ c.roles.object x.method.owner) ▸ List.mem_map_of_mem ht
  · show ρ.field y.1 ∈ c'.symbols.fieldsOf (ρ.ty t)
    rw [h.symbols.fields trivial]
    exact List.mem_map_of_mem hf

end Compilation.Alike

/-! ### Lowering -/

/-- Work that starts from nothing. -/
theorem Symbols.Local.work {K : Symbols → Symbols → Prop} {s s' : Symbols} (h : s.Local ρ K (fun _ => True) s') :
    ({ symbols := s } : Work).Matched ρ.whole K { symbols := s' } where
  names := h.names
  members := by
    refine ⟨fun _ => h.fields trivial, fun _ => h.methods trivial, fun _ => h.ctors trivial, fun t => ?_⟩
    cases t with
    | none => rfl
    | some t =>
      show s'.delegates.get? (Symbols.key (ρ.ty t).name) = _
      rw [h.delegates, Renaming.name_ty]
      rfl
  draft := by simp [Renaming.whole, Renaming.draft]
  locals := rfl

namespace Compilation
variable {V : Text → Prop} {K : Symbols → Symbols → Prop} {c c' : Compilation} {b : Backend}

theorem Local.site (hρ : ρ.Distinct) (h : c.Local ρ K (fun _ => True) c') (hb : c'.module.backend = b) (x : Member) :
    ((c.scopeOf x).site.on b).Matched ρ.whole (c'.scopeOf (ρ.member x)).site where
  distinct := hρ.method
  backend := hb
  isSealed := h.module.isCreated (t := x.method.owner) trivial
  method := rfl
  owner := rfl
  isStatic := rfl
  isCtor := rfl
  ret := rfl
  args n _ := by
    show ((ρ.method x.method).argCount ≤ n ↔ _)
    rw [Renaming.argCount_method]
    rfl

/-- The setting of a renamed member's body, in a module of the other's kind. -/
theorem Local.scope (hρ : ρ.Distinct) (h : c.Local ρ K (fun _ => True) c') (hb : c'.module.backend = b) (x : Member) :
    ((c.scopeOf x).on b).Matched ρ.whole (c'.scopeOf (ρ.member x)) where
  site := h.site hρ hb x
  roles := h.roles
  ret := rfl
  param? n _ := by
    show (c'.scopeOf (ρ.member x)).param? n = ((c.scopeOf x).param? n).map _
    rw [Scope.param?, scopeOf_params ρ c c' x, List.find?_map, Option.map_map, Scope.param?, Option.map_map]
    rfl
  args _ _ _ _ := trivial
  ctorsOf _ := h.module.ctors trivial .instances

/-- The body of a renamed member is lowered in the same way, where it is known of its identifiers what they are
    entered for. -/
theorem lowering_agrees (hK : ρ.Naming V K) {d : DeclaredType} {x : Member} (hi : ∀ z ∈ d.inits, ∀ n ∈ z.2.identifiers, V n)
    (hb : ∀ n ∈ Stmt.identifiersAll x.body, V n) :
    Lower.Agrees ρ.whole K Eq (lowering d x) (lowering (ρ.declaredType d) (ρ.member x)) := by
  unfold lowering
  refine .ite Iff.rfl (fun _ => ?_) fun _ => ?_
  · exact .constructor (Matching.whole ρ) hK hi hb
  · exact .statements (Matching.whole ρ) hK hb

end Compilation

/-! ### Listings -/

/-- The renaming between a module that can be run and a listing with its catalog in an assembly. -/
def Renaming.listed (runtime : Text) : Renaming :=
  .rehost Host.defaultAssembly (if runtime.isEmpty then Host.defaultAssembly else runtime)

namespace Renaming
variable (runtime : Text)

theorem listed_involutive : (listed runtime).Involutive := rehost_ty_twice

theorem listed_default : (listed runtime).ty default = default := by
  have hassembly : Host.defaultAssembly ≠ .empty := by decide
  refine rehost_default hassembly ?_
  split
  · exact hassembly
  · rename_i hne
    intro he
    rw [he] at hne
    exact hne rfl

end Renaming

/-- A listing starts like a module that can be run. -/
theorem Module.new_began (name runtime : Text) :
    (Module.new 0 .dynamic name runtime).Began (.listed runtime) (Module.new 0 .textual name runtime) where
  alike := new_alike name runtime runtime
  defines d hd ha := by
    rw [show (Renaming.listed runtime).declared d = d from Renaming.rehost_declared hd]
    obtain ⟨module, index, assembly, name', isValue⟩ := d
    cases ha
    rfl
  size := Nat.le_of_eq Compilation.hostModule_size.symm

namespace Compilation
variable {P Q : Ty → Prop} {p : Program} {name runtime : Text} {c₀ c c' : Compilation}

/-- The passes before bodies do the same in a listing. -/
theorem prepared_listed (p : Program) (name runtime : Text) : Logged.Agrees (Alike (.listed runtime))
    (prepared p (start (Module.new 0 .dynamic name runtime))) (prepared p (start (Module.new 0 .textual name runtime))) :=
  prepared_alike Renaming.rehost_still (Renaming.listed_default runtime) (Module.new_began name runtime)
    Renaming.rehost_distinct
    (Module.bodied_new (Q := (· = {})) rfl 0 .dynamic name runtime) p

/-- A name stands for the same type in a listing, up to renaming. -/
theorem typeNamed?_listed (n : Text) : typeNamed? p (start (Module.new 0 .textual name runtime)) n =
    (typeNamed? p (start (Module.new 0 .dynamic name runtime)) n).map (Renaming.listed runtime).ty := by
  have hlaid := laidOut_alike Renaming.rehost_still (Renaming.listed_default runtime)
    (Module.new_began name runtime) p
  unfold typeNamed?
  generalize laidOut p (start (Module.new 0 .dynamic name runtime)) = x at hlaid ⊢
  generalize laidOut p (start (Module.new 0 .textual name runtime)) = y at hlaid ⊢
  cases hlaid with
  | error _ => rfl
  | @ok c c' hc =>
    have hl := hc.1.symbols.names.lookup n
    dsimp only
    generalize c.symbols.lookup n = x at hl ⊢
    generalize c'.symbols.lookup n = y at hl ⊢
    cases hl with
    | error _ => rfl
    | ok h => exact congrArg some h.1

/-- The members of a program have been declared, and their bodies can be lowered. -/
structure Provided (P : Ty → Prop) (c : Compilation) : Prop where
  ready : c.Ready
  admits : c.symbols.All P
  admitted : ∀ {i : Nat} {e : TypeDef}, c.module.types[i]? = some e → e.Admitted P
  supplied : ∀ y ∈ pairs c.types, Supplied P c y.1 y.2

theorem Described.provided (h : Described P p c₀ c) (hready : c.Ready) (helem : ∀ {e : Ty}, P (.array e) → P e)
    (hn : ∀ n ∈ p.typeNames, c₀.symbols.Names P n) : Provided P c where
  ready := hready
  admits := h.admits
  admitted := h.admitted
  supplied y hy := by
    obtain ⟨hd, hx⟩ := mem_pairs.mp hy
    obtain ⟨k, hk⟩ := List.mem_iff_getElem?.mp hd
    exact h.supplied helem hn hk hx

theorem pairs_renamed (ds : List DeclaredType) :
    pairs (ds.map ρ.declaredType) = (pairs ds).map fun y => (ρ.declaredType y.1, ρ.member y.2) := by
  simp [pairs, Renaming.declaredType, List.flatMap_map, List.map_flatMap, Function.comp_def]

theorem Provided.alike (h : Provided P c) (ha : c.Alike ρ c') (hready : c'.Ready) (hP : ρ.Carries P Q) (hi : ρ.Involutive)
    (hρ : ρ.Still) : Provided Q c' where
  ready := hready
  admits := (ha.symbols.names.all hP).mpr h.admits
  admitted {i e} he := by
    rw [ha.module.types, Array.getElem?_map] at he
    obtain ⟨e', he', rfl⟩ := Option.map_eq_some_iff.mp he
    exact (h.admitted he').renamed hP
  supplied y hy := by
    rw [ha.types, pairs_renamed] at hy
    obtain ⟨z, hz, rfl⟩ := List.mem_map.mp hy
    exact ha.supplied hP hi hρ (h.supplied z hz)

/-- Whatever a program is compiled into, its members can be lowered. -/
theorem prepared_provided {backend : Backend} (h : (prepared p (start (Module.new 0 backend name runtime))).Gives c)
    (hP : ∀ ρ : Renaming, ρ.Keeps P) (helem : ∀ {e : Ty}, P (.array e) → P e)
    (hlaid : ∀ {c₀ : Compilation}, laidOut p (start (Module.new 0 .dynamic name runtime)) = .ok c₀ → c₀.Laid p.sources →
      (∀ {i : Nat} {e : TypeDef}, c₀.module.types[i]? = some e → P e.type) ∧ ∀ n ∈ p.typeNames, c₀.symbols.Names P n) :
    Provided P c := by
  have run : ∀ {c : Compilation}, (prepared p (start (Module.new 0 .dynamic name runtime))).Gives c → Provided P c := by
    intro c h
    obtain ⟨c₀, hc₀, laid, hdescribed⟩ := prepared_described h
    obtain ⟨hdefs, hn⟩ := hlaid hc₀ laid
    exact (hdescribed hdefs hn).provided (prepared_ready h) helem hn
  cases backend with
  | dynamic => exact run h
  | textual =>
    obtain ⟨c₁, h₁, halike⟩ := (prepared_listed p name runtime).gives_right h
    exact (run h₁).alike halike (prepared_ready h) (hP _) (Renaming.listed_involutive runtime) Renaming.rehost_still

theorem Provided.recordable (h : Provided P c) : Recordable (fun s => c.symbols.Extends s ∧ s.All P) c (pairs c.types) := by
  refine ⟨h.ready.blank, h.ready.has, h.ready.distinct, fun y hy s hs b w hl => ?_⟩
  obtain ⟨hreads, -, -⟩ := lowering_complete (h.supplied y hy) hs.1 hs.2 hl
  exact ⟨hreads.grown, hreads.admits⟩

/-- The body of every member is recorded as lowering leaves it. -/
theorem Provided.generate (h : Provided P c) (hg : c.generate.Gives c') : ∃ f, Generated P c (pairs c.types) f c' := by
  obtain ⟨f, hr⟩ := generate_recorded h.recordable ⟨.refl _, h.admits⟩ hg
  exact ⟨f, hr.generated⟩

end Compilation
end CilCompiler
