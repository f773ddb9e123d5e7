import CilCompiler.Proofs.Compilation.Declared
import CilCompiler.Proofs.Compilation.Host
import CilCompiler.Proofs.Compilation.Outcomes

/-!
The passes that come before bodies. Types are defined first, in the order of the program's sources and behind
those of the catalog; then their members are declared, an entry point is looked for, and delegates are
described. `Described` is all that later passes and running code rely on.
-/

namespace CilCompiler

/-- What a program declares, delegates first. -/
def Program.sources (p : Program) : List Declaration := p.delegates.map .delegate ++ p.classes.map .class

/-- The base that a source's type is given. -/
def Declaration.base? (roles : Roles) : Declaration → Option Ty
  | .delegate _ => some roles.multicastDelegate
  | .class _ => none

/-- A type that is made for a source. -/
structure Declaration.TypedBy (src : Declaration) (t : Ty) : Prop where
  name : t.name = src.name
  isValue : t.isValue = false
  base : t.base? = src.base? hostRoles
  notArray : t.isArray = false

theorem TypeDef.shaped_blank {t : Ty} {attrs : TypeAttributes} {id i : Nat} (ha : t.isArray = false) (hm : t.module = id)
    (hi : t.declared.index = i) : TypeDef.Shaped id i { type := t, attrs } :=
  ⟨ha, hm, hi, fun hf => by simp at hf, rfl, fun hx => by simp at hx, fun hx => by simp at hx⟩

namespace Compilation
variable {c c' : Compilation}

/-! ### Defining types -/

/-- A type of a new name may be added. -/
theorem Coherent.define (h : c.Coherent) {t : Ty} {attrs : TypeAttributes} {declared : List Ty} {types : List DeclaredType}
    (hnew : c.symbols.hasType t.name = false)
    (hshaped : TypeDef.Shaped c.module.id c.module.types.size { type := t, attrs }) :
    ({ c with module := { c.module with types := c.module.types.push { type := t, attrs } },
              symbols := { c.symbols with types := c.symbols.types.put (Symbols.key t.name) t, declared },
                types }).Coherent := by
  unfold Symbols.hasType at hnew
  rw [Bool.or_eq_false_iff] at hnew
  have hfree := Table.get?_eq_none_of_has hnew.1
  have fresh : ∀ {i : Nat} {d : TypeDef}, c.module.types[i]? = some d → Symbols.key t.name ≠ Symbols.key d.type.name := by
    intro i d hd hk
    have := h.entered hd
    rw [← hk, hfree] at this
    cases this
  have noMembers : ¬(c.symbols.fieldsOf t ≠ [] ∨ c.symbols.allMethods t ≠ [] ∨ c.symbols.ctorsOf t ≠ []) := by
    intro hm
    obtain ⟨i, d, hd, hk⟩ := h.owned hm
    exact fresh hd hk.symm
  have old : ∀ {i : Nat} {d : TypeDef}, c.module.types[i]? = some d →
      (c.module.types.push { type := t, attrs })[i]? = some d := by
    intro i d hd
    have hlt := (Array.getElem?_eq_some_iff.mp hd).1
    rw [Array.getElem?_push, if_neg (by omega)]
    exact hd
  have cases : ∀ {i : Nat} {d : TypeDef}, (c.module.types.push { type := t, attrs })[i]? = some d →
      i = c.module.types.size ∧ d = { type := t, attrs } ∨ c.module.types[i]? = some d := by
    intro i d hd
    rw [Array.getElem?_push] at hd
    split at hd
    · cases hd
      exact .inl ⟨‹_›, rfl⟩
    · exact .inr hd
  refine ⟨h.dynamic, fun {i d} hd => ?_, ?_, fun {i d} hd => ?_, fun {i d} hd => ?_, fun {k u} hk hu => ?_,
    fun {i d} hd => ?_, fun {u} hu => ?_⟩
  · rcases cases hd with ⟨rfl, rfl⟩ | hd
    · exact hshaped
    · exact h.shaped hd
  · have hv := h.void
    unfold Module.type? at hv ⊢
    obtain ⟨d, hd, ht⟩ := Option.map_eq_some_iff.mp hv
    show Option.map TypeDef.type ((c.module.types.push { type := t, attrs }).find? _) = _
    rw [Array.find?_push, hd, Option.some_or, Option.map_some, ht]
  · show (c.symbols.types.put (Symbols.key t.name) t).get? _ = _
    rw [Table.get?_put]
    rcases cases hd with ⟨rfl, rfl⟩ | hd
    · rw [if_pos rfl]
    · rw [if_neg (fresh hd)]
      exact h.entered hd
  · rcases cases hd with ⟨rfl, rfl⟩ | hd
    · exact Table.get?_eq_none_of_has hnew.2
    · exact h.unaliased hd
  · have hk : (c.symbols.types.put (Symbols.key t.name) t).get? k = some u := hk
    rw [Table.get?_put] at hk
    split at hk
    · rename_i hkey
      cases hk
      refine ⟨hkey.symm, c.module.types.size, { type := t, attrs }, ?_, rfl⟩
      show (c.module.types.push _)[c.module.types.size]? = _
      simp
    · obtain ⟨hkey, i, d, hd, ht⟩ := h.known hk hu
      exact ⟨hkey, i, d, old hd, ht⟩
  · rcases cases hd with ⟨rfl, rfl⟩ | hd
    · simp only [not_or, not_not] at noMembers
      exact ⟨noMembers.1, noMembers.2.1, noMembers.2.2⟩
    · exact ⟨(h.lists hd).fields, (h.lists hd).methods, (h.lists hd).ctors⟩
  · obtain ⟨i, d, hd, hkey⟩ := h.owned hu
    exact ⟨i, d, old hd, hkey⟩

/-- Types are defined for sources, and have no members yet. -/
structure Laid (sources : List Declaration) (c : Compilation) : Prop where
  coherent : c.Coherent
  roles : c.roles = hostRoles
  id : c.module.id = 0
  entry : c.entry = none ∧ c.module.entry = none
  host : ∀ i < Module.hostCount, c.module.types[i]? = hostModule.types[i]?
  size : c.module.types.size = Module.hostCount + sources.length
  aliases : c.symbols.aliases = hostSymbols.aliases
  delegates : c.symbols.delegates = {}
  plain : ∀ {k : Text} {t : Ty}, c.symbols.types.get? k = some t → t.isArray = false
  sources : c.types.map DeclaredType.source = sources
  blank : ∀ {k : Nat} {d : DeclaredType}, c.types[k]? = some d → d = { type := d.type, source := d.source } ∧
    d.source.TypedBy d.type ∧ ∃ attrs, c.module.types[Module.hostCount + k]? = some { type := d.type, attrs }

theorem hostModule_size : hostModule.types.size = Module.hostCount := by decide +kernel

theorem hostModule_place {d : TypeDef} (hd : d ∈ hostModule.types.toList) :
    ∃ i < Module.hostCount, hostModule.types[i]? = some d := by
  obtain ⟨i, hi⟩ := Array.mem_iff_getElem?.mp (Array.mem_toList_iff.mp hd)
  exact ⟨i, hostModule_size ▸ (Array.getElem?_eq_some_iff.mp hi).1, hi⟩

theorem hostSymbols_delegates : hostSymbols.delegates = {} := by
  have empty : hostSymbols.delegates.entries = [] := List.isEmpty_iff.mp (by decide +kernel)
  cases hd : hostSymbols.delegates with
  | mk entries =>
    rw [hd] at empty
    rw [show entries = [] from empty]

theorem laid_host (name : Text) : Laid [] (hostCompilation name) := by
  refine ⟨hostCompilation_coherent name, rfl, rfl, ⟨rfl, rfl⟩, fun i _ => rfl, ?_, rfl, ?_, fun {k t} ht => ?_, rfl,
    fun hd => by cases hd⟩
  · rw [List.length_nil, Nat.add_zero]
    exact hostModule_size
  · simp only [hostCompilation]
    exact hostSymbols_delegates
  · have plain : ∀ e ∈ hostSymbols.types.entries, e.2.isArray = false := by decide +kernel
    exact plain _ (Table.mem_of_get? ht)

theorem Laid.defineType {sources : List Declaration} {src : Declaration} {attrs : TypeAttributes} (h : c.Laid sources)
    (hd : c.defineType src attrs (src.base? hostRoles) = .ok c') : c'.Laid (sources ++ [src]) := by
  unfold Compilation.defineType at hd
  dsimp only at hd
  split at hd
  · cases hd
  split at hd
  · cases hd
  rename_i hnew
  obtain ⟨⟨t, m⟩, h1, hd⟩ := bind_eq_ok.mp hd
  obtain ⟨s, h2, hd⟩ := bind_eq_ok.mp hd
  cases hd
  obtain ⟨hname, hvalue, hbase, harray, hm, hi, rfl⟩ := Module.defineType_ok h1
  have ht : src.TypedBy t := ⟨hname, hvalue, hbase, harray⟩
  obtain ⟨_, -, h2⟩ := bind_eq_ok.mp h2
  split at h2
  · cases h2
  cases h2
  have hnew : c.symbols.hasType t.name = false := by
    rw [ht.name]
    simpa using hnew
  have hlen : c.types.length = sources.length := by
    rw [← h.sources, List.length_map]
  refine ⟨h.coherent.define hnew (TypeDef.shaped_blank ht.notArray hm hi), h.roles, h.id, h.entry,
      fun i hi => ?_, ?_, h.aliases,
    h.delegates, fun {k u} hu => ?_, ?_, fun {k d} hd => ?_⟩
  · show (c.module.types.push _)[i]? = _
    rw [Array.getElem?_push, if_neg (by have := h.size; omega)]
    exact h.host i hi
  · show (c.module.types.push _).size = _
    rw [Array.size_push, h.size, List.length_append]
    simp only [List.length_singleton]
    omega
  · have hu : (c.symbols.types.put (Symbols.key t.name) t).get? k = some u := hu
    rw [Table.get?_put] at hu
    split at hu
    · cases hu
      exact ht.notArray
    · exact h.plain hu
  · show (c.types ++ [_]).map _ = _
    rw [List.map_append, h.sources]
    rfl
  · have hd : (c.types ++ [{ type := t, source := src }])[k]? = some d := hd
    rw [List.getElem?_append] at hd
    show _ ∧ _ ∧ ∃ a, (c.module.types.push _)[Module.hostCount + k]? = _
    rw [Array.getElem?_push, h.size]
    split at hd
    · rw [if_neg (by omega)]
      exact h.blank hd
    · rename_i hk
      have hk0 : k - c.types.length = 0 := by
        have := (List.getElem?_eq_some_iff.mp hd).1
        simp only [List.length_singleton] at this
        omega
      rw [hk0] at hd
      cases hd
      rw [if_pos (by omega)]
      exact ⟨rfl, ht, attrs, rfl⟩

theorem Laid.defineTypes {p : Program} (h : c.Laid []) (hd : c.defineTypes p = .ok c') : c'.Laid p.sources := by
  have fold : ∀ {α : Type} (f : α → Declaration) (attrs : TypeAttributes) (base : Compilation → Option Ty) (l : List α)
      {sources : List Declaration} {c c' : Compilation},
        (∀ a ∈ l, ∀ c : Compilation, c.roles = hostRoles → base c = (f a).base? hostRoles) →
      c.Laid sources → l.foldlM (fun c a => c.defineType (f a) attrs (base c)) c = .ok c' →
        c'.Laid (sources ++ l.map f) := by
    intro α f attrs base l
    induction l with
    | nil =>
      intro sources c c' _ h hd
      cases hd
      simpa using h
    | cons a l ih =>
      intro sources c c' hb h hd
      obtain ⟨c₁, h1, h2⟩ := foldlM_cons_ok hd
      rw [hb a List.mem_cons_self c h.roles] at h1
      have := ih (fun x hx => hb x (List.mem_cons_of_mem _ hx)) (h.defineType h1) h2
      simpa using this
  obtain ⟨c₁, h1, h2⟩ := bind_eq_ok.mp hd
  have hdelegates := fold Declaration.delegate .delegates (fun c => some c.roles.multicastDelegate) p.delegates
    (fun a _ c hc => by rw [hc]; rfl) h h1
  exact fold Declaration.class .classes (fun _ => none) p.classes (fun a _ c _ => rfl) hdelegates h2

/-! ### Declaring members -/

/-- The place of a declared type's definition. -/
abbrev index (d : DeclaredType) : Nat := d.type.declared.index

/-- Members of some types have been declared: they are in the definitions of these types, and other definitions
    are as they were. -/
structure Filled (P : Ty → Prop) (s : Symbols) (c : Compilation) (ds ds' : List DeclaredType)
    (c' : Compilation) : Prop where
  coherent : c'.Coherent
  admits : c'.symbols.All P
  admitted : ∀ {j : Nat} {e : TypeDef}, c'.module.types[j]? = some e → e.Admitted P
  rest : c' = { c with module := { c.module with types := c'.module.types }, symbols := c'.symbols }
  size : c'.module.types.size = c.module.types.size
  grown : c.symbols.Grown c'.symbols
  delegates : c'.symbols.delegates = c.symbols.delegates
  made : List.Forall₂ (fun d d' => d'.type = d.type ∧ d'.source = d.source ∧
    ∃ e, c'.module.types[index d]? = some e ∧ Made P s c.roles d' e) ds ds'
  frame : ∀ i ∉ ds.map index, c'.module.types[i]? = c.module.types[i]?

theorem denotes_of_grown {s s₀ : Symbols} (h : s₀.Grown s) {n : Text} {t : Ty} (hd : s.Denotes n t) : s₀.Denotes n t := by
  obtain ⟨s₁, s₂, hg, hl⟩ := hd
  exact ⟨s₁, s₂, h.trans hg, hl⟩

theorem made_of_class {P : Ty → Prop} {s : Symbols} {roles : Roles} {d : DeclaredType} {e : TypeDef} {cd : ClassDecl}
    (hs : d.source = .class cd) (h : ClassMade P s roles cd d e) : Made P s roles d e := by
  unfold Made
  rw [hs]
  exact h

theorem made_of_delegate {P : Ty → Prop} {s : Symbols} {roles : Roles} {d : DeclaredType} {e : TypeDef} {dd : DelegateDecl}
    (hs : d.source = .delegate dd) (h : DelegateMade roles d e) : Made P s roles d e := by
  unfold Made
  rw [hs]
  exact h

theorem made_of_grown {P : Ty → Prop} {s s₀ : Symbols} {roles : Roles} (h : s₀.Grown s) {d : DeclaredType} {e : TypeDef}
    (hm : Made P s roles d e) : Made P s₀ roles d e := by
  unfold Made at hm ⊢
  split at hm
  · refine ⟨hm.type, hm.isOpen, hm.members, hm.recorded, ?_, hm.inits, hm.delegate⟩
    refine hm.declares.imp fun m x hx => ⟨hx.params, hx.body, ?_, ?_, hx.owner, hx.isCtor, hx.isStatic, hx.isVirtual,
        hx.name, hx.signature, hx.result⟩
    · exact hx.types.imp fun p u hu => ⟨denotes_of_grown h hu.1, hu.2⟩
    · rcases hx.ret with hr | ⟨hn, hr⟩
      · exact .inl hr
      · exact .inr ⟨hn, denotes_of_grown h hr⟩
  · exact hm

/-- The members of one type. -/
theorem Working.declareType {P : Ty → Prop} {base : Compilation} {i : Nat} {e : TypeDef} {d d' : DeclaredType}
    (h : Working P base i e c) (he : e.type = d.type) (hblank : e = { type := e.type, attrs := e.attrs })
    (hd : d = { type := d.type, source := d.source })
    (hroles : Ty.Locates P base.roles.object ∧ Ty.Locates P base.roles.intPtr)
    (hn : ∀ n ∈ d.source.typeNames, base.symbols.Names P n) (hf : c.declareType d = .ok (d', c')) :
    d'.type = d.type ∧ d'.source = d.source ∧ ∃ e', Working P base i e' c' ∧ Made P base.symbols base.roles d' e' := by
  unfold Compilation.declareType at hf
  split at hf
  · rename_i dd hsrc
    obtain ⟨⟨D, c₁⟩, h1, hf⟩ := bind_eq_ok.mp hf
    cases hf
    rw [hsrc] at hn
    obtain ⟨e', h, hmade⟩ := h.declareDelegate he hblank (by rw [hd]) hroles hn h1
    exact ⟨rfl, rfl, e', h, made_of_delegate hsrc hmade⟩
  · rename_i cd hsrc
    rw [hsrc] at hn
    obtain ⟨e', h, hmade, ht, hs⟩ := h.declareClass he hblank (by rw [hd]) hn hf
    exact ⟨ht, hs, e', h, made_of_class (hs.trans hsrc) hmade⟩

theorem declareTypes_filled {P : Ty → Prop} {s : Symbols} {ds ds' : List DeclaredType} (h : c.Coherent)
    (hs : s.Grown c.symbols) (ha : c.symbols.All P)
    (hadmitted : ∀ {j : Nat} {e : TypeDef}, c.module.types[j]? = some e → e.Admitted P)
    (hroles : Ty.Locates P c.roles.object ∧ Ty.Locates P c.roles.intPtr)
    (hn : ∀ d ∈ ds, ∀ n ∈ d.source.typeNames, s.Names P n)
    (hblank : ∀ d ∈ ds, d = { type := d.type, source := d.source } ∧
      ∃ attrs, c.module.types[index d]? = some { type := d.type, attrs })
    (hnodup : (ds.map index).Nodup) (hf : (c.declareTypes ds).Gives (ds', c')) : Filled P s c ds ds' c' := by
  induction ds generalizing c ds' with
  | nil =>
    cases hf.of_pure
    exact ⟨h, ha, hadmitted, rfl, rfl, .refl _, rfl, .nil, fun i _ => rfl⟩
  | cons d ds ih =>
    obtain ⟨⟨d₁, c₁⟩, hnext, hf⟩ := hf.of_bind
    obtain ⟨⟨rest, c₂⟩, h2, hf⟩ := hf.of_bind
    cases hf.of_pure
    obtain ⟨hd, attrs, he⟩ := hblank d List.mem_cons_self
    obtain ⟨ht, hsrc, e, h1, hmade⟩ := (Working.start h ha hadmitted he).declareType rfl rfl hd hroles
      (fun n hmem => (hn d List.mem_cons_self n hmem).grown hs) (Logged.Gives.of_declareNext hnext)
    rw [List.map_cons, List.nodup_cons] at hnodup
    have hlt := h1.inside
    -- Other definitions are as they were.
    have other : ∀ {i : Nat}, i ≠ index d → c₁.module.types[i]? = c.module.types[i]? := by
      intro i hi
      rw [h1.eq]
      show (c.module.put _ e).types[i]? = _
      rw [Module.types_put hlt, if_neg (Ne.symm hi)]
    have filled : Filled P s c₁ ds rest c' := by
      refine ih h1.coherent (hs.trans h1.grown) h1.admits h1.admitted (by rw [h1.roles]; exact hroles)
        (fun x hx => hn x (List.mem_cons_of_mem _ hx)) (fun x hx => ?_) hnodup.2 h2
      obtain ⟨hx', attrs', he'⟩ := hblank x (List.mem_cons_of_mem _ hx)
      refine ⟨hx', attrs', ?_⟩
      rw [other fun heq => hnodup.1 (heq ▸ List.mem_map_of_mem hx)]
      exact he'
    have hroles₁ := h1.roles
    have hmodule : c₁.module = { c.module with types := c₁.module.types } := by rw [h1.eq]; rfl
    have hc₁ : c₁ = { c with module := c₁.module, symbols := c₁.symbols } := by rw [h1.eq]
    refine ⟨filled.coherent, filled.admits, filled.admitted, ?_, ?_, h1.grown.trans filled.grown,
        filled.delegates.trans h1.delegates,
      .cons ⟨ht, hsrc, e, ?_, made_of_grown hs hmade⟩ ?_, fun i hi => ?_⟩
    · rw [filled.rest, hc₁, hmodule]
    · rw [filled.size, h1.eq]
      exact Module.size_put _ _ _
    · rw [filled.frame _ hnodup.1]
      exact h1.get
    · have hmade' := filled.made
      rw [hroles₁] at hmade'
      exact hmade'
    · rw [List.map_cons, List.mem_cons, not_or] at hi
      rw [filled.frame i hi.2, other hi.1]

/-! ### Entry point and delegates -/

theorem Coherent.congr (h : c.Coherent) (hm : c'.module = { c.module with entry := c'.module.entry })
    (hr : c'.roles = c.roles)
    (ht : c'.symbols.types = c.symbols.types) (ha : c'.symbols.aliases = c.symbols.aliases)
    (hf : c'.symbols.fields = c.symbols.fields)
    (hme : c'.symbols.methods = c.symbols.methods) (hc : c'.symbols.ctors = c.symbols.ctors) : c'.Coherent := by
  have hfields : ∀ t, c'.symbols.fieldsOf t = c.symbols.fieldsOf t := fun t => by rw [Symbols.fieldsOf, hf]; rfl
  have hmethods : ∀ t, c'.symbols.allMethods t = c.symbols.allMethods t := fun t => by rw [Symbols.allMethods, hme]; rfl
  have hctors : ∀ t, c'.symbols.ctorsOf t = c.symbols.ctorsOf t := fun t => by rw [Symbols.ctorsOf, hc]; rfl
  refine ⟨by rw [hm]; exact h.dynamic, by rw [hm]; exact h.shaped, by rw [hm, hr]; exact h.void, ?_, ?_, ?_, ?_, ?_⟩
  · intro i d hd
    rw [hm] at hd
    rw [ht]
    exact h.entered hd
  · intro i d hd
    rw [hm] at hd
    rw [ha]
    exact h.unaliased hd
  · intro k t hk ha
    rw [ht] at hk
    rw [hm]
    exact h.known hk ha
  · intro i d hd
    rw [hm] at hd
    have hl := h.lists hd
    exact ⟨(hfields _).trans hl.fields, (hmethods _).trans hl.methods, (hctors _).trans hl.ctors⟩
  · intro t hne
    rw [hfields, hmethods, hctors] at hne
    rw [hm]
    exact h.owned hne

/-- A member that a program can start with. -/
structure IsEntry (roles : Roles) (x : Member) : Prop where
  isCtor : x.method.isCtor = false
  isStatic : x.method.isStatic = true
  types : x.types = []
  ret : x.ret.isVoid = true ∨ x.ret.name = roles.int32.name

/-- The entry point is one of some members, if there is one, and nothing else has changed. -/
structure Entry (ms : List Member) (c c' : Compilation) : Prop where
  rest : c' = { c with module := { c.module with entry := c'.entry }, entry := c'.entry }
  member : ∀ {r : Method}, c'.entry = some r → ∃ x ∈ ms, x.method = r ∧ IsEntry c.roles x

theorem considerEntry_entry {ms ms' : List Member} {x : Member} {c₀ : Compilation} (h : Entry ms c₀ c)
    (hms : ∀ y ∈ ms, y ∈ ms') (hx : x ∈ ms') (hc : c.considerEntry x = .ok c') : Entry ms' c₀ c' := by
  have old : ∀ {r : Method}, c.entry = some r → ∃ y ∈ ms', y.method = r ∧ IsEntry c₀.roles y := by
    intro r hr
    obtain ⟨y, hy, he⟩ := h.member hr
    exact ⟨y, hms y hy, he⟩
  unfold considerEntry at hc
  dsimp only at hc
  split at hc
  · cases hc
    exact ⟨h.rest, old⟩
  rename_i hstatic
  split at hc
  · cases hc
  rename_i hshape
  split at hc
  · cases hc
  rename_i hnone
  obtain ⟨m, h1, hc⟩ := bind_eq_ok.mp hc
  cases hc
  have hmodule : c.module.entry = none := by
    rw [h.rest]
    exact hnone
  have hroles : c.roles = c₀.roles := by rw [h.rest]
  unfold Module.setEntryPoint at h1
  split at h1
  · cases h1
  split at h1
  · cases h1
  rw [hmodule] at h1
  cases h1
  refine ⟨by rw [h.rest], fun {r} hr => ?_⟩
  cases hr
  simp only [not_or, Bool.not_eq_true, Bool.not_eq_true', Bool.not_eq_false] at hstatic hshape
  refine ⟨x, hx, rfl, hstatic.1, hstatic.2.1, List.isEmpty_iff.mp hshape.1, ?_⟩
  rcases Bool.or_eq_true_iff.mp hshape.2 with hv | hs
  · exact .inl hv
  · rw [← hroles]
    exact .inr (by simpa [Ty.same] using hs)

theorem findEntry_entry (he : c.entry = none ∧ c.module.entry = none) (hf : c.findEntry = .ok c') :
    Entry (c.types.flatMap DeclaredType.members) c c' := by
  unfold findEntry at hf
  -- Members that have been considered are among all members.
  have fold : ∀ {ms : List Member} {c₁ c' : Compilation}, (∀ x ∈ ms, x ∈ c.types.flatMap DeclaredType.members) →
      Entry (c.types.flatMap DeclaredType.members) c c₁ → ms.foldlM considerEntry c₁ = .ok c' →
      Entry (c.types.flatMap DeclaredType.members) c c' := by
    intro ms
    induction ms with
    | nil =>
      intro c₁ c' _ h hf
      cases hf
      exact h
    | cons x ms ih =>
      intro c₁ c' hms h hf
      obtain ⟨c₂, h1, h2⟩ := foldlM_cons_ok hf
      exact ih (fun y hy => hms y (List.mem_cons_of_mem _ hy))
        (considerEntry_entry h (fun _ hy => hy) (hms x List.mem_cons_self) h1) h2
  refine fold (fun _ hx => hx) ⟨?_, fun {r} hr => ?_⟩ hf
  · have : ({ c.module with entry := c.entry } : Module) = c.module := by rw [he.1, ← he.2]
    rw [this]
  · rw [he.1] at hr
    cases hr

theorem describeDelegates_table {ds : List DeclaredType} (h : (c.describeDelegates ds).Gives c') :
    c' = { c with symbols := { c.symbols with delegates := c'.symbols.delegates } } ∧
      ∀ k D, c'.symbols.delegates.get? k = some D ↔
        c.symbols.delegates.get? k = some D ∨ ∃ d ∈ ds, d.delegate = some D ∧ k = Symbols.key D.type.name := by
  induction ds generalizing c with
  | nil =>
    cases h.of_pure
    exact ⟨rfl, fun k D => by simp⟩
  | cons d ds ih =>
    unfold describeDelegates at h
    split at h
    · rename_i hd
      obtain ⟨hrest, htable⟩ := ih h
      refine ⟨hrest, fun k D => ?_⟩
      rw [htable]
      simp [hd]
    · rename_i x hd
      obtain ⟨s, h1, h⟩ := h.of_bind
      obtain ⟨_, -, h⟩ := h.of_bind
      obtain ⟨_, -, h⟩ := h.of_bind
      obtain ⟨_, -, h1⟩ := bind_eq_ok.mp h1.of_except
      split at h1
      · cases h1
      rename_i hhas
      cases h1
      have hfree := Table.get?_eq_none_of_has (by simpa using hhas : c.symbols.delegates.has _ = false)
      obtain ⟨hrest, htable⟩ := ih h
      refine ⟨hrest, fun k D => ?_⟩
      rw [htable]
      show (c.symbols.delegates.put _ x).get? k = some D ∨ _ ↔ _
      rw [Table.get?_put]
      constructor
      · rintro (hk | ⟨e, he, hD⟩)
        · split at hk
          · rename_i hkey
            cases hk
            exact .inr ⟨d, List.mem_cons_self, hd, hkey.symm⟩
          · exact .inl hk
        · exact .inr ⟨e, List.mem_cons_of_mem _ he, hD⟩
      · rintro (hk | ⟨e, he, hD, hkey⟩)
        · refine .inl ?_
          rw [if_neg (fun heq => by rw [heq, hk] at hfree; cases hfree)]
          exact hk
        · rcases List.mem_cons.mp he with rfl | he
          · rw [hd] at hD
            cases hD
            exact .inl (by rw [if_pos hkey.symm])
          · exact .inr ⟨e, he, hD, hkey⟩

/-! ### The passes before bodies -/

/-- What the passes before bodies leave. Types stand in the order of the program's sources behind those of the
    catalog; `c₀` is what there was before members were declared. -/
structure Described (P : Ty → Prop) (p : Program) (c₀ c : Compilation) : Prop where
  laid : c₀.Laid p.sources
  coherent : c.Coherent
  admits : c.symbols.All P
  admitted : ∀ {j : Nat} {e : TypeDef}, c.module.types[j]? = some e → e.Admitted P
  grown : c₀.symbols.Grown c.symbols
  roles : c.roles = hostRoles
  id : c.module.id = 0
  size : c.module.types.size = Module.hostCount + p.sources.length
  host : ∀ i < Module.hostCount, c.module.types[i]? = hostModule.types[i]?
  sources : c.types.map DeclaredType.source = p.sources
  made : ∀ {k : Nat} {d : DeclaredType}, c.types[k]? = some d → d.source.TypedBy d.type ∧
    ∃ e, c.module.types[Module.hostCount + k]? = some e ∧ Made P c₀.symbols hostRoles d e
  delegates : ∀ {k : Text} {D : Delegate}, c.symbols.delegates.get? k = some D ↔
    ∃ d ∈ c.types, d.delegate = some D ∧ k = Symbols.key D.type.name
  entry : ∀ {r : Method}, c.module.entry = some r → ∃ d ∈ c.types, ∃ x ∈ d.members, x.method = r ∧ IsEntry hostRoles x

theorem forall₂_getElem? {α β : Type} {R : α → β → Prop} {as : List α} {bs : List β}
    (h : List.Forall₂ R as bs) {k : Nat} {b : β}
    (hb : bs[k]? = some b) : ∃ a, as[k]? = some a ∧ R a b := by
  induction h generalizing k with
  | nil => cases hb
  | cons hab _ ih =>
    cases k with
    | zero =>
      cases hb
      exact ⟨_, rfl, hab⟩
    | succ k => exact ih hb

theorem map_source_of_forall₂ {ds ds' : List DeclaredType} (h : List.Forall₂ (fun d d' => d'.source = d.source) ds ds') :
    ds'.map DeclaredType.source = ds.map DeclaredType.source := by
  induction h with
  | nil => rfl
  | cons hd _ ih => rw [List.map_cons, List.map_cons, ih, hd]

theorem hostRoles_located {P : Ty → Prop} (h : ∀ d ∈ hostModule.types.toList, P d.type) :
    Ty.Locates P hostRoles.object ∧ Ty.Locates P hostRoles.intPtr := by
  have roles : ∀ t ∈ [hostRoles.object, hostRoles.intPtr], ∃ d ∈ hostModule.types.toList, d.type = t ∧
      t.isVoid = false := by
    decide +kernel
  obtain ⟨d, hd, ht, hv⟩ := roles hostRoles.object (by simp)
  obtain ⟨e, he, hu, hw⟩ := roles hostRoles.intPtr (by simp)
  exact ⟨⟨ht ▸ h d hd, hv⟩, ⟨hu ▸ h e he, hw⟩⟩

theorem Laid.index {sources : List Declaration} (h : c.Laid sources) {k : Nat} {d : DeclaredType}
    (hd : c.types[k]? = some d) :
    index d = Module.hostCount + k := by
  obtain ⟨-, -, attrs, he⟩ := h.blank hd
  exact (h.coherent.shaped he).index

/-- Definitions are of the catalog, or of a declared type. -/
theorem Laid.cases {sources : List Declaration} (h : c.Laid sources) {i : Nat} {e : TypeDef}
    (he : c.module.types[i]? = some e) :
    i < Module.hostCount ∧ e ∈ hostModule.types.toList ∨
      ∃ k d attrs, i = Module.hostCount + k ∧ c.types[k]? = some d ∧ e = { type := d.type, attrs } := by
  by_cases hi : i < Module.hostCount
  · rw [h.host i hi] at he
    exact .inl ⟨hi, Array.mem_toList_iff.mpr (Array.mem_of_getElem? he)⟩
  · have hlt := (Array.getElem?_eq_some_iff.mp he).1
    have hlen : c.types.length = sources.length := by rw [← h.sources, List.length_map]
    have hsize := h.size
    have hk : c.types[i - Module.hostCount]? = some c.types[i - Module.hostCount] := List.getElem?_eq_getElem (by omega)
    obtain ⟨-, -, attrs, hk'⟩ := h.blank hk
    have hi' : Module.hostCount + (i - Module.hostCount) = i := by omega
    rw [hi', he] at hk'
    exact .inr ⟨_, _, attrs, hi'.symm, hk, by simpa using hk'⟩

theorem Laid.host_admits {sources : List Declaration} (h : c.Laid sources) {P : Ty → Prop}
    (hP : ∀ {i : Nat} {e : TypeDef}, c.module.types[i]? = some e → P e.type) : ∀ d ∈ hostModule.types.toList, P d.type := by
  intro d hd
  obtain ⟨i, hlt, hi⟩ := hostModule_place hd
  exact hP ((h.host i hlt).trans hi)

/-- Where the types of definitions are admitted, so are their members, for only types of the catalog have members yet. -/
theorem Laid.admitted {sources : List Declaration} (h : c.Laid sources) {P : Ty → Prop}
    (hP : ∀ {i : Nat} {e : TypeDef}, c.module.types[i]? = some e → P e.type) {j : Nat} {e : TypeDef}
    (he : c.module.types[j]? = some e) : e.Admitted P := by
  rcases h.cases he with ⟨-, hmem⟩ | ⟨k, d, attrs, -, -, rfl⟩
  · exact hostModule_admitted (h.host_admits hP) hmem
  · exact ⟨hP he, fun f hf => by simp at hf, fun x hx => by simp [TypeDef.routines] at hx,
        fun x hx => by simp [TypeDef.routines] at hx⟩

/-- Types that stand in order behind those of the catalog have different places. -/
theorem index_nodup {ds : List DeclaredType}
    (h : ∀ {k : Nat} {d : DeclaredType}, ds[k]? = some d → index d = Module.hostCount + k) :
    (ds.map index).Nodup := by
  refine List.pairwise_iff_getElem.mpr fun a b ha hb hab => ?_
  rw [List.length_map] at ha hb
  rw [List.getElem_map, List.getElem_map, h (List.getElem?_eq_getElem ha), h (List.getElem?_eq_getElem hb)]
  omega

theorem typeNames_of_source {p : Program} {src : Declaration} (hs : src ∈ p.sources) {n : Text} (hn : n ∈ src.typeNames) :
    n ∈ p.typeNames := by
  simp only [Program.typeNames, List.mem_append, List.mem_flatMap]
  simp only [Program.sources, List.mem_append, List.mem_map] at hs
  rcases hs with ⟨x, hx, rfl⟩ | ⟨x, hx, rfl⟩
  · exact .inr ⟨x, hx, hn⟩
  · exact .inl ⟨x, hx, hn⟩

/-- Members of all types are declared. -/
theorem Laid.filled {P : Ty → Prop} {p : Program} {ds : List DeclaredType} (h : c.Laid p.sources)
    (hP : ∀ {i : Nat} {e : TypeDef}, c.module.types[i]? = some e → P e.type) (hn : ∀ n ∈ p.typeNames, c.symbols.Names P n)
    (hf : (c.declareTypes c.types).Gives (ds, c')) : Filled P c.symbols c c.types ds c' := by
  refine declareTypes_filled h.coherent (.refl _)
      (fun {k t} hk => ?_) (h.admitted hP) (by rw [h.roles]; exact hostRoles_located (h.host_admits hP))
    (fun d hd n hmem => hn n (typeNames_of_source (h.sources ▸ List.mem_map_of_mem hd) hmem))
      (fun d hd => ?_) (index_nodup h.index) hf
  · obtain ⟨-, i, e, he, rfl⟩ := h.coherent.known hk (h.plain hk)
    exact hP he
  · obtain ⟨k, hk⟩ := List.mem_iff_getElem?.mp hd
    obtain ⟨hd', -, attrs, he⟩ := h.blank hk
    exact ⟨hd', attrs, by rw [h.index hk]; exact he⟩

/-- The last passes before bodies find the entry point, describe delegates and end the phase of declarations. -/
structure Ended (c c' : Compilation) : Prop where
  module : c'.module = { c.module with entry := c'.entry }
  types : c'.types = c.types
  roles : c'.roles = c.roles
  symbols : c'.symbols = { c.symbols with phase := .generate, delegates := c'.symbols.delegates }
  delegates : ∀ {k : Text} {D : Delegate}, c'.symbols.delegates.get? k = some D ↔
    ∃ d ∈ c.types, d.delegate = some D ∧ k = Symbols.key D.type.name
  entry : ∀ {r : Method}, c'.entry = some r → ∃ d ∈ c.types, ∃ x ∈ d.members, x.method = r ∧ IsEntry c.roles x

theorem ended {c₁ : Compilation} (he : c.entry = none ∧ c.module.entry = none) (hd : c.symbols.delegates = {})
    (hf : c.findEntry = .ok c₁) (h : c₁.describe.Gives c') : c.Ended c' := by
  have entry := findEntry_entry he hf
  obtain ⟨c₂, h2, h⟩ := h.of_bind
  obtain ⟨s, h3, h⟩ := h.of_bind
  cases h.of_pure
  obtain ⟨hrest, htable⟩ := describeDelegates_table h2
  obtain ⟨_, -, h3⟩ := bind_eq_ok.mp h3.of_except
  cases h3
  have hentry : c₂.entry = c₁.entry := by rw [hrest]
  have htypes : c₁.types = c.types := by rw [entry.rest]
  have hdelegates : c₁.symbols.delegates = {} := by
    rw [entry.rest]
    exact hd
  have hsymbols : c₂.symbols = { c.symbols with delegates := c₂.symbols.delegates } := by rw [hrest, entry.rest]
  refine ⟨?_, ?_, ?_, ?_, fun {k D} => ?_, fun {r} hr => ?_⟩
  · show c₂.module = { c.module with entry := c₂.entry }
    rw [hentry, hrest, entry.rest]
  · show c₂.types = _
    rw [hrest, entry.rest]
  · show c₂.roles = _
    rw [hrest, entry.rest]
  · show ({ c₂.symbols with phase := .generate } : Symbols) =
        { c.symbols with phase := .generate, delegates := c₂.symbols.delegates }
    rw [hsymbols]
  · show c₂.symbols.delegates.get? k = some D ↔ _
    rw [htable, hdelegates, htypes]
    refine ⟨fun hk => hk.resolve_left fun hk => ?_, .inr⟩
    cases hk
  · obtain ⟨x, hx, hm⟩ := entry.member (hentry ▸ hr)
    obtain ⟨d, hd, hxd⟩ := List.mem_flatMap.mp hx
    exact ⟨d, hd, x, hxd, hm⟩

theorem Laid.described {P : Ty → Prop} {p : Program} {c₀ c₁ c₂ c₃ : Compilation} {ds : List DeclaredType}
    (h : c₀.Laid p.sources) (hP : ∀ {i : Nat} {e : TypeDef}, c₀.module.types[i]? = some e → P e.type)
    (hn : ∀ n ∈ p.typeNames, c₀.symbols.Names P n) (h1 : (c₀.declareTypes c₀.types).Gives (ds, c₁))
    (h2 : ({ c₁ with types := ds }).findEntry = .ok c₂) (h3 : c₂.describe.Gives c₃) : Described P p c₀ c₃ := by
  have filled := h.filled hP hn h1
  have hmodule₁ : c₁.module = { c₀.module with types := c₁.module.types } := by rw [filled.rest]
  have hroles₁ : c₁.roles = hostRoles := by
    rw [filled.rest]
    exact h.roles
  have ended : Ended { c₁ with types := ds } c₃ := by
    refine Compilation.ended ?_ (filled.delegates.trans h.delegates) h2 h3
    rw [filled.rest]
    exact h.entry
  have hmodule : c₃.module = { c₁.module with entry := c₃.entry } := ended.module
  have hsymbols : c₃.symbols = { c₁.symbols with phase := .generate, delegates := c₃.symbols.delegates } := ended.symbols
  have htypes : c₃.types = ds := ended.types
  have hroles : c₃.roles = c₁.roles := ended.roles
  have kept : ∀ {i : Nat} {e : TypeDef}, c₃.module.types[i]? = some e ↔ c₁.module.types[i]? = some e := by
    intro i e
    rw [hmodule]
  exact {
    laid := h
    coherent := filled.coherent.congr (by rw [hmodule]) hroles (by rw [hsymbols]) (by rw [hsymbols]) (by rw [hsymbols])
      (by rw [hsymbols]) (by rw [hsymbols])
    admits := fun {k t} hk => by
      rw [hsymbols] at hk
      exact filled.admits hk
    admitted := fun he => filled.admitted (kept.mp he)
    grown := by
      rw [hsymbols]
      exact ⟨filled.grown.aliases, filled.grown.kept, filled.grown.added⟩
    roles := hroles.trans hroles₁
    id := by
      rw [hmodule, hmodule₁]
      exact h.id
    size := by
      rw [hmodule]
      exact filled.size.trans h.size
    host := fun i hi => by
      have hout : i ∉ c₀.types.map Compilation.index := fun hmem => by
        obtain ⟨d, hd, rfl⟩ := List.mem_map.mp hmem
        obtain ⟨k, hk⟩ := List.mem_iff_getElem?.mp hd
        rw [h.index hk] at hi
        omega
      rw [hmodule]
      exact (filled.frame i hout).trans (h.host i hi)
    sources := by
      rw [htypes, ← h.sources]
      exact map_source_of_forall₂ (filled.made.imp fun d d' hd => hd.2.1)
    made := fun {k d} hk => by
      rw [htypes] at hk
      obtain ⟨d₀, hd₀, ht, hs, e, he, hm⟩ := forall₂_getElem? filled.made hk
      obtain ⟨-, htyped, -⟩ := h.blank hd₀
      rw [h.index hd₀] at he
      rw [h.roles] at hm
      rw [ht, hs]
      exact ⟨htyped, e, kept.mpr he, hm⟩
    delegates := fun {k D} => by
      rw [htypes]
      exact ended.delegates
    entry := fun {r} hr => by
      rw [hmodule] at hr
      rw [htypes, ← hroles₁]
      exact ended.entry hr }

end Compilation
end CilCompiler
