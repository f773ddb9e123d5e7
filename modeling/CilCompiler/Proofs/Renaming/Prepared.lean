import CilCompiler.Proofs.Compilation.Passes
import CilCompiler.Proofs.Renaming.Catalog

/-! The passes before bodies under a renaming. Compilations that are alike stay alike while types are laid out,
    members declared, an entry point looked for and delegates described, or fail with one code; so a program gets the
    same members in a listing and in a module that can be run (`prepared_alike`). -/

namespace CilCompiler

variable {ρ : Renaming}

/-! ### Laying types out -/

/-- Modules that are alike, with the catalog behind them. Types that are defined in one are renamed to those that are
    defined in the other. -/
structure Module.Began (ρ : Renaming) (m m' : Module) : Prop where
  alike : m.Alike ρ m'
  defines : ∀ d : Declared, Module.hostCount ≤ d.index → d.assembly = m.name → ρ.declared d = { d with assembly := m'.name }
  size : Module.hostCount ≤ m.types.size

theorem Module.Began.defineType {m m' : Module} (h : m.Began ρ m') (name : Text) (attrs : TypeAttributes)
    (base : Option Ty) :
    Agree (fun r r' => r'.1 = ρ.ty r.1 ∧ r.2.Began ρ r'.2) (m.defineType name attrs base)
      (m'.defineType name attrs (ρ.opt base)) := by
  have hany : (m'.types.any fun d => decide (d.type.name = name)) = m.types.any fun d => decide (d.type.name = name) := by
    rw [h.alike.types, Array.any_map]
    simp
  unfold Module.defineType
  rw [hany, h.alike.id, h.alike.types, Array.size_map]
  refine .ite Iff.rfl (fun _ => .error rfl) fun _ => ?_
  have hd := h.defines { module := m.id, index := m.types.size, assembly := m.name, name, isValue := false } h.size rfl
  have defined : ∀ {t t' : Ty}, t' = ρ.ty t → Agree (fun r r' => r'.1 = ρ.ty r.1 ∧ r.2.Began ρ r'.2)
      (.ok (t, { m with types := m.types.push { type := t, attrs } }))
      (.ok (t', { m' with id := m.id, types := (m.types.map ρ.typeDef).push { type := t', attrs } })) := by
    rintro t _ rfl
    refine .ok ⟨rfl, ⟨rfl, ?_, h.alike.entry⟩, h.defines, ?_⟩
    · simp [Renaming.typeDef]
    · show Module.hostCount ≤ (m.types.push _).size
      rw [Array.size_push]
      exact Nat.le_succ_of_le h.size
  cases base with
  | none => exact defined (by simp [Renaming.ty, hd])
  | some b => exact defined (by simp [Renaming.ty, hd])

namespace Symbols.Local
variable {V : Text → Prop} {K : Symbols → Symbols → Prop} {S : Ty → Prop} {s s' : Symbols}

theorem hasType (h : s.Local ρ (Entered ρ) (fun _ => True) s') (n : Text) : s'.hasType n = s.hasType n := by
  rw [Symbols.hasType, Symbols.hasType, Table.has_eq, Table.has_eq, h.names.types, h.names.aliases,
      Option.isSome_map, ← Table.has_eq,
    ← Table.has_eq]

theorem withPhase (hK : ρ.Naming V K) (h : s.Local ρ K S s') (p : Phase) :
    ({ s with phase := p } : Symbols).Local ρ K S { s' with phase := p } :=
  ⟨hK.keeps h.names rfl rfl rfl rfl, rfl, h.fields, h.methods, h.ctors, h.delegates⟩

theorem beginDeclarations (h : s.Local ρ (Entered ρ) (fun _ => True) s') :
    Agree (Symbols.Local ρ (Entered ρ) fun _ => True) s.beginDeclarations s'.beginDeclarations :=
  (h.requirePhase _ _).bind fun _ _ _ => .ok (h.withPhase (Entered.naming ρ) .declare)

theorem registerType (h : s.Local ρ (Entered ρ) (fun _ => True) s') (t : Ty) :
    Agree (Symbols.Local ρ (Entered ρ) fun _ => True) (s.registerType t) (s'.registerType (ρ.ty t)) := by
  refine (h.requirePhase _ _).bind fun _ _ _ => ?_
  rw [Renaming.name_ty, h.hasType]
  refine .ite Iff.rfl (fun _ => .error rfl) fun _ => .ok ?_
  have hput := h.names.put (key t.name) t
  exact ⟨⟨hput.aliases, hput.types⟩, h.phase, h.fields, h.methods, h.ctors, h.delegates⟩

theorem registerDelegate (hK : ρ.Naming V K) (h : s.Local ρ K S s') (d : Delegate) :
    Agree (Symbols.Local ρ K S) (s.registerDelegate d) (s'.registerDelegate (ρ.delegate d)) := by
  have hname : (ρ.delegate d).type.name = d.type.name := ρ.name_ty d.type
  have hhas : s'.delegates.has (key d.type.name) = s.delegates.has (key d.type.name) := by
    rw [Table.has_eq, h.delegates, Option.isSome_map, Table.has_eq]
  refine (h.requirePhase _ _).bind fun _ _ _ => ?_
  rw [hname, hhas]
  refine .ite Iff.rfl (fun _ => .error rfl) fun _ => .ok ?_
  refine ⟨hK.keeps h.names rfl rfl rfl rfl, h.phase, h.fields, h.methods, h.ctors, fun k => ?_⟩
  show (s'.delegates.put _ _).get? k = ((s.delegates.put _ _).get? k).map ρ.delegate
  rw [Table.get?_put, Table.get?_put, h.delegates]
  split <;> rfl

theorem freeze (hK : ρ.Naming V K) (h : s.Local ρ K S s') : Agree (Symbols.Local ρ K S) s.freeze s'.freeze :=
  (h.requirePhase _ _).bind fun _ _ _ => .ok (h.withPhase hK .generate)

end Symbols.Local

/-- An entry point of a type that is open is accepted by a listing and by a module that can be run. -/
theorem Module.Local.setEntryPoint {m m' : Module} (hd : ρ.Distinct) (h : m.Local ρ (fun _ => True) m') {r : Method}
    (hsealed : (m'.backend = .textual ∧ m'.isCreated (ρ.ty r.owner) = true) ↔
      (m.backend = .textual ∧ m.isCreated r.owner = true)) :
    Agree (Module.Local ρ fun _ => True) (m.setEntryPoint r) (m'.setEntryPoint (ρ.method r)) := by
  have hown : ∀ (m : Module) (e : Option Method) (t : Ty), ({ m with entry := e } : Module).def? t = m.def? t :=
    fun _ _ t => by
    cases t <;> rfl
  unfold Module.setEntryPoint
  refine .ite (by rw [Renaming.owner_method, Renaming.module_ty, h.id]) (fun _ => .error rfl) fun _ =>
    .ite hsealed.symm (fun _ => .error rfl) fun _ => ?_
  rw [h.entry]
  cases m.entry with
  | none => exact .ok ⟨h.places, h.id, h.void, rfl, fun {t} ht => by
    rw [hown, h.own ht, ← hown m]⟩
  | some e => exact .ite (hd.method_inj.symm) (fun _ => .ok h) fun _ => .error rfl

namespace Compilation

theorem Local.considerEntry {K : Symbols → Symbols → Prop} {c c' : Compilation} (hd : ρ.Distinct)
    (h : c.Local ρ K (fun _ => True) c')
    (he : c'.entry = c.entry.map ρ.method) {x : Member}
    (hsealed : (c'.module.backend = .textual ∧ c'.module.isCreated (ρ.ty x.method.owner) = true) ↔
      (c.module.backend = .textual ∧ c.module.isCreated x.method.owner = true)) :
    Agree (fun c c' => c.Local ρ K (fun _ => True) c' ∧ c'.entry = c.entry.map ρ.method) (c.considerEntry x)
      (c'.considerEntry (ρ.member x)) := by
  have hret : ((ρ.ty x.ret).isVoid || Ty.same (some (ρ.ty x.ret)) (some c'.roles.int32)) =
      (x.ret.isVoid || Ty.same (some x.ret) (some c.roles.int32)) := by
    rw [h.roles, Renaming.isVoid_ty]
    exact congrArg _ (ρ.same_some (some x.ret) c.roles.int32)
  have htypes : (x.types.map ρ.ty).isEmpty = x.types.isEmpty := List.isEmpty_map
  unfold Compilation.considerEntry
  simp only [Renaming.member, Renaming.isCtor_method, Renaming.isStatic_method, Renaming.name_method, htypes, hret]
  refine .ite Iff.rfl (fun _ => .ok ⟨h, he⟩) fun _ => .ite Iff.rfl (fun _ => .error rfl) fun _ => ?_
  rw [he]
  cases c.entry with
  | some e => exact .error rfl
  | none => exact (h.module.setEntryPoint hd hsealed).bind fun _ _ hm => .ok ⟨⟨h.symbols, hm, h.roles⟩, rfl⟩

namespace Alike
variable {c c' : Compilation}

/-- Compilations that are alike, into modules whose types are renamed to one another. -/
def Began (ρ : Renaming) (c c' : Compilation) : Prop := c.Alike ρ c' ∧ c.module.Began ρ c'.module

theorem defineType (h : Began ρ c c') (src : Declaration) (attrs : TypeAttributes) (base : Option Ty) :
    Agree (Began ρ) (c.defineType src attrs base) (c'.defineType src attrs (ρ.opt base)) := by
  obtain ⟨h, hm⟩ := h
  unfold Compilation.defineType
  dsimp only
  rw [h.symbols.hasType]
  refine .ite Iff.rfl (fun _ => .error rfl) fun _ => .ite Iff.rfl (fun _ => .error rfl) fun _ => ?_
  refine (hm.defineType src.name attrs base).bind ?_
  rintro ⟨t, m⟩ ⟨_, m'⟩ ⟨rfl, hm⟩
  refine (h.symbols.registerType t).bind fun s s' hs => .ok ⟨⟨hs, hm.alike, h.roles, ?_, h.entry⟩, hm⟩
  simp [h.types, Renaming.declaredType]

theorem defineTypes (h : Began ρ c c') (p : Program) : Agree (Began ρ) (c.defineTypes p) (c'.defineTypes p) := by
  refine Agree.bind (.foldlM (fun d _ c c' h => ?_) h) fun c c' h => .foldlM (fun d _ c c' h => ?_) h
  · rw [h.1.roles]
    exact defineType h (.delegate d) .delegates (some c.roles.multicastDelegate)
  · exact defineType h (.class d) .classes none

/-! ### Declaring members -/

theorem declareTypes (hρ : ρ.Still) (h : c.Alike ρ c') (ds : List DeclaredType) :
    Logged.Agrees (fun r r' => r'.1 = r.1.map ρ.declaredType ∧ r.2.Alike ρ r'.2) (c.declareTypes ds)
      (c'.declareTypes (ds.map ρ.declaredType)) := by
  induction ds generalizing c c' with
  | nil => exact .pure ⟨rfl, h⟩
  | cons d ds ih =>
    have hlocal := h.local hρ
    refine Logged.Agrees.bind_gives (.declareNext (hlocal.declareType (Symbols.Entered.naming ρ) (d := d) trivial)) ?_
    rintro ⟨e, c₁⟩ ⟨_, c₁'⟩ ⟨rfl, h₁⟩ hgives hgives'
    have hrest := (declareType_steps hgives.of_declareNext).rest
    have hrest' := (declareType_steps hgives'.of_declareNext).rest
    have halike : c₁.Alike ρ c₁' := by
      refine ⟨h₁.symbols, .of_local hρ h₁.module, h₁.roles, ?_, ?_⟩
      · rw [hrest', hrest]
        exact h.types
      · rw [hrest', hrest]
        exact h.entry
    refine (ih halike).bind ?_
    rintro ⟨es, c₂⟩ ⟨_, c₂'⟩ ⟨rfl, h₂⟩
    exact .pure ⟨rfl, h₂⟩

/-! ### The entry point -/

theorem considerEntry (hd : ρ.Distinct) (hρ : ρ.Still) (h : c.Alike ρ c') {x : Member}
    (hopen : c.module.isCreated x.method.owner = false) :
    Agree (Alike ρ) (c.considerEntry x) (c'.considerEntry (ρ.member x)) := by
  have hlocal := h.local hρ
  have hopen' : c'.module.isCreated (ρ.ty x.method.owner) = false := ((h.module.local hρ).isCreated trivial).trans hopen
  refine (hlocal.considerEntry hd h.entry (by simp [hopen, hopen'])).mono_ok fun c₁ c₁' h₁ hx hx' => ?_
  obtain ⟨_, _, rfl⟩ := considerEntry_eq hx
  obtain ⟨_, _, rfl⟩ := considerEntry_eq hx'
  exact ⟨h₁.1.symbols, .of_local hρ h₁.1.module, h₁.1.roles, h.types, h₁.2⟩

theorem findEntry (hd : ρ.Distinct) (hρ : ρ.Still) (h : c.Alike ρ c') (hready : c.Ready) :
    Agree (Alike ρ) c.findEntry c'.findEntry := by
  have hmembers : c'.types.flatMap DeclaredType.members = (c.types.flatMap DeclaredType.members).map ρ.member := by
    rw [h.types, List.flatMap_map, List.map_flatMap]
    rfl
  unfold Compilation.findEntry
  rw [hmembers, List.foldlM_map]
  -- Types stay open, so each member in turn may be an entry point.
  have step : ∀ x ∈ c.types.flatMap DeclaredType.members, ∀ c₁ c₁' : Compilation,
      c₁.Alike ρ c₁' ∧ c₁.module.isCreated = c.module.isCreated →
        Agree (fun c₁ c₁' => c₁.Alike ρ c₁' ∧ c₁.module.isCreated = c.module.isCreated)
          (c₁.considerEntry x) (c₁'.considerEntry (ρ.member x)) := by
    rintro x hx c₁ c₁' ⟨h₁, hcreated⟩
    obtain ⟨d, hdm, hxm⟩ := List.mem_flatMap.mp hx
    have hopen : c₁.module.isCreated x.method.owner = false := by
      rw [hcreated, hready.owned (d, x) (mem_pairs.mpr ⟨hdm, hxm⟩)]
      exact hready.isOpen d hdm
    refine (considerEntry hd hρ h₁ hopen).mono_ok fun c₂ c₂' h₂ hc _ => ⟨h₂, ?_⟩
    obtain ⟨e, e', rfl⟩ := considerEntry_eq hc
    exact hcreated
  exact (Agree.foldlM step ⟨h, rfl⟩).mono fun _ _ h => h.1

/-! ### Delegates -/

theorem describeDelegates (h : c.Alike ρ c') (ds : List DeclaredType) :
    Logged.Agrees (Alike ρ) (c.describeDelegates ds) (c'.describeDelegates (ds.map ρ.declaredType)) := by
  induction ds generalizing c c' with
  | nil => exact .pure h
  | cons d ds ih =>
    have hdelegate : (ρ.declaredType d).delegate = d.delegate.map ρ.delegate := rfl
    rw [List.map_cons]
    unfold Compilation.describeDelegates
    rw [hdelegate]
    cases d.delegate with
    | none => exact ih h
    | some x =>
      refine Logged.Agrees.bind (.ofExcept (h.symbols.registerDelegate (Symbols.Entered.naming ρ) x)) fun s s' hs => ?_
      refine .behind .context .context fun _ _ => ?_
      exact .behind (.note _) (.note _) fun _ _ => ih (h.withSymbols hs)

theorem describe (h : c.Alike ρ c') : Logged.Agrees (Alike ρ) c.describe c'.describe := by
  unfold Compilation.describe
  rw [h.types]
  refine (h.describeDelegates c.types).bind fun c c' h => ?_
  exact Logged.Agrees.bind (.ofExcept (h.symbols.freeze (Symbols.Entered.naming ρ))) fun s s' hs => .pure (h.withSymbols hs)

/-- The program's types and their members. -/
theorem declare (hd : ρ.Distinct) (hρ : ρ.Still) (h : Began ρ c c') (ho : c.Outlined) (p : Program) :
    Logged.Agrees (Alike ρ) (Compilation.declare p c) (Compilation.declare p c') := by
  refine Logged.Agrees.bind_gives (.ofExcept h.1.symbols.beginDeclarations) fun s s' hs hgives _ => ?_
  have houtlined : ({ c with symbols := s }).Outlined := by
    obtain ⟨_, -, hbegin⟩ := bind_eq_ok.mp hgives.of_except
    cases hbegin
    exact ⟨ho.blank, ho.empty, ho.isOpen, ho.aliased⟩
  have hbegan : Began ρ { c with symbols := s } { c' with symbols := s' } := ⟨h.1.withSymbols hs, h.2⟩
  refine Logged.Agrees.bind_gives (.ofExcept (defineTypes hbegan p)) fun c₁ c₁' h₁ hgives _ => ?_
  have hlaid := houtlined.defineTypes hgives.of_except
  rw [h₁.1.types]
  refine Logged.Agrees.bind_gives (declareTypes hρ h₁.1 c₁.types) ?_
  rintro ⟨ds, c₂⟩ ⟨_, c₂'⟩ ⟨rfl, h₂⟩ hgives _
  exact .ofExcept (findEntry hd hρ ⟨h₂.symbols, h₂.module, h₂.roles, rfl, h₂.entry⟩
    ((declareTypes_populated hlaid.empty hgives).ready hlaid))

end Alike

section Start
variable {m m' : Module} (hρ : ρ.Still) (hdefault : ρ.ty default = default) (h : m.Began ρ m')
include hρ hdefault h

/-- Modules that start alike have the same catalog. -/
theorem enterCatalog_alike : Agree (Alike.Began ρ) (start m).enterCatalog (start m').enterCatalog :=
  ((Alike.start hdefault h.alike).enterCatalog (h.alike.local hρ)).mono_ok fun c c' hc hm hm' =>
    ⟨hc, by rw [(enterCatalog_start hm).1, (enterCatalog_start hm').1]; exact h⟩

/-- Into modules that start alike, the same types are laid out. -/
theorem laidOut_alike (p : Program) : Agree (Alike.Began ρ) (laidOut p (start m)) (laidOut p (start m')) := by
  refine (enterCatalog_alike hρ hdefault h).bind fun c c' hc => (hc.1.symbols.beginDeclarations).bind fun s s' hs => ?_
  exact Alike.defineTypes ⟨hc.1.withSymbols hs, hc.2⟩ p

/-- Into modules that start alike, the passes before bodies do the same. -/
theorem prepared_alike (hd : ρ.Distinct) (hblank : m.Bodied (· = {})) (p : Program) :
    Logged.Agrees (Alike ρ) (prepared p (start m)) (prepared p (start m')) := by
  refine Logged.Agrees.bind_gives (.pass (.ofExcept (enterCatalog_alike hρ hdefault h))) fun c c' hc hgives _ => ?_
  have houtlined := enterCatalog_outlined hblank hgives.of_pass.of_except
  exact Logged.Agrees.bind (.pass (Alike.declare hd hρ hc houtlined p)) fun c c' h => .pass h.describe

end Start
end Compilation
end CilCompiler
