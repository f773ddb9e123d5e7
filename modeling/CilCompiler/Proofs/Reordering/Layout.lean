import CilCompiler.Proofs.Compilation.Passes
import CilCompiler.Proofs.Renaming.Catalog
import CilCompiler.Proofs.Renaming.Prepared
import Mathlib.Algebra.Group.End

/-! Compilations whose types stand in different orders. `Moved ρ` says that one knows what the other one knows, up to
    the renaming `ρ` of types, and that it has the same types in some order. Types that trade places are a renaming
    too (`Renaming.reorder`).

Types of a program whose declarations stand in another order. Each source gets the place behind those there are, so
two sources in a row trade places when they trade order (`withSource_swap`); sources in any order give the types in
some order (`laidOut_reordered`). -/

namespace CilCompiler

namespace Renaming

/-- Types at other places, and otherwise as they were. -/
def reorder (σ : Equiv.Perm Nat) : Renaming where
  declared d := { d with index := σ d.index }
  module_declared _ := rfl
  name_declared _ := rfl
  isValue_declared _ := rfl

variable {σ τ : Equiv.Perm Nat}

theorem reorder_one : reorder 1 = refl := rfl

theorem reorder_distinct : (reorder σ).Distinct := by
  rintro ⟨module, index, assembly, name, isValue⟩ ⟨module', index', assembly', name', isValue'⟩ h
  simp only [reorder, Declared.mk.injEq, EmbeddingLike.apply_eq_iff_eq] at h ⊢
  exact h

theorem index_reorder (t : Ty) : ((reorder σ).ty t).declared.index = σ t.declared.index := by
  rw [declared_ty]
  rfl

end Renaming

/-! ### Names -/

namespace Symbols
variable {ρ τ : Renaming} {s s' s'' : Symbols}

theorem Entered.trans (h : s.Entered ρ s') (h' : s'.Entered τ s'') : s.Entered (ρ.trans τ) s'' where
  aliases := h'.aliases.trans h.aliases
  types k := by
    rw [h'.types, h.types, Option.map_map]
    congr 1
    funext t
    exact (ρ.ty_trans τ t).symm

theorem Linked.trans (h : s.Linked ρ s') (h' : s'.Linked τ s'') : s.Linked (ρ.trans τ) s'' := by
  have twice : ∀ t : Option Ty, (t.map ρ.ty).map τ.ty = t.map (ρ.trans τ).ty := by
    intro t
    rw [Option.map_map]
    congr 1
    funext t
    exact (ρ.ty_trans τ t).symm
  exact ⟨h.plain, h'.plain', fun n => by rw [h'.meaning, h.meaning, twice],
      fun n hn => by rw [h'.entered n hn, h.entered n hn, twice]⟩

theorem Linked.self (h : s.PlainAliases) : s.Linked .refl s :=
  ⟨h, h, fun n => by simp [funext Renaming.ty_refl], fun n _ => by simp [funext Renaming.ty_refl]⟩

/-- Types that are entered under the same names, up to renaming, have the same names. -/
theorem Entered.linked (h : s.Entered ρ s') (hp : s.PlainAliases) : s.Linked ρ s' where
  plain := hp
  plain' := by
    intro n e he
    rw [h.aliases]
    exact hp he
  meaning n := by
    have hl := h.lookup n
    unfold Symbols.meaning
    generalize s.lookup n = x at hl ⊢
    generalize s'.lookup n = y at hl ⊢
    cases hl with
    | error _ => rfl
    | ok h => exact congrArg some h.1
  entered n _ := h.entered? n

theorem Local.of_names {K K' : Symbols → Symbols → Prop} {S : Ty → Prop} (h : s.Local ρ K S s') (hk : K' s s') :
    s.Local ρ K' S s' :=
  ⟨hk, h.phase, h.fields, h.methods, h.ctors, h.delegates⟩

theorem Local.trans {K K' K'' : Symbols → Symbols → Prop} (h : s.Local ρ K (fun _ => True) s')
    (h' : s'.Local τ K' (fun _ => True) s'')
    (hk : K s s' → K' s' s'' → K'' s s'') : s.Local (ρ.trans τ) K'' (fun _ => True) s'' where
  names := hk h.names h'.names
  phase := h'.phase.trans h.phase
  fields {t} _ := by
    rw [Renaming.ty_trans, h'.fields trivial, h.fields trivial, List.map_map]
    exact List.map_congr_left fun f _ => (ρ.field_trans τ f).symm
  methods {t} _ := by
    rw [Renaming.ty_trans, h'.methods trivial, h.methods trivial, List.map_map]
    exact List.map_congr_left fun m _ => (ρ.method_trans τ m).symm
  ctors {t} _ := by
    rw [Renaming.ty_trans, h'.ctors trivial, h.ctors trivial, List.map_map]
    exact List.map_congr_left fun m _ => (ρ.method_trans τ m).symm
  delegates k := by
    rw [h'.delegates, h.delegates, Option.map_map]
    congr 1
    funext d
    exact (ρ.delegate_trans τ d).symm

end Symbols

/-! ### Modules -/

namespace Module
variable {ρ τ : Renaming} {σ : Equiv.Perm Nat} {m m' m'' : Module}

theorem Local.trans (h : m.Local ρ (fun _ => True) m') (h' : m'.Local τ (fun _ => True) m'') :
    m.Local (ρ.trans τ) (fun _ => True) m'' where
  places {t u} _ _ := by
    rw [Renaming.ty_trans, Renaming.ty_trans]
    exact (h'.places trivial trivial).trans (h.places trivial trivial)
  id := h'.id.trans h.id
  void := by rw [h'.void, h.void, Renaming.opt_trans]
  entry := by
    rw [h'.entry, h.entry, Option.map_map]
    congr 1
    funext r
    exact (ρ.method_trans τ r).symm
  own {t} _ := by
    rw [Renaming.ty_trans, h'.own trivial, h.own trivial, Option.map_map]
    congr 1
    funext d
    exact (ρ.typeDef_trans τ d).symm

/-- Definitions at other places. -/
theorem Local.of_places (hid : m'.id = m.id)
    (hvoid : m'.type? TypeName.void = (Renaming.reorder σ).opt (m.type? TypeName.void))
    (hentry : m'.entry = m.entry.map (Renaming.reorder σ).method)
    (htypes : ∀ i, m'.types[σ i]? = (m.types[i]?).map (Renaming.reorder σ).typeDef) :
      m.Local (.reorder σ) (fun _ => True) m' where
  places {t u} _ _ := by rw [Renaming.index_reorder, Renaming.index_reorder, EmbeddingLike.apply_eq_iff_eq]
  id := hid
  void := hvoid
  entry := hentry
  own {t} _ := by
    cases ha : t.isArray with
    | true => rw [def?_of_isArray ha, def?_of_isArray (by rw [Renaming.isArray_ty, ha]), Option.map_none]
    | false =>
      rw [def?_eq ha, def?_eq (by rw [Renaming.isArray_ty, ha]), Renaming.module_ty, hid, Renaming.index_reorder, htypes]
      split <;> rfl

theorem Local.types (h : m.Local (.reorder σ) (fun _ => True) m') (i : Nat) :
    m'.types[σ i]? = (m.types[i]?).map (Renaming.reorder σ).typeDef := by
  have hown :=
    h.own (t := .root { module := m.id, index := i, assembly := .empty, name := .empty, isValue := false }) trivial
  rw [def?_eq (by rw [Renaming.isArray_ty]; rfl), def?_eq rfl, Renaming.module_ty, Renaming.index_reorder, h.id] at hown
  simpa [Ty.module, Ty.declared] using hown

/-- The module as it is. -/
theorem Local.self (m : Module) : m.Local .refl (fun _ => True) m :=
  Local.of_places (σ := 1) rfl (by rw [Renaming.reorder_one, Renaming.opt_refl])
    (by rw [Renaming.reorder_one]; simp [funext Renaming.method_refl])
    fun i => by
      rw [Renaming.reorder_one, Equiv.Perm.one_apply]
      simp [funext Renaming.typeDef_refl]

end Module

/-! ### Compilations -/

namespace Compilation
variable {ρ τ : Renaming} {K K' K'' : Symbols → Symbols → Prop} {c c' c'' : Compilation}

/-- One compilation is the other one with types renamed and in some order; `K` says what names stand for. -/
structure Moved (ρ : Renaming) (K : Symbols → Symbols → Prop) (c c' : Compilation) : Prop where
  known : c.Local ρ K (fun _ => True) c'
  types : c'.types.Perm (c.types.map ρ.declaredType)
  entry : c'.entry = c.entry.map ρ.method
  backend : c'.module.backend = c.module.backend
  name : c'.module.name = c.module.name
  lines : c'.module.lines = c.module.lines

namespace Moved

theorem trans (h : c.Moved ρ K c') (h' : c'.Moved τ K' c'')
    (hk : K c.symbols c'.symbols → K' c'.symbols c''.symbols → K'' c.symbols c''.symbols) :
    c.Moved (ρ.trans τ) K'' c'' where
  known := ⟨h.known.symbols.trans h'.known.symbols hk, h.known.module.trans h'.known.module, by
    rw [h'.known.roles, h.known.roles, Renaming.roles_trans]⟩
  types := by
    have hsame : c.types.map (ρ.trans τ).declaredType = (c.types.map ρ.declaredType).map τ.declaredType := by
      rw [List.map_map]
      exact List.map_congr_left fun d _ => ρ.declaredType_trans τ d
    rw [hsame]
    exact h'.types.trans (h.types.map _)
  entry := by
    rw [h'.entry, h.entry, Option.map_map]
    congr 1
    funext r
    exact (ρ.method_trans τ r).symm
  backend := h'.backend.trans h.backend
  name := h'.name.trans h.name
  lines := h'.lines.trans h.lines

theorem of_names (h : c.Moved ρ K c') (hk : K' c.symbols c'.symbols) : c.Moved ρ K' c' :=
  ⟨⟨h.known.symbols.of_names hk, h.known.module, h.known.roles⟩, h.types, h.entry, h.backend, h.name, h.lines⟩

/-- Compilations whose symbols know the same are the same, whatever arrays have been entered. -/
theorem of_symbols {s : Symbols} (hp : c.symbols.PlainAliases) (hn : c.symbols.SameNames s)
    (hphase : s.phase = c.symbols.phase)
    (hfields : ∀ t, s.fieldsOf t = c.symbols.fieldsOf t) (hmethods : ∀ t, s.allMethods t = c.symbols.allMethods t)
    (hctors : ∀ t, s.ctorsOf t = c.symbols.ctorsOf t) (hdelegates : ∀ k, s.delegates.get? k = c.symbols.delegates.get? k) :
    c.Moved .refl (Symbols.Linked .refl) { c with symbols := s } where
  known := {
    symbols := {
      names := (Symbols.Linked.self hp).of_sameNames (.refl _) hn
      phase := hphase
      fields := fun {t} _ => by simp [hfields, funext Renaming.field_refl]
      methods := fun {t} _ => by simp [hmethods, funext Renaming.method_refl]
      ctors := fun {t} _ => by simp [hctors, funext Renaming.method_refl]
      delegates := fun k => by simp [hdelegates, funext Renaming.delegate_refl] }
    module := .self _
    roles := (Renaming.roles_refl _).symm }
  types := by rw [funext Renaming.declaredType_refl, List.map_id']
  entry := by simp [funext Renaming.method_refl]
  backend := rfl
  name := rfl
  lines := rfl

/-- A compilation is itself, where names have their meanings whatever arrays have been entered. -/
theorem self (hp : c.symbols.PlainAliases) : c.Moved .refl (Symbols.Linked .refl) c :=
  of_symbols hp (.refl _) rfl (fun _ => rfl) (fun _ => rfl) (fun _ => rfl) fun _ => rfl

end Moved

/-- The same compilation, but for the order of its types and the arrays that have been entered. -/
abbrev Same (c c' : Compilation) : Prop := c.Moved .refl (Symbols.Linked .refl) c'

theorem Same.right (h : Same c c') : Same c' c' := .self h.known.symbols.names.plain'

theorem Moved.same (h : c.Moved ρ (Symbols.Linked ρ) c') (h' : Same c' c'') : c.Moved ρ (Symbols.Linked ρ) c'' :=
  h.trans h' fun h h' => h.trans h'

end Compilation

/-- The attributes that a source's type is given. -/
def Declaration.attrs : Declaration → TypeAttributes
  | .delegate _ => .delegates
  | .class _ => .classes

namespace Compilation
variable {c c' : Compilation} {src a b : Declaration} {σ τ : Equiv.Perm Nat}

/-! ### One source -/

/-- Defines the type of a source. -/
def defineSource (c : Compilation) (src : Declaration) : Except Fault Compilation :=
  c.defineType src src.attrs (src.base? c.roles)

theorem defineTypes_sources (c : Compilation) (p : Program) : c.defineTypes p = p.sources.foldlM defineSource c := by
  rw [Program.sources, List.foldlM_append, List.foldlM_map]
  simp only [List.foldlM_map]
  rfl

/-- The type that a source is given at a place. -/
def typeAt (c : Compilation) (i : Nat) (src : Declaration) : Ty :=
  let d : Declared := { module := c.module.id, index := i, assembly := c.module.name, name := src.name, isValue := false }
  match src.base? c.roles with
  | some b => .derived d b
  | none => .root d

theorem name_typeAt (c : Compilation) (i : Nat) (src : Declaration) : (c.typeAt i src).name = src.name :=
  by cases src <;> rfl

/-- The type that a source is given behind those there are. -/
def nextType (c : Compilation) (src : Declaration) : Ty := c.typeAt c.module.types.size src

/-- The compilation with the type of a source. -/
def withSource (c : Compilation) (src : Declaration) : Compilation :=
  { c with
    module := { c.module with types := c.module.types.push { type := c.nextType src, attrs := src.attrs } }
    symbols := { c.symbols with types := c.symbols.types.put (Symbols.key src.name) (c.nextType src)
                                declared := c.symbols.declared ++ [c.nextType src] }
    types := c.types ++ [{ type := c.nextType src, source := src }] }

theorem type?_withSource {n : Text} {t : Ty} (h : c.module.type? n = some t) :
    (c.withSource src).module.type? n = some t := by
  obtain ⟨d, hd, rfl⟩ := Option.map_eq_some_iff.mp h
  show Option.map TypeDef.type ((c.module.types.push _).find? _) = _
  rw [Array.find?_push, hd, Option.some_or, Option.map_some]

/-- A source that a type can be defined for: it has a name, and the name is that of no type so far. -/
structure Accepts (c : Compilation) (src : Declaration) : Prop where
  phase : c.symbols.phase = .declare
  named : src.name.isEmpty = false
  fresh : c.symbols.hasType src.name = false
  unused : (c.module.types.any fun d => decide (d.type.name = src.name)) = false

theorem defineSource_ok_iff : c.defineSource src = .ok c' ↔ c.Accepts src ∧ c' = c.withSource src := by
  have hname : (c.nextType src).name = src.name := c.name_typeAt _ src
  have hdefine : c.module.defineType src.name src.attrs (src.base? c.roles) =
      if c.module.types.any fun d => decide (d.type.name = src.name) then .error (.shape (.moduleTypeDefined src.name))
      else .ok (c.nextType src, (c.withSource src).module) := rfl
  unfold defineSource Compilation.defineType
  dsimp only
  rw [hdefine]
  constructor
  · intro h
    split at h
    · cases h
    rename_i hnamed
    split at h
    · cases h
    rename_i hfresh
    obtain ⟨⟨t, m⟩, h1, h⟩ := bind_eq_ok.mp h
    obtain ⟨s, h2, h⟩ := bind_eq_ok.mp h
    split at h1
    · cases h1
    rename_i hunused
    cases h1
    obtain ⟨hphase, -, rfl⟩ := Symbols.registerType_ok_iff.mp h2
    cases h
    refine ⟨⟨hphase, by simpa using hnamed, by simpa using hfresh, by simpa using hunused⟩, ?_⟩
    rw [hname]
    rfl
  · rintro ⟨⟨hphase, hnamed, hfresh, hunused⟩, rfl⟩
    have hregister := Symbols.registerType_ok_iff.mpr ⟨hphase, by rw [hname]; exact hfresh, rfl⟩
    rw [hnamed, hfresh, hunused]
    simp only [Bool.false_eq_true, if_false]
    refine bind_eq_ok.mpr ⟨_, rfl, bind_eq_ok.mpr ⟨_, hregister, ?_⟩⟩
    rw [hname]
    rfl

/-! ### Compilations that accept the same sources -/

namespace Moved

/-- Types stand in two orders; those that there are none of yet stay where they are. -/
theorem any_name (h : c.Moved (.reorder σ) (Symbols.Entered (.reorder σ)) c') (n : Text) :
    (c'.module.types.any fun d => decide (d.type.name = n)) = c.module.types.any fun d => decide (d.type.name = n) := by
  have types := h.known.module.types
  rw [Bool.eq_iff_iff, Array.any_eq_true', Array.any_eq_true']
  constructor
  · rintro ⟨d, hd, hn⟩
    obtain ⟨i, hi⟩ := Array.mem_iff_getElem?.mp hd
    have hi' := types (σ.symm i)
    rw [Equiv.apply_symm_apply, hi] at hi'
    obtain ⟨e, he, rfl⟩ := Option.map_eq_some_iff.mp hi'.symm
    exact ⟨e, Array.mem_of_getElem? he, by simpa using hn⟩
  · rintro ⟨d, hd, hn⟩
    obtain ⟨i, hi⟩ := Array.mem_iff_getElem?.mp hd
    have hi' := types i
    rw [hi] at hi'
    exact ⟨_, Array.mem_of_getElem? hi', by simpa using hn⟩

theorem accepts (h : c.Moved (.reorder σ) (Symbols.Entered (.reorder σ)) c') (ha : c.Accepts src) : c'.Accepts src where
  phase := h.known.symbols.phase.trans ha.phase
  named := ha.named
  fresh := by rw [h.known.symbols.hasType, ha.fresh]
  unused := by rw [h.any_name, ha.unused]

theorem typeAt (h : c.Moved (.reorder σ) (Symbols.Entered (.reorder σ)) c') (i : Nat) (src : Declaration) :
    c'.typeAt (σ i) src = (Renaming.reorder σ).ty (c.typeAt i src) := by
  unfold Compilation.typeAt
  rw [h.known.module.id, h.name, h.known.roles]
  cases src <;> rfl

/-- Both get the type of a source. -/
theorem withSource (h : c.Moved (.reorder σ) (Symbols.Entered (.reorder σ)) c')
    (hsize : c'.module.types.size = c.module.types.size)
    (hfix : σ c.module.types.size = c.module.types.size) {v : Ty} (hvoid : c.module.type? TypeName.void = some v)
    (src : Declaration) :
    (c.withSource src).Moved (.reorder σ) (Symbols.Entered (.reorder σ)) (c'.withSource src) := by
  have htype : c'.nextType src = (Renaming.reorder σ).ty (c.nextType src) := by
    rw [nextType, nextType, hsize, ← h.typeAt, hfix]
  have hs := h.known.symbols
  have hput := hs.names.put (Symbols.key src.name) (c.nextType src)
  rw [← htype] at hput
  refine ⟨⟨⟨⟨hput.aliases, hput.types⟩, hs.phase, hs.fields, hs.methods, hs.ctors, hs.delegates⟩, ?_, h.known.roles⟩,
      ?_, h.entry,
    h.backend, h.name, h.lines⟩
  · refine .of_places h.known.module.id ?_ h.known.module.entry fun i => ?_
    · have hv := h.known.module.void
      rw [hvoid, Renaming.opt_some] at hv
      rw [type?_withSource hvoid, type?_withSource hv, Renaming.opt_some]
    · show (c'.module.types.push _)[σ i]? = ((c.module.types.push _)[i]?).map _
      rw [Array.getElem?_push, Array.getElem?_push, hsize, htype]
      have hplace : σ i = c.module.types.size ↔ i = c.module.types.size := by
        rw [← hfix, EmbeddingLike.apply_eq_iff_eq, hfix]
      by_cases hi : i = c.module.types.size
      · rw [if_pos hi, if_pos (hplace.mpr hi)]
        simp [Renaming.typeDef]
      · rw [if_neg hi, if_neg (mt hplace.mp hi)]
        exact h.known.module.types i
  · show (c'.types ++ [_]).Perm ((c.types ++ [_]).map _)
    rw [List.map_append, htype]
    exact h.types.append_right _

end Moved

/-! ### Sources in a row -/

/-- A compilation whose types are those so far: others may trade places as they like. -/
structure Settled (c : Compilation) : Prop where
  size : Module.hostCount ≤ c.module.types.size
  void : ∃ v, c.module.type? TypeName.void = some v
  fixed : ∀ σ : Equiv.Perm Nat, (∀ i < c.module.types.size, σ i = i) → c.Moved (.reorder σ) (Symbols.Entered (.reorder σ)) c

theorem Settled.withSource (h : c.Settled) (src : Declaration) : (c.withSource src).Settled := by
  obtain ⟨v, hv⟩ := h.void
  have hsize : (c.withSource src).module.types.size = c.module.types.size + 1 := Array.size_push ..
  refine ⟨by have := h.size; omega, ⟨v, type?_withSource hv⟩, fun σ hσ => ?_⟩
  exact (h.fixed σ fun i hi => hσ i (by omega)).withSource rfl (hσ _ (by omega)) hv src

theorem hasType_withSource (n : Text) :
    (c.withSource src).symbols.hasType n = (decide (Symbols.key src.name = Symbols.key n) || c.symbols.hasType n) := by
  show ((c.symbols.types.put _ _).has _ || c.symbols.aliases.has _) =
      (_ || (c.symbols.types.has _ || c.symbols.aliases.has _))
  rw [Table.has_eq, Table.get?_put, Table.has_eq, ← Bool.or_assoc]
  by_cases hk : Symbols.key src.name = Symbols.key n <;> simp [hk, Table.has_eq]

theorem accepts_withSource_iff : (c.withSource a).Accepts b ↔ c.Accepts b ∧ Symbols.key a.name ≠ Symbols.key b.name := by
  have hany : ((c.withSource a).module.types.any fun d => decide (d.type.name = b.name)) =
      ((c.module.types.any fun d => decide (d.type.name = b.name)) || decide (a.name = b.name)) := by
    show (c.module.types.push _).any _ = _
    rw [Array.any_push, show ({ type := c.nextType a, attrs := a.attrs } : TypeDef).type.name =
        a.name from c.name_typeAt _ a]
  constructor
  · rintro ⟨hphase, hnamed, hfresh, hunused⟩
    rw [hasType_withSource, Bool.or_eq_false_iff, decide_eq_false_iff_not] at hfresh
    rw [hany, Bool.or_eq_false_iff] at hunused
    exact ⟨⟨hphase, hnamed, hfresh.2, hunused.1⟩, hfresh.1⟩
  · rintro ⟨⟨hphase, hnamed, hfresh, hunused⟩, hk⟩
    refine ⟨hphase, hnamed, by rw [hasType_withSource, hfresh, decide_eq_false hk]; rfl, ?_⟩
    rw [hany, hunused, decide_eq_false fun hn => hk (congrArg Symbols.key hn)]
    rfl

/-- Two sources trade places when they trade order. -/
theorem withSource_swap (h : c.Settled) (ha : c.Accepts a) (hb : (c.withSource a).Accepts b) :
    c.Accepts b ∧ (c.withSource b).Accepts a ∧ ((c.withSource a).withSource b).Moved
      (.reorder (Equiv.swap c.module.types.size (c.module.types.size + 1)))
      (Symbols.Entered (.reorder (Equiv.swap c.module.types.size (c.module.types.size + 1))))
        ((c.withSource b).withSource a) := by
  obtain ⟨v, hv⟩ := h.void
  have hc := h.fixed (Equiv.swap c.module.types.size (c.module.types.size + 1)) fun i hi =>
    Equiv.swap_apply_of_ne_of_ne (by omega) (by omega)
  generalize hσ : Equiv.swap c.module.types.size (c.module.types.size + 1) = σ at hc ⊢
  have hfirst : σ c.module.types.size = c.module.types.size + 1 := by rw [← hσ, Equiv.swap_apply_left]
  have hsecond : σ (c.module.types.size + 1) = c.module.types.size := by rw [← hσ, Equiv.swap_apply_right]
  have hrest : ∀ i, i ≠ c.module.types.size → i ≠ c.module.types.size + 1 → σ i = i := fun i h h' => by
    rw [← hσ, Equiv.swap_apply_of_ne_of_ne h h']
  have size : ∀ src : Declaration, (c.withSource src).module.types.size = c.module.types.size + 1 :=
    fun _ => Array.size_push ..
  -- Each type is at one place when its source comes first and at the other one when it comes second.
  have traded : ∀ src src' : Declaration, (c.withSource src').nextType src = (Renaming.reorder σ).ty (c.nextType src) ∧
      c.nextType src = (Renaming.reorder σ).ty ((c.withSource src').nextType src) := by
    intro src src'
    have hnext : (c.withSource src').nextType src = c.typeAt (c.module.types.size + 1) src := by
      rw [nextType, size]
      rfl
    rw [hnext, nextType, ← hc.typeAt, ← hc.typeAt, hfirst, hsecond]
    exact ⟨rfl, rfl⟩
  obtain ⟨hb, hkeys⟩ := accepts_withSource_iff.mp hb
  refine ⟨hb, accepts_withSource_iff.mpr ⟨ha, hkeys.symm⟩,
      ⟨⟨⟨rfl, fun k => ?_⟩, rfl, ?_, ?_, ?_, ?_⟩, ?_, hc.known.roles⟩, ?_, hc.entry, rfl, rfl, rfl⟩
  · show ((c.symbols.types.put _ _).put _ _).get? k = (((c.symbols.types.put _ _).put _ _).get? k).map _
    rw [Table.get?_put, Table.get?_put, Table.get?_put, Table.get?_put]
    by_cases hka : Symbols.key a.name = k
    · rw [if_pos hka, if_pos hka, if_neg fun hkb => hkeys (hka.trans hkb.symm), (traded a b).1]
      rfl
    · rw [if_neg hka, if_neg hka]
      split
      · exact congrArg some (traded b a).2
      · exact hc.known.symbols.names.types k
  · exact fun _ => hc.known.symbols.fields trivial
  · exact fun _ => hc.known.symbols.methods trivial
  · exact fun _ => hc.known.symbols.ctors trivial
  · exact hc.known.symbols.delegates
  · refine .of_places rfl ?_ hc.known.module.entry fun i => ?_
    · have hvoid := hc.known.module.void
      rw [type?_withSource (type?_withSource hv), type?_withSource (type?_withSource hv), ← hv]
      exact hvoid
    · show ((c.module.types.push _).push _)[σ i]? = (((c.module.types.push _).push _)[i]?).map _
      simp only [Array.getElem?_push, Array.size_push]
      by_cases hi : i = c.module.types.size
      · subst hi
        rw [hfirst, if_pos rfl, if_neg (by omega), if_pos rfl, (traded a b).1]
        simp [Renaming.typeDef]
      · by_cases hi' : i = c.module.types.size + 1
        · subst hi'
          rw [hsecond, if_neg (by omega), if_pos rfl, if_pos rfl, (traded b a).2]
          simp [Renaming.typeDef]
        · rw [hrest i hi hi', if_neg hi', if_neg hi, if_neg hi', if_neg hi]
          have htypes := hc.known.module.types i
          rwa [hrest i hi hi'] at htypes
  · show ((c.types ++ [_]) ++ [_]).Perm (((c.types ++ [_]) ++ [_]).map _)
    rw [List.append_assoc, List.append_assoc, List.map_append, (traded a b).1, (traded b a).2]
    exact hc.types.append (.swap ..)

/-- Types in another order: those of the catalog stay where they are, and what is behind them trades places. -/
structure Reordered (σ : Equiv.Perm Nat) (c c' : Compilation) : Prop where
  settled : c'.Settled
  size : c'.module.types.size = c.module.types.size
  host : ∀ i < Module.hostCount, σ i = i
  beyond : ∀ i, c.module.types.size ≤ i → σ i = i
  moved : c.Moved (.reorder σ) (Symbols.Entered (.reorder σ)) c'

namespace Reordered

theorem self (h : c.Settled) : Reordered 1 c c := ⟨h, rfl, fun _ _ => rfl, fun _ _ => rfl, h.fixed 1 fun _ _ => rfl⟩

theorem trans {c'' : Compilation} (h : Reordered σ c c') (h' : Reordered τ c' c'') : Reordered (τ * σ) c c'' where
  settled := h'.settled
  size := h'.size.trans h.size
  host i hi := by rw [Equiv.Perm.mul_apply, h.host i hi, h'.host i hi]
  beyond i hi := by rw [Equiv.Perm.mul_apply, h.beyond i hi, h'.beyond i (by rw [h.size]; exact hi)]
  moved := h.moved.trans h'.moved fun h h' => h.trans h'

theorem defineSource (h : Reordered σ c c') {c₁ : Compilation} (hd : c.defineSource src = .ok c₁) :
    ∃ c₁', c'.defineSource src = .ok c₁' ∧ Reordered σ c₁ c₁' := by
  obtain ⟨ha, rfl⟩ := defineSource_ok_iff.mp hd
  obtain ⟨v', hv'⟩ := h.settled.void
  obtain ⟨v, hv, -⟩ := Option.map_eq_some_iff.mp (h.moved.known.module.void.symm.trans hv')
  have size : ∀ c : Compilation, (c.withSource src).module.types.size = c.module.types.size + 1 :=
    fun _ => Array.size_push ..
  refine ⟨_, defineSource_ok_iff.mpr ⟨h.moved.accepts ha, rfl⟩, h.settled.withSource src, ?_, h.host,
      fun i hi => h.beyond i ?_,
    h.moved.withSource h.size (h.beyond _ (Nat.le_refl _)) hv src⟩
  · rw [size, size, h.size]
  · rw [size] at hi
    omega

theorem swap (h : c.Settled) {c₁ c₂ : Compilation} (ha : c.defineSource a = .ok c₁) (hb : c₁.defineSource b = .ok c₂) :
    ∃ c₁' c₂', c.defineSource b = .ok c₁' ∧ c₁'.defineSource a = .ok c₂' ∧ ∃ σ, Reordered σ c₂ c₂' := by
  obtain ⟨hfirst, rfl⟩ := defineSource_ok_iff.mp ha
  obtain ⟨hsecond, rfl⟩ := defineSource_ok_iff.mp hb
  obtain ⟨hb', ha', hmoved⟩ := withSource_swap h hfirst hsecond
  have hsize := h.size
  have size : ∀ (c : Compilation) (src : Declaration), (c.withSource src).module.types.size = c.module.types.size + 1 :=
    fun _ _ => Array.size_push ..
  refine ⟨_, _, defineSource_ok_iff.mpr ⟨hb', rfl⟩, defineSource_ok_iff.mpr ⟨ha', rfl⟩, _,
      (h.withSource b).withSource a, ?_, fun i hi => ?_,
    fun i hi => ?_, hmoved⟩
  · rw [size, size, size, size]
  · exact Equiv.swap_apply_of_ne_of_ne (by omega) (by omega)
  · rw [size, size] at hi
    exact Equiv.swap_apply_of_ne_of_ne (by omega) (by omega)

end Reordered

/-- The types of a program whose declarations are permuted. -/
theorem defineTypes_reordered {p p' : Program} (hp : p.sources.Perm p'.sources) (h : c.Settled)
    (hd : c.defineTypes p = .ok c') :
    ∃ c₁, c.defineTypes p' = .ok c₁ ∧ ∃ σ, Reordered σ c' c₁ := by
  rw [defineTypes_sources] at hd ⊢
  refine foldlM_perm (R := fun c c' => ∃ σ, Reordered σ c c') (D := fun _ _ => True) ?_ ?_ ?_ ?_ (fun _ => trivial) hp
    (List.pairwise_of_forall fun _ _ => trivial) ⟨1, .self h⟩ hd
  · rintro s t ⟨σ, h⟩
    exact ⟨1, .self h.settled⟩
  · rintro s t u ⟨σ, h⟩ ⟨τ, h'⟩
    exact ⟨_, h.trans h'⟩
  · rintro src s s' t ⟨σ, h⟩ hd
    obtain ⟨t', ht, h'⟩ := h.defineSource hd
    exact ⟨t', ht, σ, h'⟩
  · rintro a b s s₁ s₂ - ⟨σ, h⟩ ha hb
    exact Reordered.swap h.settled ha hb

/-! ### Types that have been laid out -/

/-- Types with members of their own. -/
structure Separate (d e : DeclaredType) : Prop where
  key : Symbols.key d.type.name ≠ Symbols.key e.type.name
  place : d.type.declared.index ≠ e.type.declared.index

theorem Separate.symm (h : Separate d e) : Separate e d := ⟨h.key.symm, h.place.symm⟩

/-- A type of the module. -/
structure Home (c : Compilation) (d : DeclaredType) : Prop where
  notArray : d.type.isArray = false
  module : d.type.module = c.module.id

/-- All types of a program are of its module, under keys and at places of their own. -/
structure Spread (c : Compilation) : Prop where
  apart : c.types.Pairwise Separate
  home : ∀ d ∈ c.types, Home c d
  entered : ∀ d ∈ c.types, c.symbols.hasType d.type.name = true
  below : ∀ d ∈ c.types, d.type.declared.index < c.module.types.size

theorem Spread.defineSource (h : c.Spread) (hd : c.defineSource src = .ok c') : c'.Spread := by
  obtain ⟨ha, rfl⟩ := defineSource_ok_iff.mp hd
  have hsize : (c.withSource src).module.types.size = c.module.types.size + 1 := Array.size_push ..
  have hname : (c.nextType src).name = src.name := c.name_typeAt _ src
  have hindex : (c.nextType src).declared.index = c.module.types.size := by cases src <;> rfl
  refine ⟨?_, fun d hd => ?_, fun d hd => ?_, fun d hd => ?_⟩
  · refine List.pairwise_append.mpr ⟨h.apart, List.pairwise_singleton .., fun d hd e he => ?_⟩
    rw [List.mem_singleton.mp he]
    refine ⟨fun hk => ?_, fun hi => ?_⟩
    · have hfresh := ha.fresh
      have hentered := h.entered d hd
      rw [Symbols.hasType, show Symbols.key d.type.name =
          Symbols.key src.name from hk.trans (congrArg Symbols.key hname)] at hentered
      rw [Symbols.hasType, hentered] at hfresh
      cases hfresh
    · have := h.below d hd
      have hi : d.type.declared.index = (c.nextType src).declared.index := hi
      omega
  all_goals rcases List.mem_append.mp hd with hd | hd
  · exact ⟨(h.home d hd).notArray, (h.home d hd).module⟩
  · rw [List.mem_singleton.mp hd]
    cases src <;> exact ⟨rfl, rfl⟩
  · rw [hasType_withSource, h.entered d hd, Bool.or_true]
  · rw [List.mem_singleton.mp hd, hasType_withSource]
    simp [hname]
  · rw [hsize]
    have := h.below d hd
    omega
  · rw [List.mem_singleton.mp hd, hsize]
    exact hindex ▸ Nat.lt_succ_self _

theorem Spread.defineTypes {p : Program} (h : c.Spread) (hd : c.defineTypes p = .ok c') : c'.Spread := by
  rw [defineTypes_sources] at hd
  generalize p.sources = sources at hd
  induction sources generalizing c with
  | nil =>
    cases hd
    exact h
  | cons src sources ih =>
    obtain ⟨c₁, h1, h2⟩ := foldlM_cons_ok hd
    exact ih (h.defineSource h1) h2

/-! ### The catalog -/

/-- Types of the catalog stay where they are, and so does all that is entered for them. -/
theorem enterCatalog_settled {backend : Backend} {name runtime : Text}
    (h : enterCatalog (start (Module.new 0 backend name runtime)) = .ok c) :
    c.Settled := by
  have hhost : hostModule.Alike (.rehost Host.defaultAssembly (Module.new 0 backend name runtime).runtime)
      (Module.new 0 backend name runtime) :=
    Module.new_renamed fun _ hd ha => Renaming.rehost_declared_host hd ha
  obtain ⟨hmodule, -, -⟩ := enterCatalog_start h
  generalize hm : Module.new 0 backend name runtime = m at h hhost hmodule
  have hsize : m.types.size = Module.hostCount := by rw [hhost.types, Array.size_map, hostModule_size]
  refine ⟨by rw [hmodule, hsize], ?_, fun σ hσ => ?_⟩
  · rw [hmodule, hhost.type?, hostModule_evaluated.2.2]
    exact ⟨_, rfl⟩
  · rw [hmodule, hsize] at hσ
    have halike : m.Alike (.reorder σ) m := by
      rw [← hm]
      refine Module.new_renamed fun d hd ha => ?_
      show { d with index := σ d.index } = _
      rw [hσ _ hd, ← ha]
    have hlocal : m.Local (.reorder σ) (fun _ => True) m := by
      refine .of_places rfl (halike.type? _) halike.entry fun i => ?_
      have htypes : (m.types[i]?).map (Renaming.reorder σ).typeDef = m.types[i]? := by
        rw [← Array.getElem?_map, ← halike.types]
      rw [htypes]
      by_cases hi : i < Module.hostCount
      · rw [hσ i hi]
      · have hi' : ¬σ i < Module.hostCount := fun hlt => hi (by
          have := σ.injective (hσ _ hlt)
          rwa [this] at hlt)
        rw [Array.getElem?_eq_none (by omega), Array.getElem?_eq_none (by omega)]
    have hdefault : (Renaming.reorder σ).ty default = default := by
      show Ty.root { (default : Declared) with index := σ 0 } = _
      rw [hσ 0 (by decide)]
      rfl
    obtain ⟨c₁, h₁, hc⟩ := ((Alike.start hdefault halike).enterCatalog hlocal).of_ok h
    cases h.symm.trans h₁
    refine ⟨⟨hc.symbols, hmodule ▸ hlocal, hc.roles⟩, ?_, hc.entry, rfl, rfl, rfl⟩
    rw [← hc.types]

theorem Settled.beginDeclarations (h : c.Settled) {s : Symbols} (hs : c.symbols.beginDeclarations = .ok s) :
    ({ c with symbols := s }).Settled := by
  obtain ⟨_, -, hs⟩ := bind_eq_ok.mp hs
  cases hs
  refine ⟨h.size, h.void, fun σ hσ => ?_⟩
  have hc := h.fixed σ hσ
  exact ⟨⟨hc.known.symbols.withPhase (Symbols.Entered.naming _) .declare, hc.known.module, hc.known.roles⟩, hc.types,
      hc.entry, rfl, rfl, rfl⟩

end Compilation
end CilCompiler
