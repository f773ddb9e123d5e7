import CilCompiler.Compiler
import CilCompiler.Proofs.Compilation.Host
import CilCompiler.Proofs.Renaming.Declared

/-! Compilations that are the same up to renaming as a whole (`Compilation.Alike`). A module of one kind starts with
    the catalog that a module of the other kind starts with, in another assembly at most, so once the catalog has been
    entered the two compilations are alike.

What is renamed twice is renamed by the composition of the two, and the renaming that leaves every declaration as it is
leaves every type, member, body and definition as it is.
-/

namespace CilCompiler

namespace Renaming

/-- No type is at another place after renaming. -/
def Still (ρ : Renaming) : Prop := ∀ d, (ρ.declared d).index = d.index

theorem Still.index_ty {ρ : Renaming} (hρ : ρ.Still) (t : Ty) : (ρ.ty t).declared.index = t.declared.index := by
  rw [declared_ty, hρ]

def members (ρ : Renaming) (x : TypeMembers) : TypeMembers :=
  { type := ρ.ty x.type, fields := x.fields.map ρ.field, methods := x.methods.map ρ.method, ctors := x.ctors.map ρ.method }

end Renaming

variable {ρ : Renaming}

/-! ### Names -/

/-- The same types have been entered under the same names, up to renaming. -/
structure Symbols.Entered (ρ : Renaming) (s s' : Symbols) : Prop where
  aliases : s'.aliases = s.aliases
  types : ∀ k, s'.types.get? k = (s.types.get? k).map ρ.ty

namespace Symbols.Entered
variable {s s' : Symbols}

theorem entered? (h : s.Entered ρ s') (n : Text) : s'.entered? n = (s.entered? n).map ρ.ty := by
  rw [Symbols.entered?, h.aliases, h.types]
  rfl

theorem put (h : s.Entered ρ s') (k : Text) (t : Ty) :
    Entered ρ { s with types := s.types.put k t } { s' with types := s'.types.put k (ρ.ty t) } := by
  refine ⟨h.aliases, fun k' => ?_⟩
  rw [Table.get?_put, Table.get?_put, h.types]
  split <;> rfl

theorem lookup (h : s.Entered ρ s') (n : Text) :
    Agree (fun r r' => r'.1 = ρ.ty r.1 ∧ r.2.Entered ρ r'.2) (s.lookup n) (s'.lookup n) := by
  induction n using Symbols.elem?_induction generalizing s s' with
  | h n ih =>
    rw [Symbols.lookup, Symbols.lookup, h.entered? n]
    cases s.entered? n with
    | some t => exact .ok ⟨rfl, h⟩
    | none =>
      dsimp only [Option.map_none]
      split
      · rename_i e he
        refine (ih e he h).bind ?_
        rintro ⟨t, r⟩ ⟨_, r'⟩ ⟨rfl, hr⟩
        refine .ok ⟨rfl, hr.aliases, fun k => ?_⟩
        show (r'.types.put ((r'.aliases.get? (Symbols.key n)).getD (Symbols.key n)) _).get? k = _
        rw [hr.aliases]
        exact (hr.put _ (.array t)).types k
      · exact .error rfl

theorem naming (ρ : Renaming) : ρ.Naming (fun _ => True) (Symbols.Entered ρ) where
  lookup n h := h.lookup n
  entered h _ := h.entered? _
  keeps h ht ha ht' ha' := ⟨by rw [ha', h.aliases, ha], fun k => by rw [ht', h.types, ht]⟩

end Symbols.Entered

/-! ### Modules -/

theorem Module.Local.membersOf {m m' : Module} (h : m.Local ρ (fun _ => True) m') (t : Ty) :
    m'.membersOf (ρ.ty t) = ρ.members (m.membersOf t) := by
  rw [Module.membersOf, h.fields trivial, h.methods trivial, h.ctors trivial]
  rfl

/-- All definitions are the renamed ones. -/
structure Module.Alike (ρ : Renaming) (m m' : Module) : Prop where
  id : m'.id = m.id
  types : m'.types = m.types.map ρ.typeDef
  entry : m'.entry = m.entry.map ρ.method

namespace Module.Alike
variable {m m' : Module}

theorem type? (h : m.Alike ρ m') (n : Text) : m'.type? n = ρ.opt (m.type? n) := by
  have hp : ((fun d : TypeDef => decide (d.type.name = n)) ∘ ρ.typeDef) = fun d => decide (d.type.name = n) := by
    funext d
    simp
  rw [Module.type?, h.types, Array.find?_map, hp, Module.type?]
  cases m.types.find? _ <;> rfl

theorem def? (hρ : ρ.Still) (h : m.Alike ρ m') (t : Ty) : m'.def? (ρ.ty t) = (m.def? t).map ρ.typeDef := by
  cases ha : t.isArray with
  | true => rw [def?_of_isArray ha, def?_of_isArray (by rw [Renaming.isArray_ty, ha]), Option.map_none]
  | false =>
    rw [def?_eq ha, def?_eq (by rw [Renaming.isArray_ty, ha]), Renaming.module_ty, h.id, hρ.index_ty, h.types,
        Array.getElem?_map]
    split <;> rfl

theorem «local» (hρ : ρ.Still) (h : m.Alike ρ m') : m.Local ρ (fun _ => True) m' where
  places {t u} _ _ := by rw [hρ.index_ty, hρ.index_ty]
  id := h.id
  void := h.type? _
  entry := h.entry
  own {t} _ := h.def? hρ t

/-- What is said of every type is said of the module. -/
theorem of_local (hρ : ρ.Still) (h : m.Local ρ (fun _ => True) m') : m.Alike ρ m' where
  id := h.id
  entry := h.entry
  types := by
    apply Array.ext_getElem?
    intro i
    have hown :=
      h.own (t := .root { module := m.id, index := i, assembly := .empty, name := .empty, isValue := false }) trivial
    rw [def?_eq (by rw [Renaming.isArray_ty]; rfl), def?_eq rfl, Renaming.module_ty, hρ.index_ty, h.id] at hown
    rw [Array.getElem?_map]
    simpa [Ty.module, Ty.declared] using hown

theorem hostTypes (h : m.Alike ρ m') : m'.hostTypes = m.hostTypes.map ρ.ty := by
  rw [Module.hostTypes, Module.hostDefs, h.types, Array.toList_map, ← List.map_take, List.map_map,
      Module.hostTypes, Module.hostDefs,
    List.map_map]
  rfl

end Module.Alike

/-! ### Entering the catalog -/

namespace Symbols.Local
variable {s s' : Symbols}

theorem enterMembers (h : s.Local ρ (Entered ρ) (fun _ => True) s') (x : TypeMembers) :
    (s.enterMembers x).Local ρ (Entered ρ) (fun _ => True) (s'.enterMembers (ρ.members x)) := by
  have hname : (ρ.members x).type.name = x.type.name := ρ.name_ty x.type
  refine ⟨?_, h.phase, fun {t} _ => ?_, fun {t} _ => ?_, fun {t} _ => ?_, h.delegates⟩
  · have hput := h.names.put (key x.type.name) x.type
    refine ⟨hput.aliases, fun k => ?_⟩
    rw [Symbols.enterMembers, hname]
    exact hput.types k
  · have ht := h.fields (t := t) trivial
    simp only [Symbols.fieldsOf, Renaming.name_ty] at ht
    simp only [Symbols.fieldsOf, Symbols.enterMembers, hname, Renaming.name_ty]
    exact getD_put_map rfl ht
  · have ht := h.methods (t := t) trivial
    simp only [Symbols.allMethods, Renaming.name_ty] at ht
    simp only [Symbols.allMethods, Symbols.enterMembers, hname, Renaming.name_ty]
    exact getD_put_map rfl ht
  · have ht := h.ctors (t := t) trivial
    simp only [Symbols.ctorsOf, Renaming.name_ty] at ht
    simp only [Symbols.ctorsOf, Symbols.enterMembers, hname, Renaming.name_ty]
    exact getD_put_map rfl ht

theorem registerBuiltins (h : s.Local ρ (Entered ρ) (fun _ => True) s') (xs : List TypeMembers) :
    Agree (Symbols.Local ρ (Entered ρ) fun _ => True) (s.registerBuiltins xs) (s'.registerBuiltins (xs.map ρ.members)) := by
  have fold : (xs.foldl Symbols.enterMembers s).Local ρ (Entered ρ) (fun _ => True)
      ((xs.map ρ.members).foldl Symbols.enterMembers s') := by
    induction xs generalizing s s' with
    | nil => exact h
    | cons x xs ih => exact ih (h.enterMembers x)
  exact (h.requirePhase _ _).bind fun _ _ _ => .ok fold

theorem registerAlias (h : s.Local ρ (Entered ρ) (fun _ => True) s') (spelling target : Text) :
    Agree (Symbols.Local ρ (Entered ρ) fun _ => True) (s.registerAlias spelling target)
      (s'.registerAlias spelling target) := by
  have hhas : s'.types.has (key target) = s.types.has (key target) := by
    rw [Table.has_eq, h.names.types, Option.isSome_map, Table.has_eq]
  refine (h.requirePhase _ _).bind fun _ _ _ => .ite (by rw [hhas]) (fun _ => .ok ?_) fun _ => .error rfl
  exact ⟨⟨by rw [h.names.aliases], h.names.types⟩, h.phase, h.fields, h.methods, h.ctors, h.delegates⟩

end Symbols.Local

namespace Compilation
variable {c c' : Compilation}

/-- One compilation is the other, up to renaming. -/
structure Alike (ρ : Renaming) (c c' : Compilation) : Prop where
  symbols : c.symbols.Local ρ (Symbols.Entered ρ) (fun _ => True) c'.symbols
  module : c.module.Alike ρ c'.module
  roles : c'.roles = ρ.roles c.roles
  types : c'.types = c.types.map ρ.declaredType
  entry : c'.entry = c.entry.map ρ.method

namespace Alike

theorem «local» (h : c.Alike ρ c') (hρ : ρ.Still) : c.Local ρ (Symbols.Entered ρ) (fun _ => True) c' :=
  ⟨h.symbols, h.module.local hρ, h.roles⟩

theorem withSymbols (h : c.Alike ρ c') {s s' : Symbols} (hs : s.Local ρ (Symbols.Entered ρ) (fun _ => True) s') :
    ({ c with symbols := s } : Compilation).Alike ρ { c' with symbols := s' } :=
  ⟨hs, h.module, h.roles, h.types, h.entry⟩

/-- New compilations into modules that are alike. -/
theorem start {m m' : Module} (hdefault : ρ.ty default = default) (h : m.Alike ρ m') :
    (Compilation.start m).Alike ρ (Compilation.start m') := by
  have role : ∀ n : Text, (m'.type? n).getD default = ρ.ty ((m.type? n).getD default) := by
    intro n
    rw [h.type?]
    cases m.type? n with
    | none => exact hdefault.symm
    | some t => rfl
  refine ⟨⟨⟨rfl, fun _ => rfl⟩, rfl, fun _ => rfl, fun _ => rfl, fun _ => rfl, fun _ => rfl⟩, h, ?_, rfl, rfl⟩
  simp only [Compilation.start, rolesOf, Renaming.roles, role]

theorem registerAliases {s s' : Symbols} (h : s.Local ρ (Symbols.Entered ρ) (fun _ => True) s') (l : List (Text × Text)) :
    Agree (Symbols.Local ρ (Symbols.Entered ρ) fun _ => True) (Compilation.registerAliases s l)
      (Compilation.registerAliases s' l) := by
  induction l generalizing s s' with
  | nil => exact .ok h
  | cons a l ih => exact (h.registerAlias a.1 a.2).bind fun _ _ h => ih h

theorem enterCatalog (hl : c.module.Local ρ (fun _ => True) c'.module) (h : c.Alike ρ c') :
    Agree (Alike ρ) c.enterCatalog c'.enterCatalog := by
  have hmembers : c'.module.hostTypes.map c'.module.membersOf =
      (c.module.hostTypes.map c.module.membersOf).map ρ.members := by
    rw [h.module.hostTypes, List.map_map, List.map_map]
    exact List.map_congr_left fun t _ => hl.membersOf t
  unfold Compilation.enterCatalog
  rw [hmembers]
  exact (h.symbols.registerBuiltins _).bind fun _ _ hs => (registerAliases hs _).bind fun _ _ hs => .ok (h.withSymbols hs)

end Alike
end Compilation

/-! ### The catalog in another assembly -/

namespace Renaming

/-- Two assemblies in which types of the catalog are change places. -/
def rehost (a b : Text) : Renaming where
  declared d :=
    if d.index < Module.hostCount
      then { d with assembly := if d.assembly = a then b else if d.assembly = b then a else d.assembly }
    else d
  module_declared d := by split <;> rfl
  name_declared d := by split <;> rfl
  isValue_declared d := by split <;> rfl

variable {a b : Text}

/-- Types of the catalog in one assembly are renamed to those in another. -/
def Rehosts (ρ : Renaming) (a b : Text) : Prop :=
  ∀ d : Declared, d.index < Module.hostCount → d.assembly = a → ρ.declared d = { d with assembly := b }

theorem rehost_declared_host {d : Declared} (hd : d.index < Module.hostCount) (ha : d.assembly = a) :
    (rehost a b).declared d = { d with assembly := b } := by
  simp only [rehost, if_pos hd, if_pos ha]

theorem rehost_declared {d : Declared} (hd : Module.hostCount ≤ d.index) : (rehost a b).declared d = d := by
  simp only [rehost, if_neg (Nat.not_lt.mpr hd)]

theorem rehost_still : (rehost a b).Still := by
  intro d
  simp only [rehost]
  split <;> rfl

/-- Renamed twice, a type is as it was. -/
theorem rehost_declared_twice (d : Declared) : (rehost a b).declared ((rehost a b).declared d) = d := by
  obtain ⟨module, index, assembly, name, isValue⟩ := d
  by_cases hd : index < Module.hostCount
  · simp only [rehost, if_pos hd]
    by_cases h1 : assembly = a
    · subst h1
      simp only [if_true]
      split
      · simp_all
      · rfl
    · by_cases h2 : assembly = b
      · subst h2
        simp [h1]
      · simp [h1, h2]
  · simp only [rehost, if_neg hd]

theorem rehost_ty_twice (t : Ty) : (rehost a b).ty ((rehost a b).ty t) = t := by
  induction t with
  | root d => rw [ty, ty, rehost_declared_twice]
  | derived d u ih => rw [ty, ty, rehost_declared_twice, ih]
  | array u ih => rw [ty, ty, ih]

theorem rehost_distinct : (rehost a b).Distinct := fun d e h => by
  rw [← rehost_declared_twice (a := a) (b := b) d, h, rehost_declared_twice]

theorem rehost_default (ha : a ≠ .empty) (hb : b ≠ .empty) : (rehost a b).ty default = default := by
  have he : (default : Declared).assembly = .empty := rfl
  show Ty.root ((rehost a b).declared default) = Ty.root default
  simp only [rehost, he, if_neg ha.symm, if_neg hb.symm]
  split <;> rfl

theorem typesFrom_renamed {ρ : Renaming} (hρ : ρ.Rehosts a b) (id : Nat) (done : List Ty) (es : List Host.TypeEntry)
    (h : done.length + es.length ≤ Module.hostCount) :
    Host.typesFrom id b (done.map ρ.ty) es = (Host.typesFrom id a done es).map ρ.ty := by
  induction es generalizing done with
  | nil => rfl
  | cons e es ih =>
    rw [List.length_cons] at h
    have hp : ∀ n : Text, (done.map ρ.ty).find? (fun t => t.name = n) = (done.find? fun t => t.name = n).map ρ.ty := by
      intro n
      rw [List.find?_map]
      simp only [Function.comp_def, name_ty]
    have hdeclared :
        ρ.declared { module := id, index := done.length, assembly := a, name := e.name, isValue := e.isValue } =
        { module := id, index := done.length, assembly := b, name := e.name, isValue := e.isValue } :=
      hρ _ (show done.length < Module.hostCount by omega) rfl
    have hbase : (e.base.bind fun n => (done.map ρ.ty).find? fun t => t.name = n) =
        (e.base.bind fun n => done.find? fun t => t.name = n).map ρ.ty := by
      cases e.base with
      | none => rfl
      | some n => exact hp n
    rw [Host.typesFrom, Host.typesFrom, ← ih _ (by simp; omega), hbase, List.length_map, List.map_append]
    cases e.base.bind fun n => done.find? fun t => t.name = n with
    | none => simp only [Option.map_none, List.map_cons, List.map_nil, ty, hdeclared]
    | some u => simp only [Option.map_some, List.map_cons, List.map_nil, ty, hdeclared]

theorem typeDef_ofEntry (ρ : Renaming) (host : List Ty) (t : Ty) (e : Host.TypeEntry) :
    ρ.typeDef (TypeDef.ofEntry host t e) = TypeDef.ofEntry (host.map ρ.ty) (ρ.ty t) e := by
  have hp : ∀ n : Text, (host.map ρ.ty).find? (fun t => t.name = n) = ρ.opt (host.find? fun t => t.name = n) := by
    intro n
    rw [List.find?_map]
    simp only [Function.comp_def, name_ty]
    rfl
  have hdraft : ρ.draft {} = {} := by simp [draft]
  simp only [TypeDef.ofEntry, typeDef, hp, List.map_toArray, List.map_map, Function.comp_def, field,
      routine, method, hdraft,
    Option.map_none]

end Renaming

/-- Modules start with one catalog, in the assemblies that they name. -/
theorem Module.new_renamed {backend backend' : Backend} {name runtime name' runtime' : Text}
    (hρ : ρ.Rehosts (Module.new 0 backend name runtime).runtime (Module.new 0 backend' name' runtime').runtime) :
    (Module.new 0 backend name runtime).Alike ρ (Module.new 0 backend' name' runtime') where
  id := rfl
  entry := rfl
  types := by
    have htypes := Renaming.typesFrom_renamed hρ 0 [] Host.catalog (by simp [Module.hostCount])
    simp only [Module.new, Host.types, List.map_nil] at htypes ⊢
    rw [htypes, List.map_toArray, List.zip_map_left, List.map_map, List.map_map]
    congr 1
    apply List.map_congr_left
    rintro ⟨t, e⟩ -
    exact (Renaming.typeDef_ofEntry _ _ _ _).symm

/-- A listing starts with the catalog of a module that can be run, in the assembly that it names. -/
theorem Module.new_alike (name runtime runtime' : Text) :
    (Module.new 0 .dynamic name runtime).Alike
      (.rehost Host.defaultAssembly (if runtime'.isEmpty then Host.defaultAssembly else runtime'))
      (Module.new 0 .textual name runtime') :=
  new_renamed fun _ hd ha => Renaming.rehost_declared_host hd ha

namespace Renaming

/-! ### Two renamings -/

/-- One renaming after another. -/
def trans (ρ τ : Renaming) : Renaming where
  declared d := τ.declared (ρ.declared d)
  module_declared d := (τ.module_declared _).trans (ρ.module_declared d)
  name_declared d := (τ.name_declared _).trans (ρ.name_declared d)
  isValue_declared d := (τ.isValue_declared _).trans (ρ.isValue_declared d)

variable (ρ τ : Renaming)

@[simp] theorem ty_trans (t : Ty) : (ρ.trans τ).ty t = τ.ty (ρ.ty t) := by
  induction t with
  | root d => rfl
  | derived d b ih => simp only [ty, ih]; rfl
  | array t ih => simp only [ty, ih]

@[simp] theorem opt_trans (t : Option Ty) : (ρ.trans τ).opt t = τ.opt (ρ.opt t) := by cases t <;> simp

@[simp] theorem field_trans (f : Field) : (ρ.trans τ).field f = τ.field (ρ.field f) := by simp [field]

@[simp] theorem method_trans (m : Method) : (ρ.trans τ).method m = τ.method (ρ.method m) := by simp [method]

@[simp] theorem delegate_trans (d : Delegate) : (ρ.trans τ).delegate d = τ.delegate (ρ.delegate d) := by simp [delegate]

theorem roles_trans (r : Roles) : (ρ.trans τ).roles r = τ.roles (ρ.roles r) := by simp [roles]

@[simp] theorem instr_trans (i : Instr) : (ρ.trans τ).instr i = τ.instr (ρ.instr i) := by
  obtain ⟨op, x⟩ := i
  cases x <;> simp [instr, operand]

theorem draft_trans (d : Draft) : (ρ.trans τ).draft d = τ.draft (ρ.draft d) := by simp [draft, Function.comp_def]

theorem body_trans (b : Body) : (ρ.trans τ).body b = τ.body (ρ.body b) := by simp [body, Function.comp_def]

@[simp] theorem routine_trans (x : Routine) : (ρ.trans τ).routine x = τ.routine (ρ.routine x) := by
  simp [routine, draft_trans, funext (body_trans ρ τ), Function.comp_def]

theorem typeDef_trans (d : TypeDef) : (ρ.trans τ).typeDef d = τ.typeDef (ρ.typeDef d) := by
  simp [typeDef, Function.comp_def]

@[simp] theorem member_trans (x : Member) : (ρ.trans τ).member x = τ.member (ρ.member x) := by simp [member]

theorem declaredType_trans (d : DeclaredType) : (ρ.trans τ).declaredType d = τ.declaredType (ρ.declaredType d) := by
  simp [declaredType, funext (delegate_trans ρ τ), Function.comp_def]

/-! ### Nothing renamed -/

theorem body_refl (b : Body) : refl.body b = b := by simp [body, funext instr_refl, funext ty_refl]

@[simp] theorem routine_refl (x : Routine) : refl.routine x = x := by simp [routine, funext body_refl]

@[simp] theorem typeDef_refl (d : TypeDef) : refl.typeDef d = d := by
  simp [typeDef, funext field_refl, funext routine_refl]

@[simp] theorem member_refl (x : Member) : refl.member x = x := by simp [member, funext ty_refl]

@[simp] theorem declaredType_refl (d : DeclaredType) : refl.declaredType d = d := by
  simp [declaredType, funext member_refl, funext delegate_refl]

end Renaming

end CilCompiler
