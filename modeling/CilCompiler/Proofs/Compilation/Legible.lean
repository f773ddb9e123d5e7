import Mathlib.Data.List.Pairwise
import CilCompiler.Proofs.Compilation.Listed
import CilCompiler.Proofs.Compilation.Storage
import CilCompiler.Proofs.Compilation.Passes
import CilCompiler.Proofs.Compilation.ArrayNames
import CilCompiler.Proofs.Listing.References
import CilCompiler.Proofs.Symbols.Unambiguous

/-! Types and members of compiled modules, as references in a listing rely on them. No edit of a module makes a second
    type of a name (`Edit.founded`), and whatever is entered, the symbols know no two members of one signature for a
    type (`distinct_invariant`). Before bodies are generated the members of a definition are those that the symbols
    know for its type (`Coherent.members`), so they can be told apart as well (`prepared_referable`); a listing has
    the renamed definitions, and bodies and finishing leave them as they are (`compile_legible`). Bodies mention no
    types but those of the module: an instruction that has types has an operand that values can have
    (`Types.typeOperand`). -/

namespace CilCompiler

/-! ### Types of a module -/

namespace Module
variable {m m' : Module} {host : Text} {t : Ty}

/-- The types that a module declares. -/
def declaredTypes (m : Module) : List Ty := m.types.toList.map TypeDef.type

/-- A declared type, or an array of one. -/
def HasType (m : Module) (t : Ty) : Prop := t.core ∈ m.declaredTypes

/-- A type is of the catalog, which lives in the assembly `host`, or it is defined in the module and is no value. -/
def Places (m : Module) (host : Text) (t : Ty) : Prop :=
  t.assembly = host ∧ (∃ e ∈ Host.catalog, t.name = e.name ∧ t.isValue = e.isValue) ∨
    t.assembly = m.name ∧ t.isValue = false

/-- Declared types have different names, and each has its place. -/
structure Founded (m : Module) (host : Text) : Prop where
  names : (m.declaredTypes.map Ty.name).Nodup
  places : ∀ t ∈ m.declaredTypes, m.Places host t

theorem declaredTypes_modifyDef (t : Ty) {f : TypeDef → TypeDef} (hf : ∀ d, (f d).type = d.type) :
    (m.modifyDef t f).declaredTypes = m.declaredTypes := by
  refine List.ext_getElem? fun i => ?_
  simp only [declaredTypes, modifyDef, List.getElem?_map, Array.getElem?_toList, Array.getElem?_modify]
  split <;> cases m.types[i]? <;> simp [hf]

theorem declaredTypes_modifyRoutine (r : Method) (f : Routine → Routine) :
    (m.modifyRoutine r f).declaredTypes = m.declaredTypes :=
  declaredTypes_modifyDef _ fun d => d.type_modifyRoutine r f

theorem createType_declaredTypes (h : m.createType t = (.ok (), m')) :
    m'.declaredTypes = m.declaredTypes ∧ m'.name = m.name := by
  unfold createType at h
  split at h
  · cases h
  rename_i d hopen
  split at h
  · split at h
    · rename_i m₁ hwrite
      cases h
      unfold writeType at hwrite
      split at hwrite
      · cases hwrite
      · obtain ⟨block, -, hwrite⟩ := bind_eq_ok.mp hwrite
        cases hwrite
        exact ⟨declaredTypes_modifyDef _ fun _ => rfl, rfl⟩
    · cases h
  · cases hf : finishDef d with
    | mk result d' =>
      rw [hf] at h
      cases h
      obtain ⟨-, rfl⟩ := finishDef_ok hf
      refine ⟨?_, rfl⟩
      have hdef := (def?_some (open?_ok hopen).1).1
      refine List.ext_getElem? fun i => ?_
      simp only [declaredTypes, modifyDef, List.getElem?_map, Array.getElem?_toList, Array.getElem?_modify]
      split
      · rename_i hi
        rw [← hi, hdef]
        rfl
      · rfl

/-- One edit leaves the declared types as they are, or adds one of a new name. -/
theorem Edit.declaredTypes (he : m.Edit m') : m'.name = m.name ∧ (m'.declaredTypes = m.declaredTypes ∨
    ∃ t, m'.declaredTypes = m.declaredTypes ++ [t] ∧ t.name ∉ m.declaredTypes.map Ty.name ∧ t.assembly = m.name ∧
      t.isValue = false) := by
  cases he with
  | @defineType name attrs base t _ hd =>
    obtain ⟨htname, hvalue, -⟩ := defineType_ok hd
    unfold Module.defineType at hd
    split at hd
    · cases hd
    · rename_i hnew
      cases hd
      refine ⟨rfl, .inr ⟨_, ?_, ?_, ?_, hvalue⟩⟩
      · simp only [Module.declaredTypes, Array.toList_push, List.map_append, List.map_cons, List.map_nil]
      · intro hmem
        obtain ⟨u, hu, hname⟩ := List.mem_map.mp hmem
        obtain ⟨d, hd, rfl⟩ := List.mem_map.mp hu
        obtain ⟨i, hi, rfl⟩ := Array.mem_iff_getElem.mp (Array.mem_toList_iff.mp hd)
        exact hnew (Array.any_eq_true.mpr ⟨i, hi, decide_eq_true (hname.trans htname)⟩)
      · split <;> rfl
  | defineField hf =>
    obtain ⟨d, -, hf⟩ := bind_eq_ok.mp hf
    cases hf
    exact ⟨rfl, .inl (declaredTypes_modifyDef _ fun _ => rfl)⟩
  | defineMethod hr =>
    obtain ⟨d, -, hr⟩ := bind_eq_ok.mp hr
    cases hr
    exact ⟨rfl, .inl (declaredTypes_modifyDef _ fun _ => rfl)⟩
  | defineConstructor hr =>
    obtain ⟨d, -, hr⟩ := bind_eq_ok.mp hr
    cases hr
    exact ⟨rfl, .inl (declaredTypes_modifyDef _ fun _ => rfl)⟩
  | defineParameter hp =>
    unfold Module.defineParameter at hp
    split at hp
    · cases hp
    · cases hp
      exact ⟨rfl, .inl (declaredTypes_modifyRoutine _ _)⟩
  | setImplementation hi =>
    obtain ⟨d, -, hi⟩ := bind_eq_ok.mp hi
    cases hi
    exact ⟨rfl, .inl (declaredTypes_modifyRoutine _ _)⟩
  | setEntryPoint hr =>
    unfold Module.setEntryPoint at hr
    repeat' split at hr
    all_goals cases hr
    · exact ⟨rfl, .inl rfl⟩
    · exact ⟨rfl, .inl rfl⟩
  | setDraft r hD => exact ⟨rfl, .inl (declaredTypes_modifyRoutine _ _)⟩
  | createType ht =>
    obtain ⟨htypes, hname⟩ := createType_declaredTypes ht
    exact ⟨hname, .inl htypes⟩

theorem Edit.founded (h : m.Founded host) (he : m.Edit m') : m'.Founded host := by
  obtain ⟨hname, htypes | ⟨t, htypes, hnew, hassembly, hvalue⟩⟩ := he.declaredTypes
  · refine ⟨by rw [htypes]; exact h.names, fun t ht => ?_⟩
    rw [Places, hname]
    exact h.places t (htypes ▸ ht)
  · refine ⟨?_, fun u hu => ?_⟩
    · rw [htypes, List.map_append]
      exact List.nodup_append.mpr ⟨h.names, List.nodup_singleton _,
          fun a ha b hb hab => hnew (List.mem_singleton.mp hb ▸ hab ▸ ha)⟩
    · rw [Places, hname]
      rw [htypes] at hu
      rcases List.mem_append.mp hu with hu | hu
      · exact h.places u hu
      · rw [List.mem_singleton.mp hu]
        exact .inr ⟨hassembly, hvalue⟩

theorem Edits.founded (h : m.Founded host) (he : m.Edits m') : m'.Founded host := by
  induction he with
  | refl => exact h
  | tail _ hedit ih => exact hedit.founded ih

/-- Types are made for the entries of the catalog in one assembly. -/
theorem typesFrom_places (id : Nat) (assembly : Text) (es : List Host.TypeEntry) {done : List Ty}
    (hdone : ∀ t ∈ done, t.assembly = assembly ∧ ∃ e ∈ Host.catalog, t.name = e.name ∧ t.isValue = e.isValue)
    (hes : ∀ e ∈ es, e ∈ Host.catalog) :
    ∀ t ∈ Host.typesFrom id assembly done es, t.assembly = assembly ∧ ∃ e ∈ Host.catalog, t.name = e.name ∧
      t.isValue = e.isValue := by
  induction es generalizing done with
  | nil => exact hdone
  | cons e es ih =>
    rw [Host.typesFrom]
    refine ih (fun t ht => ?_) fun x hx => hes x (List.mem_cons_of_mem _ hx)
    rcases List.mem_append.mp ht with ht | ht
    · exact hdone t ht
    · rw [List.mem_singleton.mp ht]
      have hmem := hes e List.mem_cons_self
      split
      · exact ⟨rfl, e, hmem, rfl, rfl⟩
      · exact ⟨rfl, e, hmem, rfl, rfl⟩

theorem founded_new (id : Nat) (backend : Backend) (name runtime : Text) :
    (Module.new id backend name runtime).Founded (Module.new id backend name runtime).runtime := by
  have htypes : (Module.new id backend name runtime).declaredTypes =
      Host.types id (Module.new id backend name runtime).runtime := by
    have hlength : (Host.types id (Module.new id backend name runtime).runtime).length = Host.catalog.length := by
      have hnames :=
        congrArg List.length (Symbols.typesFrom_names id (Module.new id backend name runtime).runtime Host.catalog [])
      simpa [Host.types] using hnames
    simp only [declaredTypes, Module.new, List.map_map, Function.comp_def, TypeDef.ofEntry]
    exact List.map_fst_zip (Nat.le_of_eq hlength)
  have distinct : (Host.catalog.map Host.TypeEntry.name).Nodup := by decide
  refine ⟨?_, fun t ht => .inl ?_⟩
  · rw [htypes, Host.types, Symbols.typesFrom_names]
    exact distinct
  · rw [htypes] at ht
    exact typesFrom_places id _ Host.catalog (fun t ht => by cases ht) (fun e he => he) t ht

end Module

/-! ### Members -/

/-- The names that types have been given, by the catalog or by a program. -/
def Program.typeDeclNames (p : Program) : List Text :=
  Host.catalog.map Host.TypeEntry.name ++ p.sources.map Declaration.name

/-- The names that methods have been given, by the catalog or by a program. -/
def Program.methodDeclNames (p : Program) : List Text :=
  Method.invokeName :: (Host.catalog.flatMap fun e => e.methods.map Host.MethodEntry.name) ++
    p.classes.flatMap fun d => d.methods.map MethodDecl.name

namespace TypeDef

def fieldRefs (d : TypeDef) : List Field := d.fields.toList

def methodRefs (d : TypeDef) : List Method := d.methods.toList.map Routine.method

def ctorRefs (d : TypeDef) : List Method := d.ctors.toList.map Routine.method

/-- The members of a definition. -/
def entries (d : TypeDef) : List Symbols.Entry := Symbols.entries d.fieldRefs d.methodRefs d.ctorRefs

/-- A definition as references to it and its members rely on it: their types are of a kind, its name and those of its
    methods are given by the catalog or the program, and no two members have one signature. -/
structure Referable (p : Program) (S : Ty → Prop) (d : TypeDef) : Prop where
  admitted : d.Admitted S
  plain : d.type.isArray = false
  name : d.type.name ∈ p.typeDeclNames
  unaliased : ∀ a ∈ Host.aliases, d.type.name ≠ a.1
  fields : ∀ f ∈ d.fieldRefs, f.owner = d.type
  ctors : ∀ r ∈ d.ctorRefs, r.owner = d.type ∧ r.isCtor = true
  methods : ∀ r ∈ d.methodRefs, r.owner = d.type ∧ r.isCtor = false ∧ r.name ∈ p.methodDeclNames
  distinct : Symbols.Distinct d.entries

end TypeDef

/-! ### Members of different signatures -/

namespace Symbols

/-- Whatever is entered, no type ever has two members of one signature. -/
theorem distinct_invariant : Invariant fun s => ∀ t, Distinct (s.members t) where
  beginDeclarations hs h := by
    obtain ⟨_, -, h⟩ := bind_eq_ok.mp h
    cases h
    exact hs
  registerType hs _ _ h := by
    obtain ⟨-, -, rfl⟩ := registerType_ok_iff.mp h
    exact hs
  registerField {s s' f} hs h := by
    obtain ⟨-, hx, rfl⟩ := (register_ok_iff (x := .field f)).mp h
    exact distinct_withEntry hx hs
  registerMethod {s s' m} hs _ h := by
    obtain ⟨-, hx, rfl⟩ := (register_ok_iff (x := .method m)).mp h
    exact distinct_withEntry hx hs
  registerConstructor {s s' m} hs h := by
    obtain ⟨-, hx, rfl⟩ := (register_ok_iff (x := .ctor m)).mp h
    exact distinct_withEntry hx hs
  registerDelegate hs h := by
    obtain ⟨-, -, rfl⟩ := registerDelegate_ok_iff.mp h
    exact hs
  freeze hs h := by
    obtain ⟨_, -, h⟩ := bind_eq_ok.mp h
    cases h
    exact hs
  lookup hs h t := by
    have hx := lookup_extends h
    rw [members, hx.fieldsOf, hx.allMethods, hx.ctorsOf]
    exact hs t

/-- Members of one signature are the same. -/
theorem Distinct.eq_of_clashes {l : List Entry} (h : Distinct l) {x y : Entry} (hx : x ∈ l) (hy : y ∈ l)
    (hxy : x.clashes y = true) : x = y := by
  by_contra hne
  have symm : Std.Symm fun a b : Entry => a.clashes b = false := ⟨fun a b h => by rwa [clashes_comm]⟩
  have hfree := List.Pairwise.forall h hx hy hne
  rw [hxy] at hfree
  cases hfree

end Symbols

namespace Compilation

/-- What the symbols know of a type are the members of its definition. -/
theorem Coherent.members {c : Compilation} (h : c.Coherent) {i : Nat} {d : TypeDef} (hd : c.module.types[i]? = some d) :
    c.symbols.members d.type = d.entries := by
  rw [Symbols.members, (h.lists hd).fields, (h.lists hd).methods, (h.lists hd).ctors]
  rfl

theorem host_distinct {name runtime : Text} {c : Compilation}
    (h : enterCatalog (start (Module.new 0 .dynamic name runtime)) = .ok c) (t : Ty) :
    Symbols.Distinct (c.symbols.members t) := by
  have evaluated : ∀ d ∈ hostModule.types.toList, Symbols.Distinct d.entries := by
    unfold Symbols.Distinct
    decide +kernel
  obtain ⟨n, rfl⟩ := enterCatalog_new h
  have hcoherent := hostCompilation_coherent n
  show Symbols.Distinct ((hostCompilation n).symbols.members t)
  by_cases ht : (hostCompilation n).symbols.fieldsOf t ≠ [] ∨ (hostCompilation n).symbols.allMethods t ≠ [] ∨
      (hostCompilation n).symbols.ctorsOf t ≠ []
  · obtain ⟨i, d, hd, hk⟩ := hcoherent.owned ht
    rw [Symbols.members, ← Symbols.fieldsOf_congr hk, ← Symbols.allMethods_congr hk, ← Symbols.ctorsOf_congr hk,
        ← Symbols.members,
      hcoherent.members hd]
    exact evaluated d (Array.mem_toList_iff.mpr (Array.mem_of_getElem? hd))
  · simp only [not_or, not_not] at ht
    rw [Symbols.members, ht.1, ht.2.1, ht.2.2]
    exact .nil


variable {P Q : Ty → Prop} {p : Program} {c₀ c c' : Compilation} {i : Nat} {e : TypeDef}

/-- A method of a class is one that the class declares. -/
theorem method_declared {s : Symbols} {roles : Roles} {cd : ClassDecl} {d : DeclaredType}
    (h : ClassMade P s roles cd d e) {r : Method}
    (hr : r ∈ e.methodRefs) (hc : r.isCtor = false) : ∃ decl ∈ cd.methods, r.name = decl.name := by
  obtain ⟨y, hy, rfl⟩ := List.mem_map.mp hr
  have hmem : y.method ∈ e.routines.map Routine.method := List.mem_map_of_mem (List.mem_append_right _ hy)
  rw [← h.members] at hmem
  obtain ⟨x, hx, hxy⟩ := List.mem_map.mp hmem
  obtain ⟨k, hk⟩ := List.mem_iff_getElem?.mp hx
  obtain ⟨⟨b, decl⟩, hdecl, hdeclares⟩ := forall₂_getElem? h.declares hk
  obtain rfl : b = false := hdeclares.isCtor.symm.trans (hxy ▸ hc)
  have hsource := List.mem_of_getElem? hdecl
  simp only [ClassDecl.routines, List.mem_append, List.mem_map, Prod.mk.injEq, Bool.true_eq_false, false_and, and_false,
      exists_false, true_and,
    exists_eq_right, false_or] at hsource
  exact ⟨decl, hsource, by rw [← hxy]; exact hdeclares.name⟩

/-- Declared members can be referred to. -/
theorem Described.referable (h : Described P p c₀ c) (hd : ∀ t, Symbols.Distinct (c.symbols.members t))
    (he : c.module.types[i]? = some e) : e.Referable p P := by
  have catalog : ∀ e ∈ hostModule.types.toList, e.type.name ∈ Host.catalog.map Host.TypeEntry.name ∧
      ∀ r ∈ e.methodRefs, r.name ∈ Host.catalog.flatMap fun e => e.methods.map Host.MethodEntry.name := by decide +kernel
  have spelled : ∀ a ∈ Host.aliases, (hostSymbols.aliases.get? (Symbols.key a.1)).isSome = true := by decide +kernel
  have shaped := h.coherent.shaped he
  have methods : ∀ r ∈ e.methodRefs, r.owner = e.type ∧ r.isCtor = false := by
    intro r hr
    obtain ⟨y, hy, rfl⟩ := List.mem_map.mp hr
    exact shaped.method hy
  refine ⟨h.admitted he, shaped.notArray, ?_, fun a ha hname => ?_, fun f hf => ?_, fun r hr => ?_, fun r hr => ?_, ?_⟩
  · rcases h.definition he with ⟨-, hhost⟩ | ⟨-, d, -, -, hs, htyped, hm⟩
    · exact List.mem_append_left _ (catalog e hhost).1
    · rw [Made.type hm, htyped.name]
      exact List.mem_append_right _ (List.mem_map_of_mem hs)
  · have hnone := h.coherent.unaliased he
    rw [h.grown.aliases, h.laid.aliases, hname] at hnone
    have hsome := spelled a ha
    rw [hnone] at hsome
    cases hsome
  · exact shaped.field hf
  · obtain ⟨y, hy, rfl⟩ := List.mem_map.mp hr
    obtain ⟨ho, hc, -⟩ := shaped.ctor hy
    exact ⟨ho, hc⟩
  · obtain ⟨ho, hc⟩ := methods r hr
    refine ⟨ho, hc, ?_⟩
    rcases h.definition he with ⟨-, hhost⟩ | ⟨-, d, -, -, hs, -, hm⟩
    · exact List.mem_append_left _ (List.mem_cons_of_mem _ ((catalog e hhost).2 r hr))
    · unfold Made at hm
      split at hm
      · rename_i cd hcd
        obtain ⟨decl, hdecl, hname⟩ := method_declared hm hr hc
        have hclass : cd ∈ p.classes := by
          rw [hcd] at hs
          simpa [Program.sources] using hs
        exact List.mem_append_right _ (List.mem_flatMap.mpr ⟨cd, hclass, hname ▸ List.mem_map_of_mem hdecl⟩)
      · obtain ⟨ctor, invoke, -, hi, -, -, -, -, hname, -⟩ := hm.routines
        rw [TypeDef.methodRefs, hi] at hr
        rw [List.mem_singleton.mp hr, hname]
        exact List.mem_append_left _ List.mem_cons_self
  · rw [← h.coherent.members he]
    exact hd _

end Compilation

/-! ### Renaming -/

namespace Renaming
variable (ρ : Renaming)

def entry : Symbols.Entry → Symbols.Entry
  | .field f => .field (ρ.field f)
  | .method m => .method (ρ.method m)
  | .ctor m => .ctor (ρ.method m)

theorem clashes_entry (x y : Symbols.Entry) : (ρ.entry x).clashes (ρ.entry y) = x.clashes y := by
  have same : ∀ m n : Method, Ty.sameList (ρ.method m).params (ρ.method n).params = Ty.sameList m.params n.params :=
    fun m n =>
    ρ.sameList_map m.params n.params
  cases x <;> cases y <;> simp only [entry, Symbols.Entry.clashes, same] <;> rfl

theorem fieldRefs_typeDef (d : TypeDef) : (ρ.typeDef d).fieldRefs = d.fieldRefs.map ρ.field := by simp [TypeDef.fieldRefs]

theorem methodRefs_typeDef (d : TypeDef) : (ρ.typeDef d).methodRefs = d.methodRefs.map ρ.method := by
  simp [TypeDef.methodRefs, Function.comp_def, routine]

theorem ctorRefs_typeDef (d : TypeDef) : (ρ.typeDef d).ctorRefs = d.ctorRefs.map ρ.method := by
  simp [TypeDef.ctorRefs, Function.comp_def, routine]

theorem entries_typeDef (d : TypeDef) : (ρ.typeDef d).entries = d.entries.map ρ.entry := by
  simp [TypeDef.entries, Symbols.entries, fieldRefs_typeDef, methodRefs_typeDef, ctorRefs_typeDef, Function.comp_def, entry]

theorem core_ty (t : Ty) : (ρ.ty t).core = ρ.ty t.core := by
  induction t with
  | array e ih => exact ih
  | root d | derived d b => rfl

end Renaming

namespace TypeDef.Referable
variable {ρ : Renaming} {p : Program} {S T : Ty → Prop} {d e : TypeDef}

theorem renamed (h : d.Referable p S) (hS : ρ.Carries S T) : (ρ.typeDef d).Referable p T := by
  refine ⟨h.admitted.renamed hS, (ρ.isArray_ty d.type).trans h.plain, ?_, fun a ha => ?_, fun f hf => ?_,
      fun r hr => ?_, fun r hr => ?_, ?_⟩
  · rw [Renaming.type_typeDef, Renaming.name_ty]
    exact h.name
  · rw [Renaming.type_typeDef, Renaming.name_ty]
    exact h.unaliased a ha
  · rw [Renaming.fieldRefs_typeDef] at hf
    obtain ⟨g, hg, rfl⟩ := List.mem_map.mp hf
    exact congrArg ρ.ty (h.fields g hg)
  · rw [Renaming.ctorRefs_typeDef] at hr
    obtain ⟨r', hr', rfl⟩ := List.mem_map.mp hr
    exact ⟨congrArg ρ.ty (h.ctors r' hr').1, (h.ctors r' hr').2⟩
  · rw [Renaming.methodRefs_typeDef] at hr
    obtain ⟨r', hr', rfl⟩ := List.mem_map.mp hr
    exact ⟨congrArg ρ.ty (h.methods r' hr').1, (h.methods r' hr').2⟩
  · rw [Renaming.entries_typeDef, Symbols.Distinct, List.pairwise_map]
    exact h.distinct.imp fun {x y} hxy => (ρ.clashes_entry x y).trans hxy

/-- Only the type and the references to members count. -/
theorem of_refs (h : d.Referable p S) (ht : e.type = d.type) (hf : e.fields = d.fields) (hc : e.ctorRefs = d.ctorRefs)
    (hm : e.methodRefs = d.methodRefs) : e.Referable p S := by
  have hfields : e.fieldRefs = d.fieldRefs := congrArg Array.toList hf
  have routine : ∀ x ∈ e.routines, ∃ y ∈ d.routines, y.method = x.method := by
    intro x hx
    have hmem : x.method ∈ d.ctorRefs ++ d.methodRefs := by
      rw [← hc, ← hm, ctorRefs, methodRefs, ← List.map_append]
      exact List.mem_map_of_mem hx
    rw [ctorRefs, methodRefs, ← List.map_append] at hmem
    exact List.mem_map.mp hmem
  refine ⟨⟨ht ▸ h.admitted.type, hf ▸ h.admitted.fields, fun x hx => ?_, fun x hx => ?_⟩, ht ▸ h.plain,
      ht ▸ h.name, ht ▸ h.unaliased,
    fun f hmem => ?_, fun r hr => ?_, fun r hr => ?_, ?_⟩
  · obtain ⟨y, hy, hxy⟩ := routine x hx
    exact hxy ▸ h.admitted.results y hy
  · obtain ⟨y, hy, hxy⟩ := routine x hx
    exact hxy ▸ h.admitted.params y hy
  · rw [ht]
    exact h.fields f (hfields ▸ hmem)
  · rw [ht]
    exact h.ctors r (hc ▸ hr)
  · rw [ht]
    exact h.methods r (hm ▸ hr)
  · rw [entries, hfields, hm, hc]
    exact h.distinct

theorem withDrafts (h : d.Referable p S) (f : Method → Draft) : (d.withDrafts f).Referable p S :=
  h.of_refs rfl rfl (by simp [ctorRefs, TypeDef.withDrafts, Function.comp_def, Routine.withDraft])
    (by simp [methodRefs, TypeDef.withDrafts, Function.comp_def, Routine.withDraft])

theorem finished (h : d.Referable p S) : d.finished.Referable p S :=
  h.of_refs rfl rfl (by simp [ctorRefs, TypeDef.finished, Function.comp_def, Routine.method_finished])
    (by simp [methodRefs, TypeDef.finished, Function.comp_def, Routine.method_finished])

end TypeDef.Referable

/-! ### Operands -/

namespace Setting
variable {Γ : Setting} {locals : Array Ty} {labels : Nat} {i : Instr} {S S' : List Slot} {d : Draft}

/-- An instruction that is written with a type has one that values have. -/
theorem Types.typeOperand (helem : ∀ {e : Ty}, Γ.Admits (.array e) → Γ.Admits e) (h : Γ.Types locals labels i.expanded S S')
    (ho : i.op.operand = .type) : ∃ t, i.operand = .type t ∧ Γ.Admits t := by
  have hlong : i.expanded = i := by
    obtain ⟨op, x⟩ := i
    cases op <;> first | rfl | cases ho
  rw [hlong] at h
  cases h with
  | array he _ => exact ⟨_, rfl, helem he⟩
  | element _ he _ => exact ⟨_, rfl, helem he⟩
  | voidElement _ he _ => exact ⟨_, rfl, helem he⟩
  | elementAddress _ he _ _ => exact ⟨_, rfl, helem he⟩
  | setElement he _ _ => exact ⟨_, rfl, helem he⟩
  | box ht _ => exact ⟨_, rfl, ht⟩
  | arithmetic hop _ _ | order hop _ _ | unary hop _ | test hop _ _ =>
    simp only [List.mem_cons, List.not_mem_nil, or_false] at hop
    rcases hop with rfl | rfl | rfl | rfl | rfl | rfl | rfl <;> cases ho
  | callInstance _ _ _ hr => cases hr <;> cases ho
  | _ => cases ho

end Setting

/-- The instructions of bodies that are written with a type have one of a kind. -/
def TypeDef.Mentions (S : Ty → Prop) (d : TypeDef) : Prop :=
  ∀ x ∈ d.routines, ∀ i ∈ x.draft.code.toList, i.op.operand = .type → ∃ t, i.operand = .type t ∧ S t

theorem TypeDef.Mentions.finished {S : Ty → Prop} {d : TypeDef} (h : d.Mentions S) : d.finished.Mentions S := by
  intro x hx
  rw [routines_finished] at hx
  obtain ⟨y, hy, rfl⟩ := List.mem_map.mp hx
  rw [y.draft_finished]
  exact h y hy

/-! ### Compiled modules -/

namespace Module

theorem hasType_congr {m m' : Module} (h : m'.declaredTypes = m.declaredTypes) : m'.HasType = m.HasType := by
  funext t
  rw [HasType, h, HasType]

theorem mem_declaredTypes {m : Module} {i : Nat} {d : TypeDef} (hd : m.types[i]? = some d) : d.type ∈ m.declaredTypes :=
  List.mem_map_of_mem (Array.mem_toList_iff.mpr (Array.mem_of_getElem? hd))

/-- A renamed module has the renamed types. -/
theorem Alike.carries {ρ : Renaming} {m m' : Module} (h : m.Alike ρ m') (hi : ρ.Involutive) :
    ρ.Carries m.HasType m'.HasType := by
  have htypes : m'.declaredTypes = m.declaredTypes.map ρ.ty := by
    simp [declaredTypes, h.types, Function.comp_def]
  intro t
  rw [HasType, HasType, htypes, Renaming.core_ty]
  refine ⟨fun hmem => ?_, fun hmem => List.mem_map_of_mem hmem⟩
  obtain ⟨u, hu, hut⟩ := List.mem_map.mp hmem
  rw [← hi t.core, ← hut, hi]
  exact hu

/-- Types and members can be referred to, and bodies refer to types that there are. -/
structure Legible (p : Program) (m : Module) (host : Text) : Prop where
  founded : m.Founded host
  defs : ∀ e ∈ m.types.toList, e.Referable p m.HasType
  operands : ∀ e ∈ m.types.toList, e.Mentions m.HasType

end Module

namespace Compilation
variable {P : Ty → Prop} {p : Program} {name runtime : Text} {c c₁ c' : Compilation} {f : Method → Draft}

/-- The types that members mention, and those that a program names, are types of the module. -/
theorem prepared_typed (h : (prepared p (start (Module.new 0 .dynamic name runtime))).Gives c) :
    ∃ c₀, Described c.module.HasType p c₀ c ∧ ∀ n, c₀.symbols.Names c.module.HasType n := by
  obtain ⟨c₀, -, laid, hdescribed⟩ := prepared_described h
  have any : Described (fun _ => True) p c₀ c :=
    hdescribed (fun _ => trivial) fun n _ => Symbols.names_of_array (fun _ => trivial) c₀.symbols n
  have names : ∀ n, c₀.symbols.Names c.module.HasType n := Symbols.names_of_array (fun he => he) c₀.symbols
  refine ⟨c₀, hdescribed (fun {i e} he => ?_) fun n _ => names n, names⟩
  -- A type that has been laid out is still entered, so its definition is still there.
  have harray := (laid.coherent.shaped he).notArray
  obtain ⟨-, j, d, hd, ht⟩ := any.coherent.known (any.grown.kept (laid.coherent.entered he)) harray
  rw [Module.HasType, (Ty.core_of_plain harray).1, ← ht]
  exact Module.mem_declaredTypes hd

/-- Whatever a program is compiled into, the types of its members are types of the module, and members can be told apart. -/
theorem prepared_referable {backend : Backend} (h : (prepared p (start (Module.new 0 backend name runtime))).Gives c) :
    Provided c.module.HasType c ∧ ∀ e ∈ c.module.types.toList, e.Referable p c.module.HasType := by
  have run : ∀ {c : Compilation}, (prepared p (start (Module.new 0 .dynamic name runtime))).Gives c →
      Provided c.module.HasType c ∧ ∀ e ∈ c.module.types.toList, e.Referable p c.module.HasType := by
    intro c h
    obtain ⟨c₀, hdescribed, hnames⟩ := prepared_typed h
    refine ⟨hdescribed.provided (prepared_ready h) (fun he => he) fun n _ => hnames n, fun e he => ?_⟩
    obtain ⟨i, hi⟩ := Array.mem_iff_getElem?.mp (Array.mem_toList_iff.mp he)
    exact hdescribed.referable (Symbols.distinct_invariant.prepared host_distinct h) hi
  cases backend with
  | dynamic => exact run h
  | textual =>
    obtain ⟨c₁, h₁, halike⟩ := (prepared_listed p name runtime).gives_right h
    obtain ⟨hprovided, hrefs⟩ := run h₁
    have hcarries := halike.module.carries (Renaming.listed_involutive runtime)
    refine ⟨hprovided.alike halike (prepared_ready h) hcarries (Renaming.listed_involutive runtime)
        Renaming.rehost_still, fun e he => ?_⟩
    rw [halike.module.types, Array.toList_map] at he
    obtain ⟨d, hd, rfl⟩ := List.mem_map.mp he
    exact (hrefs d hd).renamed hcarries

theorem Generated.mentions (hg : Generated P c (pairs c.types) f c₁) (h : Provided P c)
    (helem : ∀ {e : Ty}, P (.array e) → P e) :
    ∀ e ∈ c₁.module.types.toList, e.Mentions P := by
  intro e he x hx
  obtain ⟨e₀, he₀, rfl⟩ := hg.definition he
  rw [TypeDef.routines_withDrafts] at hx
  obtain ⟨y, hy, rfl⟩ := List.mem_map.mp hx
  exact hg.drafts (Q := fun D => ∀ i ∈ D.code.toList, i.op.operand = .type → ∃ t, i.operand = .type t ∧ P t) (by simp) h
    (fun z hz hcomplete i hi ho => by
      obtain ⟨T, T', hstep⟩ := hcomplete.typed.types hi
      exact hstep.typeOperand helem ho) y.method

theorem finish_declaredTypes (h : c.finish = .ok c') : c'.module.declaredTypes = c.module.declaredTypes := by
  unfold finish at h
  generalize c.types = ds at h
  induction ds generalizing c with
  | nil =>
    cases h
    rfl
  | cons d ds ih =>
    obtain ⟨c₁, h1, h2⟩ := foldlM_cons_ok h
    rw [ih h2]
    unfold finishType at h1
    split at h1
    · rename_i m hc
      cases h1
      exact (Module.createType_declaredTypes hc).1
    · cases h1

/-- References to the types and members of a compiled module can be told apart by the names that were given. -/
theorem compile_legible {backend : Backend} {isCanceled : Bool} (h : (compile p backend name runtime isCanceled).Gives c') :
    c'.module.Legible p (Module.new 0 backend name runtime).runtime := by
  have hfounded := (compile_edits h).founded (Module.founded_new 0 backend name runtime)
  obtain ⟨-, c₁, hgen, hfinish⟩ := compile_gives h
  rw [generated_eq] at hgen
  obtain ⟨c, hprepared, hgenerate⟩ := hgen.of_bind
  obtain ⟨hprovided, hrefs⟩ := prepared_referable hprepared
  obtain ⟨f, hg⟩ := hprovided.generate hgenerate.of_pass
  have hrecorded : c₁.module.declaredTypes = c.module.declaredTypes := by
    rw [hg.eq]
    simp [Module.declaredTypes, Module.withDrafts, Function.comp_def, TypeDef.withDrafts]
  have htypes : c'.module.HasType = c.module.HasType :=
    Module.hasType_congr ((finish_declaredTypes hfinish).trans hrecorded)
  refine ⟨hfounded, ?_, ?_⟩
  · rw [htypes]
    refine finish_all (fun e he => he.of_refs rfl rfl rfl rfl) (fun e he => he.finished) hfinish fun e he => ?_
    obtain ⟨e₀, he₀, rfl⟩ := hg.definition he
    exact (hrefs e₀ he₀).withDrafts f
  · rw [htypes]
    exact finish_all (fun e he => he) (fun e he => he.finished) hfinish (hg.mentions hprovided fun he => he)

end Compilation

end CilCompiler
