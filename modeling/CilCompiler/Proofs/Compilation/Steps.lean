import Mathlib.Logic.Relation
import CilCompiler.Proofs.Compilation.Outcomes

/-! What declaring the members of a type does to a compilation. `Step t` is one change: a name is looked up, or a
    member of `t` is defined, named, marked or entered. A type is declared by a sequence of steps
    (`declareType_steps`), so what every step keeps is kept when a type is declared. -/

namespace CilCompiler
namespace Compilation

/-- One change that declaring the members of the type `t` makes. -/
inductive Step (t : Ty) (c : Compilation) : Compilation → Prop
  | lookup {n u c'} : c.lookup n = .ok (u, c') → Step t c c'
  | defineField {name type attrs f m} : c.module.defineField t name type attrs = .ok (f, m) →
      Step t c { c with module := m }
  | defineMethod {name attrs ret params r m} : c.module.defineMethod t name attrs ret params = .ok (r, m) →
      Step t c { c with module := m }
  | defineConstructor {attrs params r m} : c.module.defineConstructor t attrs params = .ok (r, m) →
      Step t c { c with module := m }
  | defineParameter {r position name m} : r.owner = t → c.module.defineParameter r position name = .ok m →
      Step t c { c with module := m }
  | setImplementation {r impl m} : r.owner = t → c.module.setImplementation r impl = .ok m → Step t c { c with module := m }
  | registerField {f s} : f.owner = t → c.symbols.registerField f = .ok s → Step t c { c with symbols := s }
  | registerMethod {r s} : r.owner = t → (∀ p ∈ r.params, ∃ u, p = some u) → c.symbols.registerMethod r = .ok s →
      Step t c { c with symbols := s }
  | registerConstructor {r s} : r.owner = t → c.symbols.registerConstructor r = .ok s → Step t c { c with symbols := s }

/-- Any number of changes. -/
def Steps (t : Ty) : Compilation → Compilation → Prop := Relation.ReflTransGen (Step t)

variable {t : Ty} {c c₁ c' : Compilation}

namespace Steps

theorem refl (c : Compilation) : Steps t c c := Relation.ReflTransGen.refl

theorem single (h : Step t c c') : Steps t c c' := Relation.ReflTransGen.single h

theorem trans (h : Steps t c c₁) (h' : Steps t c₁ c') : Steps t c c' := Relation.ReflTransGen.trans h h'

theorem tail (h : Steps t c c₁) (h' : Step t c₁ c') : Steps t c c' := Relation.ReflTransGen.tail h h'

/-- What each step keeps is kept by all of them. -/
theorem keeps {P : Compilation → Prop} (h : Steps t c c')
    (hP : ∀ {c c' : Compilation}, Step t c c' → P c → P c') (hc : P c) :
    P c' := by
  induction h with
  | refl => exact hc
  | tail _ hstep ih => exact hP hstep ih

end Steps

theorem lookup_module {n : Text} {u : Ty} (h : c.lookup n = .ok (u, c')) : c'.module = c.module := by
  obtain ⟨⟨u', s⟩, -, h⟩ := bind_eq_ok.mp h
  cases h
  rfl

theorem owner_of_defineField {m m' : Module} {name : Text} {type : Option Ty} {attrs : FieldAttributes} {f : Field}
    (h : m.defineField t name type attrs = .ok (f, m')) : f.owner = t := by
  obtain ⟨_, -, h⟩ := bind_eq_ok.mp h
  cases h
  rfl

theorem of_defineMethod {m m' : Module} {name : Text} {attrs : MethodAttributes} {ret : Option Ty}
    {params : List (Option Ty)} {r : Method} (h : m.defineMethod t name attrs ret params = .ok (r, m')) :
    r.owner = t ∧ r.params = params := by
  obtain ⟨_, -, h⟩ := bind_eq_ok.mp h
  cases h
  exact ⟨rfl, rfl⟩

theorem exists_of_mem_map_some {ts : List Ty} {ps : List (Option Ty)} (h : ps = ts.map some) :
    ∀ p ∈ ps, ∃ u, p = some u := by
  intro p hp
  rw [h] at hp
  obtain ⟨u, -, rfl⟩ := List.mem_map.mp hp
  exact ⟨u, rfl⟩

theorem owner_of_defineConstructor {m m' : Module} {attrs : MethodAttributes} {params : List (Option Ty)} {r : Method}
    (h : m.defineConstructor t attrs params = .ok (r, m')) : r.owner = t := by
  obtain ⟨_, -, h⟩ := bind_eq_ok.mp h
  cases h
  rfl

theorem lookupReturn_steps {n : Text} {u : Ty} (h : c.lookupReturn n = .ok (u, c')) : Steps t c c' := by
  unfold lookupReturn at h
  split at h
  · cases h
    exact .refl _
  · exact .single (.lookup h)

theorem lookupParams_steps {ps : List Param} {seen : List Text} {ts : List Ty} (h : c.lookupParams seen ps = .ok (ts, c')) :
    Steps t c c' := by
  induction ps generalizing c seen ts with
  | nil =>
    cases h
    exact .refl _
  | cons p ps ih =>
    unfold lookupParams at h
    split at h
    · cases h
    · obtain ⟨⟨u, c₁⟩, h1, h⟩ := bind_eq_ok.mp h
      dsimp only at h
      split at h
      · cases h
      · obtain ⟨⟨us, c₂⟩, h2, h⟩ := bind_eq_ok.mp h
        cases h
        exact (Steps.single (.lookup h1)).trans (ih h2)

theorem nameParams_steps {m : Module} {r : Method} (hr : r.owner = t) {position : Nat} {ns : List Text}
    (h : nameParams c.module r position ns = .ok m) : Steps t c { c with module := m } := by
  induction ns generalizing c position with
  | nil =>
    cases h
    exact .refl _
  | cons n ns ih =>
    obtain ⟨m₁, h1, h2⟩ := bind_eq_ok.mp h
    exact (Steps.single (.defineParameter hr h1)).trans (ih h2)

theorem declareField_steps {fd : FieldDecl} {f : Field} (h : c.declareField t fd = .ok (f, c')) : Steps t c c' := by
  obtain ⟨⟨type, c₁⟩, h1, h⟩ := bind_eq_ok.mp h
  dsimp only at h
  split at h
  · cases h
  · split at h
    · cases h
    · obtain ⟨⟨g, m⟩, h2, h⟩ := bind_eq_ok.mp h
      obtain ⟨s, h3, h⟩ := bind_eq_ok.mp h
      cases h
      exact ((Steps.single (.lookup h1)).tail (.defineField h2)).tail (.registerField (owner_of_defineField h2) h3)

theorem declareFields_steps {fds : List FieldDecl} {inits : List (Field × Expr)}
    (h : c.declareFields t fds = .ok (inits, c')) :
    Steps t c c' := by
  induction fds generalizing c inits with
  | nil =>
    cases h
    exact .refl _
  | cons fd fds ih =>
    obtain ⟨⟨f, c₁⟩, h1, h⟩ := bind_eq_ok.mp h
    obtain ⟨⟨rest, c₂⟩, h2, h⟩ := bind_eq_ok.mp h
    cases h
    exact (declareField_steps h1).trans (ih h2)

theorem declareCtor_steps {cd : CtorDecl} {x : Member} (h : c.declareCtor t cd = .ok (x, c')) : Steps t c c' := by
  obtain ⟨⟨types, c₁⟩, h1, h⟩ := bind_eq_ok.mp h
  obtain ⟨⟨r, m₁⟩, h2, h⟩ := bind_eq_ok.mp h
  obtain ⟨m₂, h3, h⟩ := bind_eq_ok.mp h
  obtain ⟨s, h4, h⟩ := bind_eq_ok.mp h
  cases h
  have hr := owner_of_defineConstructor h2
  exact (((lookupParams_steps h1).tail (.defineConstructor h2)).trans (nameParams_steps hr h3)).tail
      (.registerConstructor hr h4)

theorem declareMethod_steps {md : MethodDecl} {x : Member} (h : c.declareMethod t md = .ok (x, c')) : Steps t c c' := by
  obtain ⟨⟨ret, c₁⟩, h1, h⟩ := bind_eq_ok.mp h
  obtain ⟨⟨types, c₂⟩, h2, h⟩ := bind_eq_ok.mp h
  obtain ⟨⟨r, m₁⟩, h3, h⟩ := bind_eq_ok.mp h
  obtain ⟨m₂, h4, h⟩ := bind_eq_ok.mp h
  obtain ⟨s, h5, h⟩ := bind_eq_ok.mp h
  cases h
  obtain ⟨hr, hp⟩ := of_defineMethod h3
  have types : Steps t c c₂ := (lookupReturn_steps h1).trans (lookupParams_steps h2)
  exact ((types.tail (.defineMethod h3)).trans (nameParams_steps hr h4)).tail
      (.registerMethod hr (exists_of_mem_map_some hp) h5)

theorem declareEach_steps {α : Type} {declare : Compilation → α → Except Fault (Member × Compilation)} {l : List α}
    {xs : List Member}
    (step : ∀ {c c' : Compilation} {a : α} {x : Member}, declare c a = .ok (x, c') → Steps t c c')
    (h : declareEach declare c l = .ok (xs, c')) : Steps t c c' := by
  induction l generalizing c xs with
  | nil =>
    cases h
    exact .refl _
  | cons a l ih =>
    obtain ⟨⟨x, c₁⟩, h1, h⟩ := bind_eq_ok.mp h
    obtain ⟨⟨rest, c₂⟩, h2, h⟩ := bind_eq_ok.mp h
    cases h
    exact (step h1).trans (ih h2)

theorem declareClass_steps {d d' : DeclaredType} {cd : ClassDecl} (h : c.declareClass d cd = .ok (d', c')) :
    Steps d.type c c' := by
  obtain ⟨⟨inits, c₁⟩, h1, h⟩ := bind_eq_ok.mp h
  obtain ⟨⟨ctors, c₂⟩, h2, h⟩ := bind_eq_ok.mp h
  obtain ⟨⟨methods, c₃⟩, h3, h⟩ := bind_eq_ok.mp h
  cases h
  exact (declareFields_steps h1).trans
      ((declareEach_steps declareCtor_steps h2).trans (declareEach_steps declareMethod_steps h3))

theorem declareDelegate_steps {dd : DelegateDecl} {D : Delegate} (h : c.declareDelegate t dd = .ok (D, c')) :
    Steps t c c' := by
  obtain ⟨⟨ret, c₁⟩, h1, h⟩ := bind_eq_ok.mp h
  obtain ⟨⟨params, c₂⟩, h2, h⟩ := bind_eq_ok.mp h
  obtain ⟨⟨ctor, m₁⟩, h3, h⟩ := bind_eq_ok.mp h
  obtain ⟨m₂, h4, h⟩ := bind_eq_ok.mp h
  obtain ⟨m₃, h5, h⟩ := bind_eq_ok.mp h
  obtain ⟨⟨invoke, m₄⟩, h6, h⟩ := bind_eq_ok.mp h
  obtain ⟨m₅, h7, h⟩ := bind_eq_ok.mp h
  obtain ⟨m₆, h8, h⟩ := bind_eq_ok.mp h
  obtain ⟨s₁, h9, h⟩ := bind_eq_ok.mp h
  obtain ⟨s₂, h10, h⟩ := bind_eq_ok.mp h
  cases h
  have hc := owner_of_defineConstructor h3
  obtain ⟨hi, hp⟩ := of_defineMethod h6
  have ctorSteps : Steps t c { c₂ with module := m₃ } :=
    (((lookupReturn_steps h1).trans (lookupParams_steps h2)).tail (.defineConstructor h3)).trans
      ((nameParams_steps (c := { c₂ with module := m₁ }) hc h4).tail (.setImplementation hc h5))
  have invokeSteps : Steps t { c₂ with module := m₃ } { c₂ with module := m₆ } :=
    (Steps.single (.defineMethod h6)).trans
      ((nameParams_steps (c := { c₂ with module := m₄ }) hi h7).tail (.setImplementation hi h8))
  exact ((ctorSteps.trans invokeSteps).tail (.registerConstructor hc h9)).tail
      (.registerMethod hi (exists_of_mem_map_some hp) h10)

theorem declareType_steps {d d' : DeclaredType} (h : c.declareType d = .ok (d', c')) : Steps d.type c c' := by
  unfold declareType at h
  split at h
  · obtain ⟨⟨D, c₁⟩, h1, h⟩ := bind_eq_ok.mp h
    cases h
    exact declareDelegate_steps h1
  · exact declareClass_steps h

end Compilation
end CilCompiler
