import CilCompiler.Compilation
import CilCompiler.Proofs.Compilation.Coherent
import CilCompiler.Proofs.Renaming.Module
import CilCompiler.Proofs.Renaming.Reference

/-! Declarations under a renaming. The members of a type are declared in the same way in a renamed compilation, as
    long as what the compilation knows of this type is renamed and names stand for renamed types
    (`Compilation.Local`). What is known of other types does not matter. -/

namespace CilCompiler

namespace Renaming

variable (ρ : Renaming)

def member (x : Member) : Member :=
  { x with method := ρ.method x.method, types := x.types.map ρ.ty, ret := ρ.ty x.ret }

def declaredType (d : DeclaredType) : DeclaredType :=
  { d with type := ρ.ty d.type, members := d.members.map ρ.member
           inits := d.inits.map fun i => (ρ.field i.1, i.2), delegate := d.delegate.map ρ.delegate }

end Renaming

/-- Two symbol tables know the same of names, of the members of some types, and of delegates. -/
structure Symbols.Local (ρ : Renaming) (K : Symbols → Symbols → Prop) (S : Ty → Prop) (s s' : Symbols) : Prop where
  names : K s s'
  phase : s'.phase = s.phase
  fields : ∀ {t : Ty}, S t → s'.fieldsOf (ρ.ty t) = (s.fieldsOf t).map ρ.field
  methods : ∀ {t : Ty}, S t → s'.allMethods (ρ.ty t) = (s.allMethods t).map ρ.method
  ctors : ∀ {t : Ty}, S t → s'.ctorsOf (ρ.ty t) = (s.ctorsOf t).map ρ.method
  delegates : ∀ k, s'.delegates.get? k = (s.delegates.get? k).map ρ.delegate

namespace Symbols.Local

variable {ρ : Renaming} {V : Text → Prop} {K : Symbols → Symbols → Prop} {S : Ty → Prop} {s s' : Symbols}

theorem requirePhase (h : s.Local ρ K S s') (p : Phase) (what : Text) :
    Agree (fun _ _ => True) (s.requirePhase p what) (s'.requirePhase p what) := by
  unfold Symbols.requirePhase
  rw [h.phase]
  exact .ite Iff.rfl (fun _ => .ok trivial) fun _ => .error rfl

theorem extended (h : s.Local ρ K S s') {r r' : Symbols} (hs : s.Extends r) (hs' : s'.Extends r') (hk : K r r') :
    r.Local ρ K S r' where
  names := hk
  phase := by
    rw [hs'.rest, hs.rest]
    exact h.phase
  fields ht := by rw [hs.fieldsOf, hs'.fieldsOf, h.fields ht]
  methods ht := by rw [hs.allMethods, hs'.allMethods, h.methods ht]
  ctors ht := by rw [hs.ctorsOf, hs'.ctorsOf, h.ctors ht]
  delegates := by
    rw [hs'.rest, hs.rest]
    exact h.delegates

theorem lookup (hK : ρ.Naming V K) (h : s.Local ρ K S s') (n : Text) :
    Agree (fun r r' => r'.1 = ρ.ty r.1 ∧ r.2.Local ρ K S r'.2) (s.lookup n) (s'.lookup n) := by
  have hl := hK.lookup n h.names
  generalize hx : s.lookup n = x at hl ⊢
  generalize hy : s'.lookup n = y at hl ⊢
  cases hl with
  | error he => exact .error he
  | ok hr => exact .ok ⟨hr.1, h.extended (Symbols.lookup_extends hx) (Symbols.lookup_extends hy) hr.2⟩

/-- A member is entered where none like it is known. -/
theorem any_map {α : Type} {g : α → α} {p p' : α → Bool} (hp : ∀ a, p' (g a) = p a) (as : List α) :
    (as.map g).any p' = as.any p := by
  rw [List.any_map]
  congr 1
  funext a
  exact hp a

/-- What is entered for a type and for the renamed one. -/
theorem getD_put_map {α : Type} {g : α → α} {T T' : Table (List α)} {k k' : Text} {l l' : List α} (hl : l' = l.map g)
    (h : (T'.get? k').getD [] = ((T.get? k').getD []).map g) :
      ((T'.put k l').get? k').getD [] = (((T.put k l).get? k').getD []).map g := by
  rw [getD_put, getD_put, hl, h]
  split <;> rfl

theorem registerField (hK : ρ.Naming V K) (h : s.Local ρ K S s') {f : Field} (hf : S f.owner) :
    Agree (Symbols.Local ρ K S) (s.registerField f) (s'.registerField (ρ.field f)) := by
  unfold Symbols.registerField
  refine (h.requirePhase _ _).bind fun _ _ _ => ?_
  rw [Renaming.owner_field, h.fields hf]
  refine .ite (by rw [any_map fun _ => rfl]; exact Iff.rfl) (fun _ => .error rfl) fun _ => .ok ?_
  refine ⟨hK.keeps h.names rfl rfl rfl rfl, h.phase, fun {u} hu => ?_, h.methods, h.ctors, h.delegates⟩
  have hu := h.fields hu
  simp only [Symbols.fieldsOf, Renaming.name_ty] at hu ⊢
  exact getD_put_map (by simp) hu

theorem registerMethod (hK : ρ.Naming V K) (h : s.Local ρ K S s') {m : Method} (hm : S m.owner) :
    Agree (Symbols.Local ρ K S) (s.registerMethod m) (s'.registerMethod (ρ.method m)) := by
  unfold Symbols.registerMethod
  refine (h.requirePhase _ _).bind fun _ _ _ => ?_
  rw [Renaming.owner_method, h.methods hm]
  have hp :
      ∀ g : Method, (decide ((ρ.method g).name = (ρ.method m).name) && (ρ.method g).isStatic == (ρ.method m).isStatic &&
      Ty.sameList (ρ.method g).params (ρ.method m).params) =
      (decide (g.name = m.name) && g.isStatic == m.isStatic && Ty.sameList g.params m.params) := by
    intro g
    rw [Renaming.params_method, Renaming.params_method, Renaming.sameList_map]
    rfl
  refine .ite (by rw [any_map hp]) (fun _ => .error rfl) fun _ => .ok ?_
  refine ⟨hK.keeps h.names rfl rfl rfl rfl, h.phase, h.fields, fun {u} hu => ?_, h.ctors, h.delegates⟩
  have hu := h.methods hu
  simp only [Symbols.allMethods, Renaming.name_ty] at hu ⊢
  exact getD_put_map (by simp) hu

theorem registerConstructor (hK : ρ.Naming V K) (h : s.Local ρ K S s') {m : Method} (hm : S m.owner) :
    Agree (Symbols.Local ρ K S) (s.registerConstructor m) (s'.registerConstructor (ρ.method m)) := by
  unfold Symbols.registerConstructor
  refine (h.requirePhase _ _).bind fun _ _ _ => ?_
  rw [Renaming.owner_method, h.ctors hm]
  have hp : ∀ g : Method, Ty.sameList (ρ.method g).params (ρ.method m).params = Ty.sameList g.params m.params :=
    fun g => by simp
  refine .ite (by rw [any_map hp]) (fun _ => .error rfl) fun _ => .ok ?_
  refine ⟨hK.keeps h.names rfl rfl rfl rfl, h.phase, h.fields, h.methods, fun {u} hu => ?_, h.delegates⟩
  have hu := h.ctors hu
  simp only [Symbols.ctorsOf, Renaming.name_ty] at hu ⊢
  exact getD_put_map (by simp) hu

end Symbols.Local

namespace Compilation

/-- Two compilations know the same of some types. -/
structure Local (ρ : Renaming) (K : Symbols → Symbols → Prop) (S : Ty → Prop) (c c' : Compilation) : Prop where
  symbols : c.symbols.Local ρ K S c'.symbols
  module : c.module.Local ρ S c'.module
  roles : c'.roles = ρ.roles c.roles

namespace Local

variable {ρ : Renaming} {V : Text → Prop} {K : Symbols → Symbols → Prop} {S : Ty → Prop} {t : Ty} {c c' : Compilation}

/-! ### Names -/

theorem lookup (hK : ρ.Naming V K) (h : c.Local ρ K S c') (n : Text) :
    Agree (fun r r' => r'.1 = ρ.ty r.1 ∧ r.2.Local ρ K S r'.2) (c.lookup n) (c'.lookup n) :=
  (h.symbols.lookup hK n).bind fun _ _ hr => .ok ⟨hr.1, hr.2, h.module, h.roles⟩

theorem lookupReturn (hK : ρ.Naming V K) (h : c.Local ρ K S c') (n : Text) :
    Agree (fun r r' => r'.1 = ρ.ty r.1 ∧ r.2.Local ρ K S r'.2) (c.lookupReturn n) (c'.lookupReturn n) := by
  unfold Compilation.lookupReturn
  refine .ite Iff.rfl (fun _ => .ok ⟨?_, h⟩) fun _ => h.lookup hK n
  rw [h.roles]
  rfl

theorem lookupParams (hK : ρ.Naming V K) (h : c.Local ρ K S c') (seen : List Text) (ps : List Param) :
    Agree (fun r r' => r'.1 = r.1.map ρ.ty ∧ r.2.Local ρ K S r'.2) (c.lookupParams seen ps) (c'.lookupParams seen ps) := by
  induction ps generalizing c c' seen with
  | nil => exact .ok ⟨rfl, h⟩
  | cons p rest ih =>
    unfold Compilation.lookupParams
    refine .ite Iff.rfl (fun _ => .error rfl) fun _ => (h.lookup hK p.type).bind ?_
    rintro ⟨u, c⟩ ⟨_, c'⟩ ⟨rfl, h⟩
    dsimp only
    rw [Renaming.isVoid_ty]
    refine .ite Iff.rfl (fun _ => .error rfl) fun _ => (ih h _).bind ?_
    rintro ⟨us, c⟩ ⟨_, c'⟩ ⟨rfl, h⟩
    exact .ok ⟨rfl, h⟩

theorem nameParams {m m' : Module} (h : m.Local ρ S m') {r : Method} (hr : S r.owner) (position : Nat) (ns : List Text) :
    Agree (Module.Local ρ S) (Compilation.nameParams m r position ns)
      (Compilation.nameParams m' (ρ.method r) position ns) := by
  induction ns generalizing m m' position with
  | nil => exact .ok h
  | cons n rest ih => exact (h.defineParameter hr position n).bind fun _ _ h => ih h _

theorem some_ty (ts : List Ty) : (ts.map ρ.ty).map some = (ts.map some).map ρ.opt := by simp [Function.comp_def]

/-! ### Members -/

theorem declareField (hK : ρ.Naming V K) (h : c.Local ρ K S c') (ht : S t) (f : FieldDecl) :
    Agree (fun r r' => r'.1 = ρ.field r.1 ∧ r.2.Local ρ K S r'.2) (c.declareField t f) (c'.declareField (ρ.ty t) f) := by
  refine (h.lookup hK f.type).bind ?_
  rintro ⟨type, c⟩ ⟨_, c'⟩ ⟨rfl, h⟩
  dsimp only
  rw [Renaming.isVoid_ty]
  refine .ite Iff.rfl (fun _ => .error rfl) fun _ => .ite Iff.rfl (fun _ => .error rfl) fun _ => ?_
  refine (h.module.defineField ht f.name (some type) _).bind ?_
  rintro ⟨g, m⟩ ⟨_, m'⟩ ⟨rfl, ho, hm⟩
  exact (h.symbols.registerField hK (by rw [ho]; exact ht)).bind fun _ _ hs => .ok ⟨rfl, hs, hm, h.roles⟩

theorem declareFields (hK : ρ.Naming V K) (h : c.Local ρ K S c') (ht : S t) (fs : List FieldDecl) :
    Agree (fun r r' => r'.1 = r.1.map (fun i => (ρ.field i.1, i.2)) ∧ r.2.Local ρ K S r'.2) (c.declareFields t fs)
      (c'.declareFields (ρ.ty t) fs) := by
  induction fs generalizing c c' with
  | nil => exact .ok ⟨rfl, h⟩
  | cons f rest ih =>
    refine (h.declareField hK ht f).bind ?_
    rintro ⟨g, c⟩ ⟨_, c'⟩ ⟨rfl, h⟩
    refine (ih h).bind ?_
    rintro ⟨inits, c⟩ ⟨_, c'⟩ ⟨rfl, h⟩
    refine .ok ⟨?_, h⟩
    dsimp only
    split <;> rfl

theorem declareCtor (hK : ρ.Naming V K) (h : c.Local ρ K S c') (ht : S t) (d : CtorDecl) :
    Agree (fun r r' => r'.1 = ρ.member r.1 ∧ r.2.Local ρ K S r'.2) (c.declareCtor t d) (c'.declareCtor (ρ.ty t) d) := by
  refine (h.lookupParams hK [] d.params).bind ?_
  rintro ⟨types, c⟩ ⟨_, c'⟩ ⟨rfl, h⟩
  dsimp only
  rw [some_ty]
  refine (h.module.defineConstructor ht .methods _).bind ?_
  rintro ⟨r, m⟩ ⟨_, m'⟩ ⟨rfl, ho, hm⟩
  have hr : S r.owner := by rw [ho]; exact ht
  refine (nameParams hm hr 1 _).bind fun m m' hm => (h.symbols.registerConstructor hK hr).bind fun _ _ hs =>
    .ok ⟨?_, hs, hm, h.roles⟩
  rw [h.roles]
  rfl

theorem declareMethod (hK : ρ.Naming V K) (h : c.Local ρ K S c') (ht : S t) (d : MethodDecl) :
    Agree (fun r r' => r'.1 = ρ.member r.1 ∧ r.2.Local ρ K S r'.2) (c.declareMethod t d) (c'.declareMethod (ρ.ty t) d) := by
  refine (h.lookupReturn hK d.ret).bind ?_
  rintro ⟨ret, c⟩ ⟨_, c'⟩ ⟨rfl, h⟩
  refine (h.lookupParams hK [] d.params).bind ?_
  rintro ⟨types, c⟩ ⟨_, c'⟩ ⟨rfl, h⟩
  dsimp only
  rw [some_ty, ← Renaming.opt_some]
  refine (h.module.defineMethod ht d.name _ (some ret) _).bind ?_
  rintro ⟨r, m⟩ ⟨_, m'⟩ ⟨rfl, ho, hm⟩
  have hr : S r.owner := by rw [ho]; exact ht
  exact (nameParams hm hr 1 _).bind fun m m' hm => (h.symbols.registerMethod hK hr).bind fun _ _ hs =>
    .ok ⟨rfl, hs, hm, h.roles⟩

theorem declareEach {α : Type} {declare declare' : Compilation → α → Except Fault (Member × Compilation)}
    (step : ∀ {c c' : Compilation}, c.Local ρ K S c' →
      ∀ a, Agree (fun r r' => r'.1 = ρ.member r.1 ∧ r.2.Local ρ K S r'.2) (declare c a) (declare' c' a))
    (h : c.Local ρ K S c') (as : List α) :
    Agree (fun r r' => r'.1 = r.1.map ρ.member ∧ r.2.Local ρ K S r'.2) (Compilation.declareEach declare c as)
      (Compilation.declareEach declare' c' as) := by
  induction as generalizing c c' with
  | nil => exact .ok ⟨rfl, h⟩
  | cons a rest ih =>
    refine (step h a).bind ?_
    rintro ⟨x, c⟩ ⟨_, c'⟩ ⟨rfl, h⟩
    refine (ih h).bind ?_
    rintro ⟨xs, c⟩ ⟨_, c'⟩ ⟨rfl, h⟩
    exact .ok ⟨rfl, h⟩

/-! ### Types -/

theorem declareDelegate (hK : ρ.Naming V K) (h : c.Local ρ K S c') (ht : S t) (d : DelegateDecl) :
    Agree (fun r r' => r'.1 = ρ.delegate r.1 ∧
      r.2.Local ρ K S r'.2) (c.declareDelegate t d) (c'.declareDelegate (ρ.ty t) d) := by
  refine (h.lookupReturn hK d.ret).bind ?_
  rintro ⟨ret, c⟩ ⟨_, c'⟩ ⟨rfl, h⟩
  refine (h.lookupParams hK [] d.params).bind ?_
  rintro ⟨params, c⟩ ⟨_, c'⟩ ⟨rfl, h⟩
  have hctor := h.module.defineConstructor ht .methods [some c.roles.object, some c.roles.intPtr]
  dsimp only
  rw [h.roles, some_ty, ← Renaming.opt_some]
  refine hctor.bind ?_
  rintro ⟨ctor, m⟩ ⟨_, m'⟩ ⟨rfl, ho, hm⟩
  have hr : S ctor.owner := by rw [ho]; exact ht
  refine (nameParams hm hr 1 _).bind fun m m' hm => (hm.setImplementation hr .runtime).bind fun m m' hm => ?_
  refine (hm.defineMethod ht Method.invokeName .invocations (some ret) _).bind ?_
  rintro ⟨invoke, m⟩ ⟨_, m'⟩ ⟨rfl, hoi, hm⟩
  have hi : S invoke.owner := by rw [hoi]; exact ht
  refine (nameParams hm hi 1 _).bind fun m m' hm => (hm.setImplementation hi .runtime).bind fun m m' hm => ?_
  refine (h.symbols.registerConstructor hK hr).bind fun s s' hs => (hs.registerMethod hK hi).bind fun s s' hs =>
    .ok ⟨?_, hs, hm, ?_⟩
  · simp [Renaming.delegate]
  · rfl

theorem declareClass (hK : ρ.Naming V K) (h : c.Local ρ K S c') {d : DeclaredType} (ht : S d.type) (cd : ClassDecl) :
    Agree (fun r r' => r'.1 = ρ.declaredType r.1 ∧ r.2.Local ρ K S r'.2) (c.declareClass d cd)
      (c'.declareClass (ρ.declaredType d) cd) := by
  refine (h.declareFields hK ht cd.fields).bind ?_
  rintro ⟨inits, c⟩ ⟨_, c'⟩ ⟨rfl, h⟩
  refine (declareEach (fun h x => h.declareCtor hK ht x) h _).bind ?_
  rintro ⟨ctors, c⟩ ⟨_, c'⟩ ⟨rfl, h⟩
  refine (declareEach (fun h x => h.declareMethod hK ht x) h _).bind ?_
  rintro ⟨methods, c⟩ ⟨_, c'⟩ ⟨rfl, h⟩
  exact .ok ⟨by simp [Renaming.declaredType], h⟩

/-- The members of a type are declared alike. -/
theorem declareType (hK : ρ.Naming V K) (h : c.Local ρ K S c') {d : DeclaredType} (ht : S d.type) :
    Agree (fun r r' => r'.1 = ρ.declaredType r.1 ∧
      r.2.Local ρ K S r'.2) (c.declareType d) (c'.declareType (ρ.declaredType d)) := by
  unfold Compilation.declareType
  have hsource : (ρ.declaredType d).source = d.source := rfl
  rw [hsource]
  cases d.source with
  | «class» cd => exact h.declareClass hK ht cd
  | delegate dd =>
    refine (h.declareDelegate hK ht dd).bind ?_
    rintro ⟨D, c⟩ ⟨_, c'⟩ ⟨rfl, h⟩
    exact .ok ⟨rfl, h⟩

end Local

/-- The parameters of a renamed member. -/
theorem scopeOf_params (ρ : Renaming) (c c' : Compilation) (x : Member) :
    (c'.scopeOf (ρ.member x)).params = (c.scopeOf x).params.map fun p => (p.1, p.2.1, ρ.ty p.2.2) := by
  simp only [scopeOf, Renaming.member, Renaming.isStatic_method, List.zip_map_right, List.zipIdx_map, List.map_map]
  rfl

end Compilation
end CilCompiler
