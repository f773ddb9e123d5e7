import Mathlib.Data.List.Forall2
import CilCompiler.Proofs.Compilation.Coherent
import CilCompiler.Proofs.Identifiers

/-!
Declaring the members of types. While members of a type are declared, `Working` says what the compilation is:
as before, but for the definition of that type and for array types that have been entered. What a type has
been declared as is told by `ClassMade` and `DelegateMade`.
-/

namespace CilCompiler

/-- A name stands for a type, however many array types have been added to `s`. -/
def Symbols.Denotes (s : Symbols) (n : Text) (t : Ty) : Prop :=
  ∃ s₁ s₂, s.Grown s₁ ∧ s₁.lookup n = .ok (t, s₂)

/-- The return type of a name; no name is void. -/
def Symbols.Returns (s : Symbols) (roles : Roles) (n : Text) (t : Ty) : Prop :=
  n.isEmpty = true ∧ t = roles.void ∨ n.isEmpty = false ∧ s.Denotes n t

/-- A type of a location: of a kind, and not void. -/
def Ty.Locates (P : Ty → Prop) (t : Ty) : Prop := P t ∧ t.isVoid = false

/-- A member whose body is still to be recorded. -/
structure Routine.Recorded (x : Routine) : Prop where
  impl : x.impl = .recorded
  draft : x.draft = {}
  body : x.body = none
  native : x.native = none

/-- A member that the runtime implements. -/
structure Routine.Supplied (x : Routine) : Prop where
  impl : x.impl = .runtime
  draft : x.draft = {}
  native : x.native = none

/-- A constructor as a method without a result. -/
def CtorDecl.asMethod (d : CtorDecl) : MethodDecl :=
  { name := Method.ctorName, isStatic := false, ret := .empty, params := d.params, body := d.body }

/-- The constructors of a class; one without constructors gets a constructor without parameters. -/
def ClassDecl.allCtors (d : ClassDecl) : List CtorDecl :=
  if d.ctors.isEmpty then [{ params := [], body := [] }] else d.ctors

/-- The constructors and methods of a class, each with whether it is a constructor. -/
def ClassDecl.routines (d : ClassDecl) : List (Bool × MethodDecl) :=
  (d.allCtors.map fun x => (true, x.asMethod)) ++ d.methods.map fun x => (false, x)

/-- A member of type `t` is what a declaration says. -/
structure Member.Declares (P : Ty → Prop) (s : Symbols) (roles : Roles) (t : Ty) (m : Bool × MethodDecl) (x : Member) :
    Prop where
  params : x.params = m.2.params
  body : x.body = m.2.body
  types : List.Forall₂ (fun p u => s.Denotes p.type u ∧ Ty.Locates P u) m.2.params x.types
  ret : s.Returns roles m.2.ret x.ret
  owner : x.method.owner = t
  isCtor : x.method.isCtor = m.1
  isStatic : x.method.isStatic = m.2.isStatic
  isVirtual : x.method.isVirtual = false
  name : x.method.name = m.2.name
  signature : x.method.params = x.types.map some
  result : x.method.ret = some x.ret

namespace Compilation

/-- The compilation is `base` with another definition `d` at place `i`, and with what the symbols know of it. -/
structure Working (P : Ty → Prop) (base : Compilation) (i : Nat) (d : TypeDef) (c : Compilation) : Prop where
  eq : c = { base with module := base.module.put i d, symbols := c.symbols }
  inside : i < base.module.types.size
  coherent : c.Coherent
  grown : base.symbols.Grown c.symbols
  delegates : c.symbols.delegates = base.symbols.delegates
  admits : c.symbols.All P
  admitted : ∀ {j : Nat} {e : TypeDef}, c.module.types[j]? = some e → e.Admitted P

namespace Working
variable {P : Ty → Prop} {base c c' : Compilation} {i : Nat} {d : TypeDef}

theorem start (h : base.Coherent) (hs : base.symbols.All P)
    (ha : ∀ {j : Nat} {e : TypeDef}, base.module.types[j]? = some e → e.Admitted P)
    (hd : base.module.types[i]? = some d) : Working P base i d base :=
  ⟨by rw [Module.put_self hd], (Array.getElem?_eq_some_iff.mp hd).1, h, .refl _, rfl, hs, ha⟩

theorem get (h : Working P base i d c) : c.module.types[i]? = some d := by
  rw [h.eq]
  show (base.module.put i d).types[i]? = some d
  rw [Module.types_put h.inside, if_pos rfl]

theorem shaped (h : Working P base i d c) : d.Shaped c.module.id i := h.coherent.shaped h.get

theorem roles (h : Working P base i d c) : c.roles = base.roles := by rw [h.eq]

theorem void (h : Working P base i d c) : P base.roles.void := by
  have hv := h.coherent.void
  rw [h.roles] at hv
  obtain ⟨e, he, ht⟩ := Option.map_eq_some_iff.mp hv
  obtain ⟨j, hj⟩ := Array.mem_iff_getElem?.mp (Array.mem_of_find?_eq_some he)
  rw [← ht]
  exact (h.admitted hj).type

theorem put (h : Working P base i d c) {d' : TypeDef} (hshaped : d'.Shaped c.module.id i) (htype : d'.type = d.type)
    {s : Symbols} (hs : c.symbols.ChangedAt s (Symbols.key d.type.name)) (hl : s.Lists d') (ha : d'.Admitted P) :
    Working P base i d' { c with module := c.module.put i d', symbols := s } := by
  have hmodule : c.module.put i d' = base.module.put i d' := by
    rw [h.eq]
    exact Module.put_put _ _ _ _
  refine ⟨?_, h.inside, h.coherent.put h.get hshaped htype hs hl, h.grown.trans hs.grown, hs.delegates.trans h.delegates,
    fun {k t} hk => ?_, fun {j e} he => ?_⟩
  · show { c with module := c.module.put i d', symbols := s } = { base with module := base.module.put i d', symbols := s }
    rw [hmodule, h.eq]
  · have hk : s.types.get? k = some t := hk
    rw [hs.types] at hk
    exact h.admits hk
  · have he : (c.module.put i d').types[j]? = some e := he
    rw [Module.types_put (Array.getElem?_eq_some_iff.mp h.get).1] at he
    split at he
    · cases he
      exact ha
    · exact h.admitted he

/-! ### Names of types -/

theorem lookup (h : Working P base i d c) {n : Text} {t : Ty} (hn : base.symbols.Names P n)
    (hl : c.lookup n = .ok (t, c')) : base.symbols.Denotes n t ∧ P t ∧ Working P base i d c' := by
  obtain ⟨⟨t', s⟩, hs, he⟩ := bind_eq_ok.mp hl
  cases he
  obtain ⟨ht, ha⟩ := hn _ _ _ h.grown h.admits hs
  have hx := Symbols.lookup_extends hs
  refine ⟨⟨_, _, h.grown, hs⟩, ht, ?_, h.inside, h.coherent.extended hx, h.grown.trans hx.grown, ?_, ha, h.admitted⟩
  · show { c with symbols := s } = { base with module := base.module.put i d, symbols := s }
    rw [h.eq]
  · show s.delegates = _
    rw [hx.rest]
    exact h.delegates

theorem lookupReturn (h : Working P base i d c) {n : Text} {t : Ty} (hn : n.isEmpty = false → base.symbols.Names P n)
    (hl : c.lookupReturn n = .ok (t, c')) : base.symbols.Returns base.roles n t ∧ P t ∧ Working P base i d c' := by
  unfold Compilation.lookupReturn at hl
  split at hl
  · rename_i he
    cases hl
    rw [h.roles]
    exact ⟨.inl ⟨he, rfl⟩, h.void, h⟩
  · rename_i he
    have he : n.isEmpty = false := by simpa using he
    obtain ⟨hd, ht, h⟩ := h.lookup (hn he) hl
    exact ⟨.inr ⟨he, hd⟩, ht, h⟩

theorem lookupParams (h : Working P base i d c) {ps : List Param} {seen : List Text} {ts : List Ty}
    (hn : ∀ p ∈ ps, base.symbols.Names P p.type) (hl : c.lookupParams seen ps = .ok (ts, c')) :
    List.Forall₂ (fun p u => base.symbols.Denotes p.type u ∧ Ty.Locates P u) ps ts ∧ Working P base i d c' := by
  induction ps generalizing c seen ts with
  | nil =>
    cases hl
    exact ⟨.nil, h⟩
  | cons p ps ih =>
    unfold Compilation.lookupParams at hl
    split at hl
    · cases hl
    · obtain ⟨⟨t, c₁⟩, h1, hl⟩ := bind_eq_ok.mp hl
      dsimp only at hl
      split at hl
      · cases hl
      · rename_i hv
        obtain ⟨⟨us, c₂⟩, h2, hl⟩ := bind_eq_ok.mp hl
        cases hl
        obtain ⟨hd, ht, h⟩ := h.lookup (hn p List.mem_cons_self) h1
        obtain ⟨hrest, h⟩ := ih h (fun q hq => hn q (List.mem_cons_of_mem _ hq)) h2
        exact ⟨.cons ⟨hd, ht, by simpa using hv⟩ hrest, h⟩

/-- Parameters that have been looked up make a signature. -/
theorem params_of_types {s : Symbols} {ps : List Param} {ts : List Ty}
    (h : List.Forall₂ (fun p u => s.Denotes p.type u ∧ Ty.Locates P u) ps ts) :
    ∀ p ∈ ts.map some, ∃ t, p = some t ∧ Ty.Locates P t := by
  induction h with
  | nil => exact fun p hp => (by cases hp)
  | cons h _ ih =>
    intro p hp
    rcases List.mem_cons.mp hp with rfl | hp
    · exact ⟨_, rfl, h.2⟩
    · exact ih p hp

/-! ### Members -/

/-- A method or constructor is defined and its parameters are named, and perhaps the runtime implements it: then it
    stands behind the others. -/
theorem addRoutine (h : Working P base i d c) {x : Routine} (ho : x.method.owner = d.type)
    (hi : x.method.index = d.nextIndex x.method.isCtor) (hs : x.method.isCtor = true → x.method.isStatic = false)
    (hr : ∃ t, x.method.ret = some t ∧ P t) (hp : ∀ p ∈ x.method.params, ∃ t, p = some t ∧ Ty.Locates P t) :
    Working P base i (d.pushRoutine x)
      { c with module := c.module.put i (d.pushRoutine x), symbols := c.symbols.withRoutine x.method } := by
  refine h.put (h.shaped.pushRoutine ho hi hs) (d.type_pushRoutine x) ?_ ((h.coherent.lists h.get).withRoutine ho)
    ((h.admitted h.get).pushRoutine hr hp)
  have hc := c.symbols.changedAt_withRoutine x.method
  rw [ho] at hc
  exact hc

theorem declareField (h : Working P base i d c) {fd : FieldDecl} {f : Field} (hn : base.symbols.Names P fd.type)
    (hf : c.declareField d.type fd = .ok (f, c')) :
    (fd.init.isMissing = false → f.isStatic = false) ∧
      ∃ n, Working P base i { d with fields := d.fields.push f, slots := n } c' := by
  obtain ⟨⟨t, c₁⟩, h1, hf⟩ := bind_eq_ok.mp hf
  obtain ⟨-, ht, h⟩ := h.lookup hn h1
  dsimp only at hf
  split at hf
  · cases hf
  rename_i hv
  split at hf
  · cases hf
  rename_i hinit
  obtain ⟨⟨g, m⟩, h2, hf⟩ := bind_eq_ok.mp hf
  obtain ⟨s, h3, hf⟩ := bind_eq_ok.mp hf
  cases hf
  obtain ⟨hg, rfl⟩ := Module.defineField_ok h.coherent.shaped h.get h2
  rw [Symbols.registerField_ok h3]
  have hst : g.isStatic = fd.isStatic := by
    rw [hg]
    show FieldAttributes.isStatic (if fd.isStatic then _ else _) = _
    cases fd.isStatic <;> rfl
  have ho : g.owner = d.type := by rw [hg]
  have hattrs : (if fd.isStatic then FieldAttributes.publicStatics else .publics).isStatic = g.isStatic := by rw [hg]; rfl
  rw [hattrs]
  refine ⟨fun hm => ?_, _, h.put (h.shaped.pushField ho (by rw [hg]) ?_) rfl ?_ ((h.coherent.lists h.get).withField ho) ?_⟩
  · rw [hst]
    simpa [hm] using hinit
  · rw [← hattrs, hg]
  · have hc := c₁.symbols.changedAt_withField g
    rw [ho] at hc
    exact hc
  · have ha := h.admitted h.get
    refine ⟨ha.type, fun x hx => ?_, ha.results, ha.params⟩
    have hx : x ∈ (d.fields.push g).toList := hx
    rw [Array.toList_push, List.mem_append, List.mem_singleton] at hx
    rcases hx with hx | rfl
    · exact ha.fields x hx
    · exact ⟨t, by rw [hg], ht, by simpa using hv⟩

/-- Fields come behind the others, and those of instances may have initial values. -/
theorem declareFields (h : Working P base i d c) {fds : List FieldDecl} {inits : List (Field × Expr)}
    (hn : ∀ fd ∈ fds, base.symbols.Names P fd.type) (hf : c.declareFields d.type fds = .ok (inits, c')) :
    ∃ fs n, Working P base i { d with fields := d.fields ++ fs, slots := n } c' ∧
      ∀ x ∈ inits, x.1 ∈ fs ∧ x.1.isStatic = false ∧ ∃ fd ∈ fds, x.2 = fd.init := by
  induction fds generalizing c d inits with
  | nil =>
    cases hf
    exact ⟨#[], d.slots, by simpa using h, fun x hx => (by cases hx)⟩
  | cons fd fds ih =>
    obtain ⟨⟨f, c₁⟩, h1, hf⟩ := bind_eq_ok.mp hf
    obtain ⟨⟨rest, c₂⟩, h2, hf⟩ := bind_eq_ok.mp hf
    cases hf
    obtain ⟨hst, n, h⟩ := h.declareField (hn fd List.mem_cons_self) h1
    obtain ⟨fs, n', h, hrest⟩ := ih h (fun x hx => hn x (List.mem_cons_of_mem _ hx)) h2
    refine ⟨#[f] ++ fs, n', by simpa using h, fun x hx => ?_⟩
    have tail : ∀ x ∈ rest, x.1 ∈ #[f] ++ fs ∧ x.1.isStatic = false ∧ ∃ g ∈ fd :: fds, x.2 = g.init := by
      intro x hx
      obtain ⟨hm, hs, g, hg, he⟩ := hrest x hx
      exact ⟨Array.mem_append.mpr (.inr hm), hs, g, List.mem_cons_of_mem _ hg, he⟩
    split at hx
    · exact tail x hx
    · rename_i hm
      rcases List.mem_cons.mp hx with rfl | hx
      · exact ⟨by simp, hst (by simpa using hm), fd, List.mem_cons_self, rfl⟩
      · exact tail x hx

/-- A member has been declared: it stands behind the others and is still to be recorded. -/
structure Added (P : Ty → Prop) (base : Compilation) (i : Nat) (d : TypeDef) (m : Bool × MethodDecl) (x : Member)
    (y : Routine) (c : Compilation) : Prop where
  working : Working P base i (d.pushRoutine y) c
  recorded : y.Recorded
  method : y.method = x.method
  declares : x.Declares P base.symbols base.roles d.type m

theorem declareCtor (h : Working P base i d c) {cd : CtorDecl} {x : Member}
    (hn : ∀ p ∈ cd.params, base.symbols.Names P p.type) (hf : c.declareCtor d.type cd = .ok (x, c')) :
    ∃ y, Added P base i d (true, cd.asMethod) x y c' := by
  obtain ⟨⟨types, c₁⟩, h1, hf⟩ := bind_eq_ok.mp hf
  obtain ⟨⟨r, m₁⟩, h2, hf⟩ := bind_eq_ok.mp hf
  obtain ⟨m₂, h3, hf⟩ := bind_eq_ok.mp hf
  obtain ⟨s, h4, hf⟩ := bind_eq_ok.mp hf
  cases hf
  obtain ⟨htypes, h⟩ := h.lookupParams hn h1
  obtain ⟨hr, ns, rfl⟩ := Module.defineConstructor_ok h.coherent.shaped h.get h2
  have hvoid : c₁.module.type? TypeName.void = some base.roles.void := by rw [← h.roles]; exact h.coherent.void
  have ho : r.owner = d.type := by rw [hr]
  have hc : r.isCtor = true := by rw [hr]
  have hi : r.index = d.nextIndex r.isCtor := by rw [hr]; rfl
  obtain ⟨names, rfl⟩ := Module.nameParams_put (x := { method := r, paramNames := ns }) h.get h.shaped.index ho hi h3
  rw [Symbols.registerConstructor_ok hc h4]
  have hst : r.isStatic = false := by
    rw [hr]
    show MethodAttributes.isStatic (MethodAttributes.forConstructor .methods) = false
    decide
  have hvirtual : r.isVirtual = false := by
    rw [hr]
    show MethodAttributes.isVirtual (MethodAttributes.forConstructor .methods) = false
    decide
  have hret : r.ret = some base.roles.void := by rw [hr]; exact hvoid
  have hparams : r.params = types.map some := by rw [hr]
  refine ⟨{ method := r, paramNames := names }, h.addRoutine ho hi (fun _ => hst) ⟨_, hret, h.void⟩ ?_,
    ⟨rfl, rfl, rfl, rfl⟩, rfl, rfl, rfl, htypes, .inl ⟨rfl, congrArg Roles.void h.roles⟩, ho, hc, hst, hvirtual, by
      rw [hr]; rfl, hparams, ?_⟩
  · show ∀ p ∈ r.params, _
    rw [hparams]
    exact params_of_types htypes
  · show r.ret = some c₁.roles.void
    rw [hret, h.roles]

theorem declareMethod (h : Working P base i d c) {md : MethodDecl} {x : Member}
    (hn : ∀ p ∈ md.params, base.symbols.Names P p.type) (hret : md.ret.isEmpty = false → base.symbols.Names P md.ret)
    (hf : c.declareMethod d.type md = .ok (x, c')) : ∃ y, Added P base i d (false, md) x y c' := by
  obtain ⟨⟨ret, c₁⟩, h1, hf⟩ := bind_eq_ok.mp hf
  obtain ⟨⟨types, c₂⟩, h2, hf⟩ := bind_eq_ok.mp hf
  obtain ⟨⟨r, m₁⟩, h3, hf⟩ := bind_eq_ok.mp hf
  obtain ⟨m₂, h4, hf⟩ := bind_eq_ok.mp hf
  obtain ⟨s, h5, hf⟩ := bind_eq_ok.mp hf
  cases hf
  obtain ⟨hreturns, hP, h⟩ := h.lookupReturn hret h1
  obtain ⟨htypes, h⟩ := h.lookupParams hn h2
  obtain ⟨hr, ns, rfl⟩ := Module.defineMethod_ok h.coherent.shaped h.get h3
  have ho : r.owner = d.type := by rw [hr]
  have hc : r.isCtor = false := by rw [hr]
  have hi : r.index = d.nextIndex r.isCtor := by rw [hr]; rfl
  obtain ⟨names, rfl⟩ := Module.nameParams_put (x := { method := r, paramNames := ns }) h.get h.shaped.index ho hi h4
  rw [Symbols.registerMethod_ok hc h5]
  have hst : r.isStatic = md.isStatic := by
    rw [hr]
    show MethodAttributes.isStatic (if md.isStatic then _ else _) = _
    cases md.isStatic <;> rfl
  have hvirtual : r.isVirtual = false := by
    rw [hr]
    show MethodAttributes.isVirtual (if md.isStatic then _ else _) = _
    cases md.isStatic <;> rfl
  have hparams : r.params = types.map some := by rw [hr]
  refine ⟨{ method := r, paramNames := names }, h.addRoutine ho hi (fun hc' => ?_) ⟨ret, by rw [hr], hP⟩ ?_,
    ⟨rfl, rfl, rfl, rfl⟩, rfl, rfl, rfl, htypes, hreturns, ho, hc, hst, hvirtual, by rw [hr], hparams, by rw [hr]⟩
  · have hc' : r.isCtor = true := hc'
    rw [hc] at hc'
    cases hc'
  · show ∀ p ∈ r.params, _
    rw [hparams]
    exact params_of_types htypes

/-- Members are declared in order. -/
theorem declareEach {α : Type} {declare : Compilation → α → Except Fault (Member × Compilation)} {m : α → Bool × MethodDecl}
    {l : List α} {xs : List Member} (h : Working P base i d c)
    (step : ∀ {c c' : Compilation} {d' : TypeDef} {a : α} {x : Member}, a ∈ l → d'.type = d.type → Working P base i d' c →
      declare c a = .ok (x, c') → ∃ y, Added P base i d' (m a) x y c')
    (hf : Compilation.declareEach declare c l = .ok (xs, c')) :
    ∃ ys : List Routine, Working P base i (ys.foldl TypeDef.pushRoutine d) c' ∧
      ys.map Routine.method = xs.map Member.method ∧
      (∀ y ∈ ys, y.Recorded) ∧ List.Forall₂ (Member.Declares P base.symbols base.roles d.type) (l.map m) xs := by
  induction l generalizing c d xs with
  | nil =>
    cases hf
    exact ⟨[], h, rfl, fun y hy => (by cases hy), .nil⟩
  | cons a l ih =>
    obtain ⟨⟨x, c₁⟩, h1, hf⟩ := bind_eq_ok.mp hf
    obtain ⟨⟨rest, c₂⟩, h2, hf⟩ := bind_eq_ok.mp hf
    cases hf
    obtain ⟨y, hy⟩ := step List.mem_cons_self rfl h h1
    have ht := d.type_pushRoutine y
    obtain ⟨ys, h, hm, hrec, hdecl⟩ := ih hy.working (fun ha hd => step (List.mem_cons_of_mem _ ha) (hd.trans ht)) h2
    rw [ht] at hdecl
    refine ⟨y :: ys, h, ?_, fun z hz => ?_, .cons hy.declares hdecl⟩
    · rw [List.map_cons, List.map_cons, hm, hy.method]
    · rcases List.mem_cons.mp hz with rfl | hz
      · exact hy.recorded
      · exact hrec z hz

end Working
end Compilation

theorem TypeDef.foldl_pushRoutine_ctors {ys : List Routine} (d : TypeDef) (h : ∀ y ∈ ys, y.method.isCtor = true) :
    ys.foldl TypeDef.pushRoutine d = { d with ctors := d.ctors ++ ys.toArray } := by
  induction ys generalizing d with
  | nil => simp
  | cons y ys ih =>
    rw [List.foldl_cons, ih _ fun z hz => h z (List.mem_cons_of_mem _ hz), TypeDef.pushRoutine,
        if_pos (h y List.mem_cons_self)]
    simp

theorem TypeDef.foldl_pushRoutine_methods {ys : List Routine} (d : TypeDef) (h : ∀ y ∈ ys, y.method.isCtor = false) :
    ys.foldl TypeDef.pushRoutine d = { d with methods := d.methods ++ ys.toArray } := by
  induction ys generalizing d with
  | nil => simp
  | cons y ys ih =>
    rw [List.foldl_cons, ih _ fun z hz => h z (List.mem_cons_of_mem _ hz), TypeDef.pushRoutine,
      if_neg (by rw [h y List.mem_cons_self]; exact Bool.false_ne_true)]
    simp

/-! ### Types -/

/-- What a class has been declared as: a definition that is open and has the class's members. -/
structure ClassMade (P : Ty → Prop) (s : Symbols) (roles : Roles) (cd : ClassDecl) (d : DeclaredType)
    (e : TypeDef) : Prop where
  type : e.type = d.type
  isOpen : e.isCreated = false
  members : d.members.map Member.method = e.routines.map Routine.method
  recorded : ∀ x ∈ e.routines, x.Recorded
  declares : List.Forall₂ (Member.Declares P s roles d.type) cd.routines d.members
  inits : ∀ x ∈ d.inits, x.1 ∈ e.fields.toList ∧ x.1.isStatic = false ∧ ∃ f ∈ cd.fields, x.2 = f.init
  delegate : d.delegate = none

/-- What a delegate has been declared as: a definition with a constructor and a method that the runtime
    implements. -/
structure DelegateMade (roles : Roles) (d : DeclaredType) (e : TypeDef) : Prop where
  type : e.type = d.type
  isOpen : e.isCreated = false
  members : d.members = []
  fields : e.fields = #[]
  routines : ∃ ctor invoke : Routine, e.ctors = #[ctor] ∧ e.methods = #[invoke] ∧ ctor.Supplied ∧ invoke.Supplied ∧
    ctor.method.name = Method.ctorName ∧ ctor.method.params = [some roles.object, some roles.intPtr] ∧
    invoke.method.name = Method.invokeName ∧ invoke.method.isStatic = false ∧
    d.delegate = some { type := d.type, ret := invoke.method.ret, params := invoke.method.params, ctor := ctor.method }

/-- What a type has been declared as. -/
def Made (P : Ty → Prop) (s : Symbols) (roles : Roles) (d : DeclaredType) (e : TypeDef) : Prop :=
  match d.source with
  | .class cd => ClassMade P s roles cd d e
  | .delegate _ => DelegateMade roles d e

/-- The names of types in the signatures that a source declares, or its fields. -/
def Declaration.typeNames : Declaration → List Text
  | .delegate d => d.typeNames
  | .class d => d.typeNames

theorem mem_optionalName {n : Text} (h : n.isEmpty = false) : n ∈ optionalName n := by
  rw [optionalName, h]
  exact List.mem_singleton_self _

namespace Compilation.Working
variable {P : Ty → Prop} {base c c' : Compilation} {i : Nat} {e : TypeDef}

/-- Declared members are constructors, or methods, as their declarations say. -/
theorem isCtor_of_declares {s : Symbols} {roles : Roles} {t : Ty} {b : Bool} {l : List (Bool × MethodDecl)}
    {xs : List Member}
    {ys : List Routine} (h : List.Forall₂ (Member.Declares P s roles t) l xs) (hl : ∀ m ∈ l, m.1 = b)
    (hm : ys.map Routine.method = xs.map Member.method) : ∀ y ∈ ys, y.method.isCtor = b := by
  have members : ∀ x ∈ xs, x.method.isCtor = b := by
    clear hm
    induction h with
    | nil => exact fun x hx => (by cases hx)
    | cons hd _ ih =>
      intro x hx
      rcases List.mem_cons.mp hx with rfl | hx
      · rw [hd.isCtor]
        exact hl _ List.mem_cons_self
      · exact ih (fun m hm => hl m (List.mem_cons_of_mem _ hm)) x hx
  intro y hy
  obtain ⟨x, hx, he⟩ := List.mem_map.mp (hm ▸ List.mem_map_of_mem hy)
  rw [← he]
  exact members x hx

theorem declareClass {d d' : DeclaredType} {cd : ClassDecl} (h : Working P base i e c) (he : e.type = d.type)
    (hblank : e = { type := e.type, attrs := e.attrs }) (hd : d.delegate = none)
    (hn : ∀ n ∈ cd.typeNames, base.symbols.Names P n) (hf : c.declareClass d cd = .ok (d', c')) :
    ∃ e', Working P base i e' c' ∧ ClassMade P base.symbols base.roles cd d' e' ∧ d'.type = d.type ∧
      d'.source = d.source := by
  obtain ⟨⟨inits, c₁⟩, h1, hf⟩ := bind_eq_ok.mp hf
  obtain ⟨⟨ctors, c₂⟩, h2, hf⟩ := bind_eq_ok.mp hf
  obtain ⟨⟨methods, c₃⟩, h3, hf⟩ := bind_eq_ok.mp hf
  cases hf
  simp only [ClassDecl.typeNames, List.mem_append, List.mem_flatMap] at hn
  rw [← he] at h1 h2 h3
  obtain ⟨fs, n, h, hinits⟩ :=
    h.declareFields (fun fd hfd => hn _ (.inl (.inl ⟨fd, hfd, by simp [FieldDecl.typeNames]⟩))) h1
  have ctorNames : ∀ x ∈ cd.allCtors, ∀ p ∈ x.params, base.symbols.Names P p.type := by
    intro x hx p hp
    unfold ClassDecl.allCtors at hx
    split at hx
    · cases List.mem_singleton.mp hx
      cases hp
    · exact hn _
          (.inl (.inr ⟨x, hx, by simp only [CtorDecl.typeNames, List.mem_append]; exact .inl (List.mem_map_of_mem hp)⟩))
  obtain ⟨cs, h, hcs, hcrec, hcdecl⟩ := h.declareEach (m := fun x : CtorDecl => (true, x.asMethod))
    (fun {_ _ e₁ x _} hx ht h hs => by
      have ht : e₁.type = e.type := ht
      rw [← ht] at hs
      exact h.declareCtor (ctorNames x hx) hs) h2
  rw [TypeDef.foldl_pushRoutine_ctors _ (isCtor_of_declares hcdecl (fun m hm => by
    obtain ⟨x, -, rfl⟩ := List.mem_map.mp hm
    rfl) hcs)] at h
  obtain ⟨ms, h, hms, hmrec, hmdecl⟩ := h.declareEach (m := fun x : MethodDecl => (false, x))
    (fun {_ _ e₁ x _} hx ht h hs => by
      have ht : e₁.type = e.type := ht
      rw [← ht] at hs
      refine h.declareMethod (fun p hp => hn _ (.inr ⟨x, hx, ?_⟩)) (fun hr => hn _ (.inr ⟨x, hx, ?_⟩)) hs
      · simp only [MethodDecl.typeNames, List.mem_append]
        exact .inl (.inr (List.mem_map_of_mem hp))
      · simp only [MethodDecl.typeNames, List.mem_append]
        exact .inl (.inl (mem_optionalName hr))) h3
  rw [TypeDef.foldl_pushRoutine_methods _ (isCtor_of_declares hmdecl (fun m hm => by
    obtain ⟨x, -, rfl⟩ := List.mem_map.mp hm
    rfl) hms)] at h
  have noCtors : e.ctors = #[] := by rw [hblank]
  have noMethods : e.methods = #[] := by rw [hblank]
  refine ⟨_, h, ⟨he, ?_, ?_, fun x hx => ?_, ?_, fun x hx => ?_, hd⟩, rfl, rfl⟩
  · show e.isCreated = false
    rw [hblank]
  · show (ctors ++ methods).map Member.method = ((e.ctors ++ cs.toArray).toList ++ (e.methods ++ ms.toArray).toList).map _
    rw [noCtors, noMethods]
    simp [hcs, hms]
  · have hx : x ∈ (e.ctors ++ cs.toArray).toList ++ (e.methods ++ ms.toArray).toList := hx
    rw [noCtors, noMethods] at hx
    simp only [Array.empty_append, List.mem_append] at hx
    rcases hx with hx | hx
    · exact hcrec x hx
    · exact hmrec x hx
  · show List.Forall₂ _ (_ ++ _) (ctors ++ methods)
    rw [← he]
    exact List.rel_append hcdecl hmdecl
  · obtain ⟨hm, hs, hfd⟩ := hinits x hx
    exact ⟨by simp [hm], hs, hfd⟩

/-- A member that is added gets names for its parameters, and is left to the runtime. -/
theorem addRuntime (h : Working P base i e c) {r : Method} {ns : List Text} {position : Nat}
    {names : List Text} {m₁ m₂ : Module}
    (ho : r.owner = e.type) (hi : r.index = e.nextIndex r.isCtor) (hs : r.isCtor = true → r.isStatic = false)
    (hr : ∃ t, r.ret = some t ∧ P t) (hp : ∀ p ∈ r.params, ∃ t, p = some t ∧ Ty.Locates P t)
    (h1 : nameParams (c.module.put i (e.pushRoutine { method := r, paramNames := ns })) r position names = .ok m₁)
    (h2 : m₁.setImplementation r .runtime = .ok m₂) : ∃ ns, Working P base i
      (e.pushRoutine { method := r, paramNames := ns, impl := .runtime })
      { c with module := m₂, symbols := c.symbols.withRoutine r } := by
  obtain ⟨names, rfl⟩ := Module.nameParams_put (x := { method := r, paramNames := ns }) h.get h.shaped.index ho hi h1
  have h2 := Module.setImplementation_put (x := { method := r, paramNames := names }) h.get h.shaped.index ho hi h2
  subst h2
  exact ⟨names, h.addRoutine (x := { method := r, paramNames := names, impl := .runtime }) ho hi hs hr hp⟩

/-- The constructor of a delegate takes an object and a function pointer. -/
theorem delegateCtor (h : Working P base i e c) (hroles : Ty.Locates P base.roles.object ∧ Ty.Locates P base.roles.intPtr)
    {ctor : Method} {names : List Text} {m₁ m₂ m₃ : Module}
    (h1 : c.module.defineConstructor e.type .methods [some c.roles.object, some c.roles.intPtr] = .ok (ctor, m₁))
    (h2 : nameParams m₁ ctor 1 names = .ok m₂) (h3 : m₂.setImplementation ctor .runtime = .ok m₃) :
    ctor.isCtor = true ∧ ctor.name = Method.ctorName ∧ ctor.params = [some base.roles.object, some base.roles.intPtr] ∧
      ∃ ns, Working P base i (e.pushRoutine { method := ctor, paramNames := ns, impl := .runtime })
        { c with module := m₃, symbols := c.symbols.withRoutine ctor } := by
  obtain ⟨hc, ns, rfl⟩ := Module.defineConstructor_ok h.coherent.shaped h.get h1
  have hparams : ctor.params = [some base.roles.object, some base.roles.intPtr] := by rw [hc, ← h.roles]
  have hret : ctor.ret = some base.roles.void := by
    rw [hc, ← h.roles]
    exact h.coherent.void
  have hstatic : ctor.isStatic = false := by
    rw [hc]
    show MethodAttributes.isStatic (MethodAttributes.forConstructor .methods) = false
    decide
  refine ⟨by rw [hc], by rw [hc], hparams,
    h.addRuntime (by rw [hc]) (by rw [hc]; rfl) (fun _ => hstatic) ⟨_, hret, h.void⟩ (fun p hp => ?_) h2 h3⟩
  rw [hparams] at hp
  simp only [List.mem_cons, List.not_mem_nil, or_false] at hp
  rcases hp with rfl | rfl
  · exact ⟨_, rfl, hroles.1⟩
  · exact ⟨_, rfl, hroles.2⟩

/-- A delegate is called by a method of its signature. -/
theorem delegateInvoke (h : Working P base i e c) {ret : Ty} {params : List Ty} (hP : P ret)
    (hp : ∀ p ∈ params.map some, ∃ t, p = some t ∧ Ty.Locates P t) {invoke : Method} {names : List Text} {m₁ m₂ m₃ : Module}
    (h1 : c.module.defineMethod e.type Method.invokeName .invocations (some ret) (params.map some) = .ok (invoke, m₁))
    (h2 : nameParams m₁ invoke 1 names = .ok m₂) (h3 : m₂.setImplementation invoke .runtime = .ok m₃) :
    invoke.isCtor = false ∧ invoke.name = Method.invokeName ∧ invoke.isStatic = false ∧ invoke.params = params.map some ∧
      invoke.ret = some ret ∧ ∃ ns,
        Working P base i (e.pushRoutine { method := invoke, paramNames := ns, impl := .runtime })
        { c with module := m₃, symbols := c.symbols.withRoutine invoke } := by
  obtain ⟨hi, ns, rfl⟩ := Module.defineMethod_ok h.coherent.shaped h.get h1
  have hctor : invoke.isCtor = false := by rw [hi]
  have hstatic : invoke.isStatic = false := by
    rw [hi]
    show MethodAttributes.isStatic .invocations = false
    decide
  have hparams : invoke.params = params.map some := by rw [hi]
  have hret : invoke.ret = some ret := by rw [hi]
  exact ⟨hctor, by rw [hi], hstatic, hparams, hret,
    h.addRuntime (by rw [hi]) (by rw [hi]; rfl) (fun _ => hstatic) ⟨_, hret, hP⟩
      (fun p hmem => hp p (hparams ▸ hmem)) h2 h3⟩

theorem declareDelegate {d : DeclaredType} {dd : DelegateDecl} {D : Delegate} (h : Working P base i e c)
    (he : e.type = d.type) (hblank : e = { type := e.type, attrs := e.attrs }) (hm : d.members = [])
    (hroles : Ty.Locates P base.roles.object ∧ Ty.Locates P base.roles.intPtr)
    (hn : ∀ n ∈ dd.typeNames, base.symbols.Names P n) (hf : c.declareDelegate d.type dd = .ok (D, c')) :
    ∃ e', Working P base i e' c' ∧ DelegateMade base.roles { d with delegate := some D } e' := by
  obtain ⟨⟨ret, c₁⟩, h1, hf⟩ := bind_eq_ok.mp hf
  obtain ⟨⟨params, c₂⟩, h2, hf⟩ := bind_eq_ok.mp hf
  obtain ⟨⟨ctor, m₁⟩, h3, hf⟩ := bind_eq_ok.mp hf
  obtain ⟨m₂, h4, hf⟩ := bind_eq_ok.mp hf
  obtain ⟨m₃, h5, hf⟩ := bind_eq_ok.mp hf
  obtain ⟨⟨invoke, m₄⟩, h6, hf⟩ := bind_eq_ok.mp hf
  obtain ⟨m₅, h7, hf⟩ := bind_eq_ok.mp hf
  obtain ⟨m₆, h8, hf⟩ := bind_eq_ok.mp hf
  obtain ⟨s₁, h9, hf⟩ := bind_eq_ok.mp hf
  obtain ⟨s₂, h10, hf⟩ := bind_eq_ok.mp hf
  cases hf
  simp only [DelegateDecl.typeNames, List.mem_append] at hn
  rw [← he] at h3 h6
  obtain ⟨-, hP, h⟩ := h.lookupReturn (fun hr => hn _ (.inl (mem_optionalName hr))) h1
  obtain ⟨htypes, h⟩ := h.lookupParams (fun p hp => hn _ (.inr (List.mem_map_of_mem hp))) h2
  obtain ⟨hctor, hctorName, hctorParams, ns, w1⟩ := h.delegateCtor hroles h3 h4 h5
  rw [← e.type_pushRoutine { method := ctor, paramNames := ns, impl := .runtime }] at h6
  obtain ⟨hinvoke, hname, hstatic, hparams, hret, ns', w2⟩ := w1.delegateInvoke hP (params_of_types htypes) h6 h7 h8
  rw [Symbols.registerMethod_ok hinvoke h10, Symbols.registerConstructor_ok hctor h9]
  refine ⟨_, w2, ?_⟩
  have hpush : (e.pushRoutine { method := ctor, paramNames := ns, impl := .runtime }).pushRoutine
      { method := invoke, paramNames := ns', impl := .runtime } =
        { e with ctors := #[{ method := ctor, paramNames := ns, impl := .runtime }],
                 methods := #[{ method := invoke, paramNames := ns', impl := .runtime }] } := by
    unfold TypeDef.pushRoutine
    rw [if_neg (by show ¬invoke.isCtor = true; rw [hinvoke]; exact Bool.false_ne_true),
        if_pos (show ctor.isCtor = true from hctor),
      hblank]
    rfl
  rw [hpush]
  refine ⟨he, ?_, hm, ?_, _, _, rfl, rfl, ⟨rfl, rfl, rfl⟩, ⟨rfl, rfl, rfl⟩, hctorName, hctorParams, hname, hstatic,
      by rw [hparams, hret]⟩
  · show e.isCreated = false
    rw [hblank]
  · show e.fields = #[]
    rw [hblank]

end Compilation.Working

end CilCompiler
