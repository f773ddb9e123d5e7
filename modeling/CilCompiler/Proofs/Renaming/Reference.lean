import CilCompiler.Lowering.Reference
import CilCompiler.Proofs.Renaming.Draft
import CilCompiler.Proofs.Renaming.Names

/-! Lowering under a renaming: names, references and calls. Code that is lowered in the setting of a matching body
    fails with the same code or gives the renamed result and leaves matching work (`Lower.Agrees`). -/

namespace CilCompiler

namespace Renaming

variable (ρ : Renaming)

def roles (r : Roles) : Roles :=
  { object := ρ.ty r.object, void := ρ.ty r.void, int32 := ρ.ty r.int32, boolean := ρ.ty r.boolean,
    string := ρ.ty r.string, intPtr := ρ.ty r.intPtr, multicastDelegate := ρ.ty r.multicastDelegate }

@[simp] theorem object_roles (r : Roles) : (ρ.roles r).object = ρ.ty r.object := rfl

@[simp] theorem int32_roles (r : Roles) : (ρ.roles r).int32 = ρ.ty r.int32 := rfl

@[simp] theorem boolean_roles (r : Roles) : (ρ.roles r).boolean = ρ.ty r.boolean := rfl

@[simp] theorem string_roles (r : Roles) : (ρ.roles r).string = ρ.ty r.string := rfl

theorem roles_refl (r : Roles) : refl.roles r = r := by simp [roles]

def pushed (p : Pushed) : Pushed := { type := ρ.opt p.type, isAddress := p.isAddress }

end Renaming

/-- Settings of matching bodies. -/
structure Scope.Matched (μ : Matching) (c c' : Scope) : Prop where
  site : c.site.Matched μ c'.site
  roles : c'.roles = μ.roles c.roles
  ret : c'.ret = μ.ty c.ret
  param? : ∀ name, μ.Sees name → c'.param? name = (c.param? name).map fun p => (p.1, μ.ty p.2)
  args : ∀ name, μ.Sees name → ∀ p, c.param? name = some p → μ.Args p.1
  ctorsOf : ∀ t, c'.ctorsOf (μ.ty t) = (c.ctorsOf t).map μ.method

namespace Scope.Matched

variable {μ : Matching} {c c' : Scope} (h : c.Matched μ c')
include h

theorem owner : c'.owner = μ.ty c.owner := h.site.owner

theorem isStatic : c'.isStatic = c.isStatic := h.site.isStatic

end Scope.Matched

/-- Work on matching bodies. `K` relates what names stand for. -/
structure Work.Matched (μ : Matching) (K : Symbols → Symbols → Prop) (w w' : Work) : Prop where
  names : K w.symbols w'.symbols
  members : w.symbols.Mirrors μ w'.symbols
  draft : w'.draft = μ.draft w.draft
  locals : w'.locals = w.locals.map fun l => (l.1, μ.localSlot l.2)

theorem Work.Matched.local? {μ : Matching} {K : Symbols → Symbols → Prop} {w w' : Work} (h : w.Matched μ K w')
    (name : Text) : w'.local? name = (w.local? name).map μ.localSlot := by
  simp only [Work.local?, h.locals, List.find?_map, Function.comp_def, Option.map_map]

namespace Lower

/-- In matching settings two pieces of code agree: their results are related and the work keeps matching. -/
def Agrees (μ : Matching) (K : Symbols → Symbols → Prop) {α β : Type} (R : α → β → Prop) (x : Lower α) (x' : Lower β) :
    Prop :=
  ∀ ⦃c c' : Scope⦄ ⦃w w' : Work⦄, c.Matched μ c' → w.Matched μ K w' →
    Agree (fun r r' => R r.1 r'.1 ∧ r.2.Matched μ K r'.2) (x c w) (x' c' w')

namespace Agrees

variable {μ : Matching} {V : Text → Prop} {K : Symbols → Symbols → Prop} {α β γ δ : Type}

/-! ### Rules -/

theorem bind {R : α → β → Prop} {S : γ → δ → Prop} {x : Lower α} {x' : Lower β} {f : α → Lower γ} {f' : β → Lower δ}
    (hx : Agrees μ K R x x') (hf : ∀ a b, R a b → Agrees μ K S (f a) (f' b)) : Agrees μ K S (x >>= f) (x' >>= f') :=
  fun _ _ _ _ hc hw => (hx hc hw).bind fun _ _ h => hf _ _ h.1 hc h.2

theorem pure {R : α → β → Prop} {a : α} {b : β} (h : R a b) : Agrees μ K R (Pure.pure a) (Pure.pure b) :=
  fun _ _ _ _ _ hw => .ok ⟨h, hw⟩

theorem fail {R : α → β → Prop} {f g : Fault} (h : f.answer? = g.answer?) : Agrees μ K R (Lower.fail f) (Lower.fail g) :=
  fun _ _ _ _ _ _ => .error h

/-- One test decides both. -/
theorem ite {R : α → β → Prop} {p q : Prop} [Decidable p] [Decidable q] (hp : p ↔ q) {x y : Lower α} {x' y' : Lower β}
    (ht : p → Agrees μ K R x x') (he : ¬p → Agrees μ K R y y') :
    Agrees μ K R (if p then x else y) (if q then x' else y') := by
  by_cases h : p
  · rw [if_pos h, if_pos (hp.1 h)]
    exact ht h
  · rw [if_neg h, if_neg (mt hp.2 h)]
    exact he h

theorem read : Agrees μ K (Scope.Matched μ) (MonadReader.read : Lower Scope) MonadReader.read :=
  fun _ _ _ _ hc hw => .ok ⟨hc, hw⟩

theorem symbols : Agrees μ K (fun s s' => K s s' ∧ s.Mirrors μ s') Lower.symbols Lower.symbols :=
  fun _ _ _ _ _ hw => .ok ⟨⟨hw.names, hw.members⟩, hw⟩

theorem ofExcept {R : α → β → Prop} {x : Except Fault α} {y : Except Fault β} (h : Agree R x y) :
    Agrees μ K R (Lower.ofExcept x) (Lower.ofExcept y) :=
  fun _ _ _ _ _ hw => h.map fun _ _ hr => ⟨hr, hw⟩

theorem emit (e : Emission) (he : μ.Suits e) :
    Agrees μ K (fun _ _ => True) (Lower.emit e) (Lower.emit (μ.emission e)) := by
  intro c c' w w' hc hw
  have he := hc.site.emit w.draft e he
  rw [← hw.draft] at he
  unfold Lower.emit
  generalize w.draft.emit c.site e = x at he ⊢
  generalize w'.draft.emit c'.site (μ.emission e) = y at he ⊢
  obtain ⟨_ | _, d⟩ := x <;> obtain ⟨_ | _, d'⟩ := y <;> obtain ⟨hr, hd⟩ := he <;> cases hr
  · exact .error ‹_›
  · exact .ok ⟨trivial, hw.names, hw.members, hd, hw.locals⟩

theorem emitThis : Agrees μ K (fun _ _ => True) Lower.emitThis Lower.emitThis := emit (.arg .ldarg 0) μ.receiver

theorem lookupType (hK : μ.Naming V K) (name : Text) :
    Agrees μ K (fun t t' => t' = μ.ty t) (Lower.lookupType name) (Lower.lookupType name) := by
  intro c c' w w' _ hw
  have hl := hK.lookup name hw.names
  unfold Lower.lookupType
  generalize hx : w.symbols.lookup name = x at hl ⊢
  generalize hy : w'.symbols.lookup name = y at hl ⊢
  cases hl with
  | error h => exact .error h
  | @ok a b h =>
    have hs := Symbols.lookup_extends hx
    have hs' := Symbols.lookup_extends hy
    refine .ok ⟨h.1, h.2, ⟨fun t => ?_, fun t => ?_, fun t => ?_, fun t => ?_⟩, hw.draft, hw.locals⟩
    · rw [hs.fieldsOf, hs'.fieldsOf, hw.members.fields]
    · rw [hs.allMethods, hs'.allMethods, hw.members.methods]
    · rw [hs.ctorsOf, hs'.ctorsOf, hw.members.ctors]
    · rw [hs.delegate?, hs'.delegate?, hw.members.delegates]

theorem local? (name : Text) :
    Agrees μ K (fun l l' => l' = l.map μ.localSlot) (Lower.local? name) (Lower.local? name) :=
  fun _ _ _ _ _ hw => .ok ⟨hw.local? name, hw⟩

theorem declareLocal (name : Text) (t : Ty) :
    Agrees μ K (fun l l' => l' = μ.localSlot l) (Lower.declareLocal name t) (Lower.declareLocal name (μ.ty t)) := by
  intro c c' w w' hc hw
  have hd := hc.site.declareLocal w.draft (some t)
  rw [← hw.draft] at hd
  refine hd.map ?_
  rintro ⟨l, d⟩ _ rfl
  refine ⟨rfl, hw.names, hw.members, rfl, ?_⟩
  dsimp only
  split
  · exact hw.locals
  · rw [hw.locals, List.map_cons]

theorem defineLabel : Agrees μ K (fun l l' => l' = μ.label l) Lower.defineLabel Lower.defineLabel := by
  intro c c' w w' hc hw
  have hd := hc.site.defineLabel w.draft
  rw [← hw.draft] at hd
  refine hd.map ?_
  rintro ⟨l, d⟩ _ rfl
  exact ⟨rfl, hw.names, hw.members, rfl, hw.locals⟩

theorem markLabel (l : Label) : Agrees μ K (fun _ _ => True) (Lower.markLabel l) (Lower.markLabel (μ.label l)) := by
  intro c c' w w' hc hw
  have hd := hc.site.mark w.draft (some l)
  rw [← hw.draft] at hd
  refine hd.map ?_
  rintro d _ rfl
  exact ⟨trivial, hw.names, hw.members, rfl, hw.locals⟩

theorem requireInstance (what : Text) :
    Agrees μ K (fun _ _ => True) (Lower.requireInstance what) (Lower.requireInstance what) := by
  intro c c' w w' hc hw
  unfold Lower.requireInstance
  rw [hc.isStatic]
  exact .ite Iff.rfl (fun _ => .error rfl) fun _ => .ok ⟨trivial, hw⟩

theorem spillAddress (t : Ty) :
    Agrees μ K (fun _ _ => True) (Lower.spillAddress t) (Lower.spillAddress (μ.ty t)) := by
  refine (declareLocal .empty t).bind ?_
  rintro l _ rfl
  exact (emit (.local .stloc (some l)) trivial).bind fun _ _ _ => emit (.local .ldloca (some l)) trivial

theorem expect (dst src : Option Ty) (what : Text) :
    Agrees μ K (fun _ _ => True) (Lower.expect dst src what) (Lower.expect (μ.opt dst) (μ.opt src) what) := by
  unfold Lower.expect
  rw [Renaming.isVoidOpt_opt, Renaming.accepts_opt]
  exact .ite Iff.rfl (fun _ => .fail rfl) fun _ => .ite Iff.rfl (fun _ => .pure trivial) fun _ => .fail rfl

/-! ### Fields and types -/

theorem fieldAlong (t : Ty) (name : Text) :
    Agrees μ K (Agree fun f f' => f' = μ.field f) (Lower.fieldAlong t name) (Lower.fieldAlong (μ.ty t) name) := by
  intro c c' w w' hc hw
  refine .ok ⟨?_, hw⟩
  rw [hc.roles]
  exact hw.members.fieldAlong c.roles.object t name

theorem typeTarget (hK : μ.Naming V K) {e : Expr} (he : ∀ n, e = .ident n → V n) :
    Agrees μ K (fun t t' => t' = μ.opt t) (Lower.typeTarget e) (Lower.typeTarget e) := by
  cases e with
  | ident n => exact symbols.bind fun s s' hs => .pure (hK.entered hs.1 (he n rfl))
  | _ => exact .pure rfl

theorem loadField (f : Field) (called : Bool) :
    Agrees μ K (fun p p' => p' = μ.pushed p) (Lower.loadField f called) (Lower.loadField (μ.field f) called) := by
  have haddr : (called && (μ.field f).type.any Ty.isValue) = (called && f.type.any Ty.isValue) := by
    rw [Renaming.type_field]
    cases f.type <;> simp
  unfold Lower.loadField
  simp only [haddr, Renaming.isStatic_field]
  exact (emit (.field _ f) trivial).bind fun _ _ _ => .pure rfl

theorem receiver {operand operand' : Lower Pushed} (ho : Agrees μ K (fun p p' => p' = μ.pushed p) operand operand')
    (member : Text) :
    Agrees μ K (fun r r' => r' = (μ.ty r.1, r.2)) (Lower.receiver operand member) (Lower.receiver operand' member) := by
  refine ho.bind ?_
  rintro ⟨t, a⟩ _ rfl
  cases t with
  | none => exact .fail rfl
  | some t =>
    simp only [Renaming.pushed, Renaming.opt_some, Renaming.isVoid_ty]
    exact .ite Iff.rfl (fun _ => .fail rfl) fun _ => .pure rfl

/-! ### Methods as delegates -/

theorem delegateType (hK : μ.Naming V K) (hint : Option Ty) (spelling name : Text) :
    Agrees μ K (fun r r' => r' = (μ.ty r.1, μ.delegate r.2)) (Lower.delegateType hint spelling name)
      (Lower.delegateType (μ.opt hint) spelling name) := by
  refine .ite Iff.rfl (fun _ => ?_) fun _ => ?_
  · rw [pure_bind, pure_bind]
    cases hint with
    | none => exact .fail rfl
    | some t =>
      refine symbols.bind fun s s' hs => ?_
      rw [← Renaming.opt_some, hs.2.delegates]
      cases s.delegate? (some t) with
      | none => exact .fail rfl
      | some d => exact .pure rfl
  · rw [map_eq_pure_bind, bind_assoc]
    refine (lookupType hK spelling).bind ?_
    rintro t _ rfl
    rw [pure_bind, pure_bind]
    refine symbols.bind fun s s' hs => ?_
    rw [← Renaming.opt_some, hs.2.delegates]
    cases s.delegate? (some t) with
    | none => exact .fail rfl
    | some d => exact .pure rfl

theorem delegateTarget (t : Ty) (name : Text) (only : Option Bool) (dt : Ty) (d : Delegate) :
    Agrees μ K (fun m m' => m' = μ.method m) (Lower.delegateTarget t name only dt d)
      (Lower.delegateTarget (μ.ty t) name only (μ.ty dt) (μ.delegate d)) := by
  refine symbols.bind fun s s' hs => read.bind fun c c' hc => .ofExcept ?_
  rw [hc.roles]
  exact hs.2.delegateTarget c.roles.object t name only d dt (μ.ty dt)

theorem staticFunction (m : Method) :
    Agrees μ K (fun _ _ => True) (Lower.staticFunction m) (Lower.staticFunction (μ.method m)) :=
  (emit (.plain .ldnull) trivial).bind fun _ _ _ => emit (.method .ldftn m) trivial

theorem boundFunction (recv : Ty) (m : Method) :
    Agrees μ K (fun _ _ => True) (Lower.boundFunction recv m) (Lower.boundFunction (μ.ty recv) (μ.method m)) := by
  have hload : Agrees μ K (fun _ _ => True)
      (do Lower.emit (.plain .dup); Lower.emit (.method .ldvirtftn m))
      (do Lower.emit (.plain .dup); Lower.emit (.method .ldvirtftn (μ.method m))) :=
    (emit (.plain .dup) trivial).bind fun _ _ _ => emit (.method .ldvirtftn m) trivial
  unfold Lower.boundFunction
  rw [Renaming.isValue_ty]
  split
  · exact (emit (.type .box (some recv)) trivial).bind fun _ _ _ => hload
  · exact hload

theorem makeDelegate (dt : Ty) (d : Delegate) :
    Agrees μ K (fun p p' => p' = μ.pushed p) (Lower.makeDelegate dt d) (Lower.makeDelegate (μ.ty dt) (μ.delegate d)) :=
  (emit (.ctor .newobj d.ctor) trivial).bind fun _ _ _ => .pure rfl

theorem ownReference (name : Text) (dt : Ty) (d : Delegate) :
    Agrees μ K (fun p p' => p' = μ.pushed p) (Lower.ownReference name dt d)
      (Lower.ownReference name (μ.ty dt) (μ.delegate d)) := by
  refine read.bind fun c c' hc => ?_
  rw [hc.owner, hc.isStatic]
  refine (delegateTarget c.owner name _ dt d).bind ?_
  rintro m _ rfl
  refine .ite Iff.rfl (fun _ => ?_) fun _ => ?_
  · exact (staticFunction m).bind fun _ _ _ => makeDelegate dt d
  · exact emitThis.bind fun _ _ _ => (boundFunction c.owner m).bind fun _ _ _ => makeDelegate dt d

theorem typeReference (t : Ty) (name : Text) (dt : Ty) (d : Delegate) :
    Agrees μ K (fun p p' => p' = μ.pushed p) (Lower.typeReference t name dt d)
      (Lower.typeReference (μ.ty t) name (μ.ty dt) (μ.delegate d)) := by
  refine (delegateTarget t name (some true) dt d).bind ?_
  rintro m _ rfl
  exact (staticFunction m).bind fun _ _ _ => makeDelegate dt d

theorem boundReference (recv : Ty) (name : Text) (dt : Ty) (d : Delegate) :
    Agrees μ K (fun p p' => p' = μ.pushed p) (Lower.boundReference recv name dt d)
      (Lower.boundReference (μ.ty recv) name (μ.ty dt) (μ.delegate d)) := by
  refine (delegateTarget recv name (some false) dt d).bind ?_
  rintro m _ rfl
  exact (boundFunction recv m).bind fun _ _ _ => makeDelegate dt d

theorem reference (hK : μ.Naming V K) {target : Expr} (ht : ∀ n, target = .ident n → V n)
    {operand operand' : Lower Pushed} (ho : Agrees μ K (fun p p' => p' = μ.pushed p) operand operand')
    (name spelling : Text) (hint : Option Ty) :
    Agrees μ K (fun p p' => p' = μ.pushed p) (Lower.reference target operand name spelling hint)
      (Lower.reference target operand' name spelling (μ.opt hint)) := by
  refine (delegateType hK hint spelling name).bind ?_
  rintro ⟨dt, d⟩ _ rfl
  refine .ite Iff.rfl (fun _ => ownReference name dt d) fun _ => (typeTarget hK ht).bind ?_
  rintro t _ rfl
  cases t with
  | some t => exact typeReference t name dt d
  | none =>
    refine (receiver ho name).bind ?_
    rintro ⟨t, a⟩ _ rfl
    exact boundReference t name dt d

theorem ident (hK : μ.Naming V K) {name : Text} (hn : μ.Sees name) (hint : Option Ty) (called : Bool) :
    Agrees μ K (fun p p' => p' = μ.pushed p) (Lower.ident name hint called) (Lower.ident name (μ.opt hint) called) := by
  refine read.bind fun c c' hc => (local? name).bind ?_
  rintro l _ rfl
  cases l with
  | some l =>
    simp only [Option.map_some, Matching.localSlot, Renaming.isValue_ty]
    refine .ite Iff.rfl (fun _ => ?_) fun _ => ?_
    · exact (emit (.local .ldloca (some l)) trivial).bind fun _ _ _ => .pure rfl
    · exact (emit (.local .ldloc (some l)) trivial).bind fun _ _ _ => .pure rfl
  | none =>
    simp only [Option.map_none, hc.param? name hn]
    cases hp : c.param? name with
    | some p =>
      have hargs := hc.args name hn p hp
      obtain ⟨index, t⟩ := p
      simp only [Option.map_some, Renaming.isValue_ty]
      refine .ite Iff.rfl (fun _ => ?_) fun _ => ?_
      · exact (emit (.arg .ldarga index) hargs).bind fun _ _ _ => .pure rfl
      · exact (emit (.arg .ldarg index) hargs).bind fun _ _ _ => .pure rfl
    | none =>
      simp only [Option.map_none, hc.owner]
      refine (fieldAlong c.owner name).bind fun f f' hf => ?_
      cases hf with
      | @ok f f' hf =>
        subst hf
        simp only [Renaming.isStatic_field]
        refine .ite Iff.rfl (fun _ => ?_) fun _ => loadField f called
        exact (requireInstance _).bind fun _ _ _ => emitThis.bind fun _ _ _ => loadField f called
      | error _ =>
        refine symbols.bind fun s s' hs => ?_
        simp only [hs.2.methodsOf, List.isEmpty_map]
        refine .ite Iff.rfl (fun _ => .fail rfl) fun _ => (delegateType hK hint .empty name).bind ?_
        rintro ⟨dt, d⟩ _ rfl
        exact ownReference name dt d

/-! ### Calls -/

theorem resolve (t : Ty) (name : Text) (args : List (Option Ty)) (isStatic : Bool) :
    Agrees μ K (fun m m' => m' = μ.method m) (Lower.resolve t name args isStatic)
      (Lower.resolve (μ.ty t) name (args.map μ.opt) isStatic) := by
  refine symbols.bind fun s s' hs => read.bind fun c c' hc => .ofExcept ?_
  rw [hc.roles]
  exact hs.2.resolve c.roles.object t name args isStatic

theorem hintsFor (t : Ty) (name : Text) (isStatic : Bool) (arity : Nat) :
    Agrees μ K (fun ts ts' => ts' = ts.map μ.opt) (Lower.hintsFor t name isStatic arity)
      (Lower.hintsFor (μ.ty t) name isStatic arity) := by
  refine symbols.bind fun s s' hs => read.bind fun c c' hc => .pure ?_
  rw [hc.roles, ← Renaming.hints_map, ← hs.2.candidates]
  rfl

/-- Code for the arguments of a call agrees, whatever they can be. -/
structure Arguments (μ : Matching) (K : Symbols → Symbols → Prop) (args args' : Lower.Arguments) : Prop where
  count : args'.count = args.count
  push : ∀ hints, Agrees μ K (fun ts ts' => ts' = ts.map μ.opt) (args.push hints) (args'.push (hints.map μ.opt))

section Call

variable {args args' : Lower.Arguments} (ha : Arguments μ K args args')
include ha

theorem callStatic (t : Ty) (name : Text) (hints : List (Option Ty)) :
    Agrees μ K (fun p p' => p' = μ.pushed p) (Lower.callStatic t name hints args)
      (Lower.callStatic (μ.ty t) name (hints.map μ.opt) args') := by
  refine (ha.push hints).bind ?_
  rintro types _ rfl
  refine (resolve t name types true).bind ?_
  rintro m _ rfl
  exact (emit (.method .call m) trivial).bind fun _ _ _ => .pure rfl

theorem callInstance (recv : Ty) (isAddress : Bool) (name : Text) :
    Agrees μ K (fun p p' => p' = μ.pushed p) (Lower.callInstance recv isAddress name args)
      (Lower.callInstance (μ.ty recv) isAddress name args') := by
  have hcall : Agrees μ K (fun p p' => p' = μ.pushed p)
      (do
        let types ← args.push (← Lower.hintsFor recv name false args.count)
        let m ← Lower.resolve recv name types false
        Lower.emit (.method (Lower.callOp recv) m)
        return { type := m.ret : Pushed })
      (do
        let types ← args'.push (← Lower.hintsFor (μ.ty recv) name false args'.count)
        let m ← Lower.resolve (μ.ty recv) name types false
        Lower.emit (.method (Lower.callOp (μ.ty recv)) m)
        return { type := m.ret : Pushed }) := by
    rw [ha.count]
    refine (hintsFor recv name false args.count).bind ?_
    rintro hints _ rfl
    refine (ha.push hints).bind ?_
    rintro types _ rfl
    refine (resolve recv name types false).bind ?_
    rintro m _ rfl
    rw [Lower.callOp, Lower.callOp, Renaming.isValue_ty]
    exact (emit (.method _ m) trivial).bind fun _ _ _ => .pure rfl
  unfold Lower.callInstance
  rw [Renaming.isValue_ty]
  split
  · exact (spillAddress recv).bind fun _ _ _ => hcall
  · exact hcall

end Call

theorem callGetter (recv : Ty) (isAddress : Bool) (m : Method) :
    Agrees μ K (fun p p' => p' = μ.pushed p) (Lower.callGetter recv isAddress m)
      (Lower.callGetter (μ.ty recv) isAddress (μ.method m)) := by
  have hcall : Agrees μ K (fun p p' => p' = μ.pushed p)
      (do
        Lower.emit (.method (Lower.callOp recv) m)
        return { type := m.ret : Pushed })
      (do
        Lower.emit (.method (Lower.callOp (μ.ty recv)) (μ.method m))
        return { type := (μ.method m).ret : Pushed }) := by
    rw [Lower.callOp, Lower.callOp, Renaming.isValue_ty]
    exact (emit (.method _ m) trivial).bind fun _ _ _ => .pure rfl
  unfold Lower.callGetter
  rw [Renaming.isValue_ty]
  split
  · exact (spillAddress recv).bind fun _ _ _ => hcall
  · exact hcall

theorem isDelegateVariable {name : Text} (hn : μ.Sees name) :
    Agrees μ K Eq (Lower.isDelegateVariable name) (Lower.isDelegateVariable name) := by
  refine (local? name).bind ?_
  rintro l _ rfl
  cases l with
  | some l => exact .pure (μ.isDelegate_ty l.type).symm
  | none =>
    refine read.bind fun c c' hc => ?_
    rw [hc.param? name hn]
    cases c.param? name with
    | some p => exact .pure (μ.isDelegate_ty p.2).symm
    | none =>
      refine read.bind fun c c' hc => ?_
      rw [hc.owner]
      refine (fieldAlong c.owner name).bind fun f f' hf => ?_
      cases hf with
      | @ok f f' hf =>
        subst hf
        refine .pure ?_
        rw [Renaming.type_field]
        cases f.type <;> simp
      | error _ => exact .pure rfl

theorem spillArguments (name : Text) (position : Nat) (types : List (Option Ty)) :
    Agrees μ K (fun ls ls' => ls' = ls.map μ.localSlot) (Lower.spillArguments name position types)
      (Lower.spillArguments name position (types.map μ.opt)) := by
  induction types generalizing position with
  | nil => exact .pure rfl
  | cons t rest ih =>
    cases t with
    | none => exact .fail rfl
    | some t =>
      refine (declareLocal .empty t).bind ?_
      rintro l _ rfl
      refine (emit (.local .stloc (some l)) trivial).bind fun _ _ _ => (ih (position - 1)).bind ?_
      rintro ls _ rfl
      exact .pure (by simp)

/-- A loop over renamed elements. -/
theorem forIn {g : α → β} {f : α → Lower PUnit} {f' : β → Lower PUnit}
    {as : List α} (hf : ∀ a ∈ as, Agrees μ K (fun _ _ => True) (f a) (f' (g a))) :
    Agrees μ K (fun _ _ => True)
      (ForIn.forIn as PUnit.unit fun a _ => do f a; Pure.pure (ForInStep.yield PUnit.unit))
      (ForIn.forIn (as.map g) PUnit.unit fun b _ => do f' b; Pure.pure (ForInStep.yield PUnit.unit)) := by
  induction as with
  | nil => exact .pure trivial
  | cons a as ih =>
    simp only [List.map_cons, List.forIn_cons, bind_assoc, pure_bind]
    exact (hf a List.mem_cons_self).bind fun _ _ _ => ih fun b hb => hf b (List.mem_cons_of_mem a hb)

theorem callMixed (name : Text) {args args' : Lower.Arguments} (ha : Arguments μ K args args') :
    Agrees μ K (fun p p' => p' = μ.pushed p) (Lower.callMixed name args) (Lower.callMixed name args') := by
  refine (ha.push []).bind ?_
  rintro types _ rfl
  simp only [List.length_map, ← List.map_reverse]
  refine (spillArguments name types.length types.reverse).bind ?_
  rintro temps _ rfl
  refine read.bind fun c c' hc => symbols.bind fun s s' hs => ?_
  simp only [hc.owner, hs.2.methodsOf, List.find?_map, Function.comp_def, Renaming.params_method, Renaming.sameList_map]
  cases (s.methodsOf c.owner name).find? _ with
  | none => exact .fail rfl
  | some m =>
    have hcall : Agrees μ K (fun p p' => p' = μ.pushed p)
        (do
          for l in temps do Lower.emit (.local .ldloc (some l))
          Lower.emit (.method (if m.isStatic then .call else Lower.callOp c.owner) m)
          return { type := m.ret : Pushed })
        (do
          for l in temps.map μ.localSlot do Lower.emit (.local .ldloc (some l))
          Lower.emit (.method (if m.isStatic then .call else Lower.callOp (μ.ty c.owner)) (μ.method m))
          return { type := (μ.method m).ret : Pushed }) := by
      rw [Lower.callOp, Lower.callOp, Renaming.isValue_ty]
      refine Agrees.bind (R := fun _ _ => True) ?_ fun _ _ _ => (emit (.method _ m) trivial).bind fun _ _ _ => .pure rfl
      exact forIn (g := μ.localSlot) fun l _ => emit (.local .ldloc (some l)) trivial
    simp only [Option.map_some, Renaming.isStatic_method]
    exact .ite Iff.rfl (fun _ => emitThis.bind fun _ _ _ => hcall) fun _ => hcall

theorem callOwn (hK : μ.Naming V K) {name : Text} (hn : μ.Sees name) {args args' : Lower.Arguments}
    (ha : Arguments μ K args args') :
    Agrees μ K (fun p p' => p' = μ.pushed p) (Lower.callOwn name args) (Lower.callOwn name args') := by
  refine read.bind fun c c' hc => (isDelegateVariable hn).bind ?_
  rintro b _ rfl
  refine .ite Iff.rfl (fun _ => (ident hK hn none false).bind ?_) fun _ => symbols.bind fun s s' hs => ?_
  · rintro ⟨t, a⟩ _ rfl
    cases t with
    | none => exact .fail rfl
    | some t => exact callInstance ha t a Method.invokeName
  · simp only [hc.owner, hc.isStatic, hs.2.methodsOf, ha.count, List.isEmpty_map, List.filter_map, Function.comp_def,
      Renaming.params_method, List.length_map, Renaming.isStatic_method]
    refine .ite Iff.rfl (fun _ => .fail rfl) fun _ => .ite Iff.rfl (fun _ => .fail rfl) fun _ => ?_
    refine .ite Iff.rfl (fun _ => ?_) fun _ => .ite Iff.rfl (fun _ => ?_) fun _ => callMixed name ha
    · rw [Renaming.hints_map]
      exact callStatic ha c.owner name _
    · exact emitThis.bind fun _ _ _ => callInstance ha c.owner false name

end Agrees
end Lower
end CilCompiler
