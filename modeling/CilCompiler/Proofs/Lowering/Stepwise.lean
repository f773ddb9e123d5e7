import CilCompiler.Lowering.Stmt
import CilCompiler.Proofs.Renaming.Names
import CilCompiler.Proofs.Typed.Work

/-! What lowering does step by step. All that lowering does for an expression is made of a few steps: looking at what
    is known, entering an array type, moving the value on the stack into a new temporary, taking a method of the
    object on the stack, and recording an instruction that goes on to the next one. What holds of these steps and is
    kept by putting them together holds of expressions (`Expressive.expr`). Statements that are no loops and no
    choices also add locals, and record other instructions without labels (`Ongoing`), of which only a return does not
    go on (`Stepwise`). A relation between works that is reflexive and transitive is kept if the steps keep it. What
    is kept by the steps that have to do with labels, too, is kept by every statement (`Labelwise.stmt`). One such
    relation is that lowering goes on: code is only added, and so are array types, which changes the meaning of no
    name (`Work.Onward`). -/

namespace CilCompiler

/-- Whether an emission is of a branch. -/
def Emission.hasLabel : Emission → Bool
  | .label .. => true
  | _ => false

/-- Whether an emission is of a call of a constructor on an object that is there. -/
def Emission.callsCtor : Emission → Bool
  | .ctor .call _ => true
  | _ => false

/-- Whether an emission is of an instruction as expressions have them, other than taking a method of an object: it
    goes on to the next one, stores to no local and no argument, and calls no constructor on an object that is there.
    -/
def Emission.isInner (e : Emission) : Bool :=
  !e.hasLabel && !e.callsCtor && !e.long.op.isBranch && e.long.op != .ret && e.long.op != .stloc && e.long.op != .starg &&
    e.long.op != .ldvirtftn

/-- Whether an emission is of an instruction without a label that is no return and takes no method of an object. -/
def Emission.goesOn (e : Emission) : Bool := !e.hasLabel && e.long.op != .ret && e.long.op != .ldvirtftn

/-- Takes a method of the object on the stack, and leaves the object there. -/
def Lower.take (m : Method) : Lower Unit := do
  emit (.plain .dup)
  emit (.method .ldvirtftn m)

/-- Moves the value on top of the stack into a new temporary. -/
def Lower.spill (t : Ty) : Lower LocalSlot := do
  let l ← declareLocal .empty t
  emit (.local .stloc (some l))
  return l

/-- Code that comes to an end has kept a relation. -/
def Lower.Keeps (R : Work → Work → Prop) {α : Type} (x : Lower α) : Prop :=
  ∀ ⦃c : Scope⦄ ⦃w w' : Work⦄ ⦃a : α⦄, x c w = .ok (a, w') → R w w'

/-- Whether a statement is a loop or a choice. -/
def Stmt.branches : Stmt → Bool
  | .while .. | .if .. => true
  | .return _ | .local .. | .assign .. | .expr _ | .baseCall => false

/-- Whether a statement is a return. -/
def Stmt.returns : Stmt → Bool
  | .return _ => true
  | .local .. | .assign .. | .expr _ | .baseCall | .while .. | .if .. => false

/-- The same place in a module of another kind. -/
def Site.on (s : Site) (b : Backend) : Site := { s with backend := b }

def Scope.on (c : Scope) (b : Backend) : Scope := { c with site := c.site.on b }

/-- A property of lowering that the steps of expressions have, and what is put together from them. -/
structure Expressive (K : ∀ {α : Type}, Lower α → Prop) : Prop where
  pure : ∀ {α : Type} (a : α), K (Pure.pure a)
  bind : ∀ {α β : Type} {x : Lower α} {f : α → Lower β}, K x → (∀ a, K (f a)) → K (x >>= f)
  fail : ∀ {α : Type} (f : Fault), K (Lower.fail f : Lower α)
  /-- What is known of the body may be looked at, but for the kind of its module. -/
  read : ∀ {α : Type} {f : Scope → Lower α}, (∀ c b, f (c.on b) = f c) → (∀ c, K (f c)) → K (MonadReader.read >>= f)
  symbols : K Lower.symbols
  local? : ∀ name, K (Lower.local? name)
  lookupType : ∀ name, K (Lower.lookupType name)
  spill : ∀ t, K (Lower.spill t)
  emit : ∀ {e : Emission}, e.isInner = true → K (Lower.emit e)
  take : ∀ m, K (Lower.take m)

/-- A property that other steps have as well, those with labels and returns apart. -/
structure Ongoing (K : ∀ {α : Type}, Lower α → Prop) : Prop extends Expressive K where
  declareLocal : ∀ name t, K (Lower.declareLocal name t)
  record : ∀ {e : Emission}, e.goesOn = true → K (Lower.emit e)

/-- A property that all steps without labels have. -/
structure Stepwise (K : ∀ {α : Type}, Lower α → Prop) : Prop extends Ongoing K where
  leave : K (Lower.emit (.plain .ret))

theorem Lower.isInner_callOp (t : Ty) (m : Method) : (Emission.method (callOp t) m).isInner = true := by
  unfold callOp
  split <;> rfl

theorem Lower.isInner_arithmetic (op : BinaryOp) : (Emission.plain (arithmetic op)).isInner = true := by
  cases op <;> rfl

namespace Lower.Keeps
variable {R : Work → Work → Prop} (refl : ∀ w, R w w) (trans : ∀ {w w₁ w₂ : Work}, R w w₁ → R w₁ w₂ → R w w₂)
  (lookupType : ∀ name, (Lower.lookupType name).Keeps R)
include refl trans lookupType

/-- A relation that the steps of expressions keep. -/
theorem expressive (spill : ∀ t, (Lower.spill t).Keeps R)
    (emit : ∀ {e : Emission}, e.isInner = true → (Lower.emit e).Keeps R)
    (take : ∀ m, (Lower.take m).Keeps R) : Expressive (@Lower.Keeps R) where
  pure a := by
    intro c w w' b h
    obtain ⟨-, rfl⟩ := Lower.pure_ok.mp h
    exact refl _
  bind hx hf := by
    intro c w w' b h
    obtain ⟨a, w₁, h1, h2⟩ := Lower.bind_ok.mp h
    exact trans (hx h1) (hf a h2)
  fail f := by
    intro c w w' b h
    cases h
  read _ hf := by
    intro c w w' a h
    obtain ⟨_, _, ⟨rfl, rfl⟩, h⟩ := Lower.bind_ok.mp h
    exact hf _ h
  symbols := by
    intro c w w' a h
    obtain ⟨-, rfl⟩ := Lower.symbols_ok.mp h
    exact refl _
  local? name := by
    intro c w w' a h
    obtain ⟨-, rfl⟩ := Lower.local?_ok.mp h
    exact refl _
  lookupType := lookupType
  spill := spill
  emit := emit
  take := take

/-- A relation that the steps without labels keep, returns apart. -/
theorem ongoing (declareLocal : ∀ name t, (Lower.declareLocal name t).Keeps R)
    (emit : ∀ {e : Emission}, e.goesOn = true → (Lower.emit e).Keeps R) (take : ∀ m, (Lower.take m).Keeps R) :
    Ongoing (@Lower.Keeps R) where
  toExpressive := by
    refine expressive refl trans lookupType (fun t c w w' l h => ?_) (fun {e} he => emit ?_) take
    · obtain ⟨l, w₁, h1, h⟩ := Lower.bind_ok.mp h
      obtain ⟨_, w₂, h2, h⟩ := Lower.bind_ok.mp h
      obtain ⟨-, rfl⟩ := Lower.pure_ok.mp h
      exact trans (declareLocal _ _ h1) (emit rfl h2)
    · simp only [Emission.isInner, Bool.and_eq_true] at he
      simp only [Emission.goesOn, Bool.and_eq_true]
      exact ⟨⟨he.1.1.1.1.1.1, he.1.1.1.2⟩, he.2⟩
  declareLocal := declareLocal
  record := emit

/-- A relation that the steps without labels keep. -/
theorem stepwise (declareLocal : ∀ name t, (Lower.declareLocal name t).Keeps R)
    (emit : ∀ {e : Emission}, e.hasLabel = false → (Lower.emit e).Keeps R) : Stepwise (@Lower.Keeps R) where
  toOngoing := by
    refine ongoing refl trans lookupType declareLocal (fun he => emit ?_) fun m c w w' u h => ?_
    · simp only [Emission.goesOn, Bool.and_eq_true, Bool.not_eq_true'] at he
      exact he.1.1
    · obtain ⟨_, w₁, h1, h2⟩ := Lower.bind_ok.mp h
      exact trans (emit rfl h1) (emit rfl h2)
  leave := emit rfl

end Lower.Keeps

namespace Expressive

variable {K : ∀ {α : Type}, Lower α → Prop} {α β : Type}

/-! ### Rules -/

theorem ite (_ : Expressive K) {p : Prop} [Decidable p] {x y : Lower α} (hx : K x) (hy : K y) : K (if p then x else y) := by
  split
  · exact hx
  · exact hy

section Rules

variable (hR : Expressive K)
include hR

theorem map {x : Lower α} (hx : K x) (f : α → β) : K (f <$> x) := by
  rw [map_eq_pure_bind]
  exact hR.bind hx fun _ => hR.pure _

theorem fieldAlong (t : Ty) (name : Text) : K (Lower.fieldAlong t name) :=
  hR.bind hR.symbols fun s => hR.read (fun _ _ => rfl) fun c => hR.pure (s.fieldAlong c.roles.object t name)

theorem ofExcept (x : Except Fault α) : K (Lower.ofExcept x) := by
  cases x with
  | ok a => exact hR.pure a
  | error f => exact hR.fail f

theorem requireInstance (what : Text) : K (Lower.requireInstance what) := by
  have checks : Lower.requireInstance what = (do
      let c ← MonadReader.read
      if c.isStatic then Lower.fail (.shape (.instanceInStatic what c.memberName)) else Pure.pure ()) := by
    funext c w
    show (if c.isStatic then _ else _) = (if c.isStatic then _ else _ : Lower Unit) c w
    split <;> rfl
  rw [checks]
  exact hR.read (fun _ _ => rfl) fun c => hR.ite (hR.fail _) (hR.pure _)

theorem expect (dst src : Option Ty) (what : Text) : K (Lower.expect dst src what) :=
  hR.ite (hR.fail _) (hR.ite (hR.pure _) (hR.fail _))

theorem emitThis : K Lower.emitThis := hR.emit rfl

theorem spillAddress (t : Ty) : K (Lower.spillAddress t) := by
  have spills : Lower.spillAddress t = Lower.spill t >>= fun l => Lower.emit (.local .ldloca (some l)) := by
    simp only [Lower.spillAddress, Lower.spill, bind_assoc, pure_bind]
  rw [spills]
  exact hR.bind (hR.spill t) fun _ => hR.emit rfl

theorem forIn {f : β → Lower Unit} (l : List β) (h : ∀ b, K (f b)) :
    K (forIn l PUnit.unit fun b _ => do
      f b
      Pure.pure (ForInStep.yield PUnit.unit) : Lower PUnit) := by
  induction l with
  | nil =>
    rw [List.forIn_nil]
    exact hR.pure _
  | cons b l ih =>
    rw [List.forIn_cons, bind_assoc]
    refine hR.bind (h b) fun _ => ?_
    rw [pure_bind]
    exact ih

/-! ### Names and references -/

theorem typeTarget (e : Expr) : K (Lower.typeTarget e) := by
  cases e with
  | ident n => exact hR.bind hR.symbols fun _ => hR.pure _
  | _ => exact hR.pure _

theorem loadField (f : Field) (called : Bool) : K (Lower.loadField f called) :=
  hR.bind (hR.emit (by cases f.isStatic <;> cases called && f.type.any Ty.isValue <;> rfl)) fun _ => hR.pure _

theorem receiver {operand : Lower Pushed} (ho : K operand) (member : Text) : K (Lower.receiver operand member) := by
  refine hR.bind ho fun v => ?_
  cases v.type with
  | none => exact hR.fail _
  | some t => exact hR.ite (hR.fail _) (hR.pure _)

theorem delegateType (hint : Option Ty) (spelling name : Text) : K (Lower.delegateType hint spelling name) := by
  refine hR.ite (hR.bind (hR.pure _) ?_) (hR.bind (hR.map (hR.lookupType _) _) ?_)
  -- Whichever way the type is found, it must be a delegate's.
  all_goals
    intro wanted
    cases wanted with
    | none => exact hR.fail _
    | some t =>
      refine hR.bind hR.symbols fun s => ?_
      cases s.delegate? (some t) with
      | none => exact hR.fail _
      | some d => exact hR.pure _

theorem delegateTarget (t : Ty) (name : Text) (only : Option Bool) (dt : Ty) (d : Delegate) :
    K (Lower.delegateTarget t name only dt d) :=
  hR.bind hR.symbols fun _ => hR.read (fun _ _ => rfl) fun _ => hR.ofExcept _

theorem staticFunction (m : Method) : K (Lower.staticFunction m) := hR.bind (hR.emit rfl) fun _ => hR.emit rfl

theorem boundFunction (recv : Ty) (m : Method) : K (Lower.boundFunction recv m) :=
  hR.ite (hR.bind (hR.emit rfl) fun _ => hR.take m) (hR.take m)

theorem makeDelegate (dt : Ty) (d : Delegate) : K (Lower.makeDelegate dt d) := hR.bind (hR.emit rfl) fun _ => hR.pure _

theorem ownReference (name : Text) (dt : Ty) (d : Delegate) : K (Lower.ownReference name dt d) := by
  refine hR.read (fun _ _ => rfl) fun c => hR.bind (hR.delegateTarget ..) fun m => hR.ite ?_ ?_
  · exact hR.bind (hR.staticFunction m) fun _ => hR.makeDelegate dt d
  · exact hR.bind hR.emitThis fun _ => hR.bind (hR.boundFunction _ m) fun _ => hR.makeDelegate dt d

theorem typeReference (t : Ty) (name : Text) (dt : Ty) (d : Delegate) : K (Lower.typeReference t name dt d) :=
  hR.bind (hR.delegateTarget ..) fun m => hR.bind (hR.staticFunction m) fun _ => hR.makeDelegate dt d

theorem boundReference (recv : Ty) (name : Text) (dt : Ty) (d : Delegate) : K (Lower.boundReference recv name dt d) :=
  hR.bind (hR.delegateTarget ..) fun m => hR.bind (hR.boundFunction recv m) fun _ => hR.makeDelegate dt d

theorem reference (target : Expr) {operand : Lower Pushed} (ho : K operand) (name spelling : Text) (hint : Option Ty) :
    K (Lower.reference target operand name spelling hint) := by
  refine hR.bind (hR.delegateType ..) fun r => hR.ite (hR.ownReference ..) (hR.bind (hR.typeTarget target) fun t => ?_)
  cases t with
  | some t => exact hR.typeReference ..
  | none => exact hR.bind (hR.receiver ho name) fun v => hR.boundReference ..

theorem ident (name : Text) (hint : Option Ty) (called : Bool) : K (Lower.ident name hint called) := by
  refine hR.read (fun _ _ => rfl) fun c => hR.bind (hR.local? name) fun l => ?_
  cases l with
  | some l => exact hR.ite (hR.bind (hR.emit rfl) fun _ => hR.pure _) (hR.bind (hR.emit rfl) fun _ => hR.pure _)
  | none =>
    dsimp only
    cases c.param? name with
    | some p => exact hR.ite (hR.bind (hR.emit rfl) fun _ => hR.pure _) (hR.bind (hR.emit rfl) fun _ => hR.pure _)
    | none =>
      refine hR.bind (hR.fieldAlong c.owner name) fun f => ?_
      cases f with
      | ok f =>
        exact hR.ite (hR.bind (hR.requireInstance _) fun _ => hR.bind hR.emitThis fun _ => hR.loadField f called)
            (hR.loadField f called)
      | error _ =>
        refine hR.bind hR.symbols fun s => hR.ite (hR.fail _) ?_
        exact hR.bind (hR.delegateType ..) fun r => hR.ownReference ..

/-! ### Calls -/

theorem resolve (t : Ty) (name : Text) (args : List (Option Ty)) (isStatic : Bool) :
    K (Lower.resolve t name args isStatic) :=
  hR.bind hR.symbols fun _ => hR.read (fun _ _ => rfl) fun _ => hR.ofExcept _

theorem hintsFor (t : Ty) (name : Text) (isStatic : Bool) (arity : Nat) : K (Lower.hintsFor t name isStatic arity) :=
  hR.bind hR.symbols fun _ => hR.read (fun _ _ => rfl) fun _ => hR.pure _

theorem isDelegateVariable (name : Text) : K (Lower.isDelegateVariable name) := by
  refine hR.bind (hR.local? name) fun l => ?_
  cases l with
  | some l => exact hR.pure _
  | none =>
    refine hR.read (fun _ _ => rfl) fun c => ?_
    cases c.param? name with
    | some p => exact hR.pure _
    | none =>
      refine hR.read (fun _ _ => rfl) fun c => hR.bind (hR.fieldAlong c.owner name) fun f => ?_
      cases f with
      | ok f => exact hR.pure _
      | error _ => exact hR.pure _

theorem callGetter (recv : Ty) (isAddress : Bool) (m : Method) : K (Lower.callGetter recv isAddress m) := by
  have call : K (do
      Lower.emit (.method (Lower.callOp recv) m)
      return { type := m.ret : Pushed }) := hR.bind (hR.emit (Lower.isInner_callOp ..)) fun _ => hR.pure _
  exact hR.ite (hR.bind (hR.spillAddress recv) fun _ => call) call

theorem spillArguments (name : Text) (types : List (Option Ty)) :
    ∀ position, K (Lower.spillArguments name position types) := by
  induction types with
  | nil => exact fun _ => hR.pure _
  | cons t types ih =>
    intro position
    cases t with
    | none => exact hR.fail _
    | some t =>
      have spills : Lower.spillArguments name position (some t :: types) =
          Lower.spill t >>= fun l => Lower.spillArguments name (position - 1) types >>= fun ls =>
            Pure.pure (ls ++ [l]) := by
        simp only [Lower.spillArguments, Lower.spill, bind_assoc, pure_bind]
      rw [spills]
      exact hR.bind (hR.spill t) fun _ => hR.bind (ih _) fun _ => hR.pure _

section Call

variable {args : Lower.Arguments} (ha : ∀ hints, K (args.push hints))
include ha

theorem callStatic (t : Ty) (name : Text) (hints : List (Option Ty)) : K (Lower.callStatic t name hints args) :=
  hR.bind (ha hints) fun _ => hR.bind (hR.resolve ..) fun _ => hR.bind (hR.emit rfl) fun _ => hR.pure _

theorem callInstance (recv : Ty) (isAddress : Bool) (name : Text) : K (Lower.callInstance recv isAddress name args) := by
  have call : K (do
      let types ← args.push (← Lower.hintsFor recv name false args.count)
      let m ← Lower.resolve recv name types false
      Lower.emit (.method (Lower.callOp recv) m)
      return { type := m.ret : Pushed }) :=
    hR.bind (hR.hintsFor ..) fun hints => hR.bind (ha hints) fun types => hR.bind (hR.resolve ..) fun m =>
      hR.bind (hR.emit (Lower.isInner_callOp ..)) fun _ => hR.pure _
  exact hR.ite (hR.bind (hR.spillAddress recv) fun _ => call) call

theorem callMixed (name : Text) : K (Lower.callMixed name args) := by
  refine hR.bind (ha []) fun types => hR.bind (hR.spillArguments name _ _) fun temps => hR.read (fun _ _ => rfl) fun c => ?_
  refine hR.bind hR.symbols fun s => ?_
  dsimp only
  cases (s.methodsOf c.owner name).find? _ with
  | none => exact hR.fail _
  | some m =>
    have inner : (Emission.method (if m.isStatic then .call else Lower.callOp c.owner) m).isInner = true := by
      cases m.isStatic with
      | true => rfl
      | false => exact Lower.isInner_callOp ..
    have call : K (do
        for l in temps do Lower.emit (.local .ldloc (some l))
        Lower.emit (.method (if m.isStatic then .call else Lower.callOp c.owner) m)
        return { type := m.ret : Pushed }) :=
      hR.bind (hR.forIn temps fun l => hR.emit rfl) fun _ => hR.bind (hR.emit inner) fun _ => hR.pure _
    exact hR.ite (hR.bind hR.emitThis fun _ => call) call

theorem callOwn (name : Text) : K (Lower.callOwn name args) := by
  refine hR.read (fun _ _ => rfl) fun c => hR.bind (hR.isDelegateVariable name) fun b => hR.ite ?_ ?_
  · refine hR.bind (hR.ident name none false) fun v => ?_
    cases v.type with
    | some t => exact hR.callInstance ha ..
    | none => exact hR.fail _
  · refine hR.bind hR.symbols fun s =>
      hR.ite (hR.fail _) (hR.ite (hR.fail _) (hR.ite (hR.callStatic ha ..) (hR.ite ?_ (hR.callMixed ha name))))
    exact hR.bind hR.emitThis fun _ => hR.callInstance ha ..

end Call

/-! ### Operators, elements and members -/

theorem negate : K Lower.negate := hR.bind (hR.emit rfl) fun _ => hR.emit rfl

theorem emitComparison (op : BinaryOp) : K (Lower.emitComparison op) := by
  cases op
  case ne | le | ge => exact hR.bind (hR.emit rfl) fun _ => hR.negate
  all_goals exact hR.emit rfl

theorem compare (op : BinaryOp) (lt rt : Option Ty) : K (Lower.compare op lt rt) := by
  have comparison : ∀ t : Ty, K (do
      Lower.emitComparison op
      return { type := some t : Pushed }) := fun t => hR.bind (hR.emitComparison op) fun _ => hR.pure _
  exact hR.read (fun _ _ => rfl) fun c => hR.ite (hR.ite (comparison _) (hR.fail _)) (hR.ite (comparison _) (hR.fail _))

theorem applyBinary (op : BinaryOp) (lt rt : Option Ty) : K (Lower.applyBinary op lt rt) := by
  refine hR.read (fun _ _ => rfl) fun c =>
    hR.ite (hR.fail _) (hR.ite (hR.compare op lt rt) (hR.ite (hR.fail _) (hR.ite ?_ (hR.ite ?_ (hR.ite ?_ (hR.fail _))))))
  · exact hR.ite (hR.bind (hR.emit (Lower.isInner_arithmetic op)) fun _ => hR.pure _) (hR.fail _)
  · exact hR.bind hR.symbols fun s => hR.bind (hR.ofExcept _) fun m => hR.bind (hR.emit rfl) fun _ => hR.pure _
  · exact hR.bind (hR.emit (Lower.isInner_arithmetic op)) fun _ => hR.pure _

theorem applyUnary (op : UnaryOp) (t : Option Ty) : K (Lower.applyUnary op t) := by
  refine hR.read (fun _ _ => rfl) fun c => hR.ite ?_ (hR.ite ?_ (hR.ite ?_ (hR.fail _)))
  · exact hR.bind (hR.emit rfl) fun _ => hR.pure _
  · exact hR.bind hR.negate fun _ => hR.pure _
  · exact hR.bind (hR.emit rfl) fun _ => hR.pure _

theorem element {array : Lower Pushed} {position : Option Ty → Lower Pushed} (ha : K array) (hp : ∀ t, K (position t)) :
    K (Lower.element array position) := by
  refine hR.bind ha fun a => ?_
  cases a.type.bind Ty.elem? with
  | none => exact hR.fail _
  | some e => exact hR.read (fun _ _ => rfl) fun c => hR.bind (hp _) fun i => hR.ite (hR.pure _) (hR.fail _)

theorem loadElement (e : Ty) (called : Bool) : K (Lower.loadElement e called) :=
  hR.ite (hR.bind (hR.emit rfl) fun _ => hR.pure _) (hR.bind (hR.emit rfl) fun _ => hR.pure _)

theorem staticMember (t : Ty) (name : Text) (hint : Option Ty) (called : Bool) :
    K (Lower.staticMember t name hint called) := by
  refine hR.bind (hR.fieldAlong t name) fun f => ?_
  cases f with
  | ok f => exact hR.ite (hR.loadField f called) (hR.fail _)
  | error e =>
    refine hR.bind hR.symbols fun s => ?_
    cases hint with
    | none => exact hR.fail _
    | some dt =>
      cases s.delegate? (some dt) with
      | none => exact hR.fail _
      | some d =>
        exact hR.bind hR.symbols fun r => hR.read (fun _ _ => rfl) fun c => hR.ite (hR.fail _) (hR.typeReference ..)

theorem property (roles : Roles) (t : Ty) (isAddress : Bool) (name : Text) :
    K (Lower.instanceMember.property roles t isAddress name) := by
  refine hR.bind hR.symbols fun s => ?_
  cases s.resolve roles.object t ("get_" ++ name) [] false with
  | ok m => exact hR.callGetter ..
  | error _ => exact hR.fail _

theorem instanceMember (t : Ty) (isAddress : Bool) (name : Text) (hint : Option Ty) (called : Bool) :
    K (Lower.instanceMember t isAddress name hint called) := by
  refine hR.read (fun _ _ => rfl) fun c =>
    hR.ite (hR.bind (hR.emit rfl) fun _ => hR.pure _) (hR.bind (hR.fieldAlong t name) fun f => ?_)
  cases f with
  | ok f => exact hR.ite (hR.fail _) (hR.loadField f called)
  | error e =>
    refine hR.bind hR.symbols fun s => ?_
    cases hint with
    | none => exact hR.property ..
    | some dt =>
      cases s.delegate? (some dt) with
      | none => exact hR.property ..
      | some d => exact hR.bind hR.symbols fun r => hR.ite (hR.property ..) (hR.boundReference ..)

theorem construct (t : Ty) {args : Lower.Arguments} (ha : ∀ hints, K (args.push hints)) : K (Lower.construct t args) := by
  refine hR.ite (hR.fail _) (hR.read (fun _ _ => rfl) fun c => hR.bind (ha _) fun types => hR.bind hR.symbols fun s => ?_)
  exact hR.bind (hR.ofExcept _) fun m => hR.bind (hR.emit rfl) fun _ => hR.pure _

theorem constructArray (elem : Text) {size : Option Ty → Lower Pushed} (hs : ∀ t, K (size t)) :
    K (Lower.constructArray elem size) := by
  refine hR.bind (hR.lookupType _) fun array => hR.read (fun _ _ => rfl) fun c => hR.bind (hs _) fun n =>
    hR.ite ?_ (hR.fail _)
  exact hR.bind (hR.emit rfl) fun _ => hR.pure _

end Rules

/-! ### Expressions -/

mutual

/-- Lowering an expression. -/
theorem expr (hR : Expressive K) (hint : Option Ty) (called : Bool) : ∀ e : Expr, K (Lower.expr e hint called)
  | .missing => by
    rw [Lower.expr]
    exact hR.fail _
  | .int v => by
    rw [Lower.expr]
    exact hR.bind (hR.emit rfl) fun _ => hR.read (fun _ _ => rfl) fun _ => hR.pure _
  | .bool b => by
    rw [Lower.expr]
    exact hR.bind (hR.emit rfl) fun _ => hR.read (fun _ _ => rfl) fun _ => hR.pure _
  | .string s => by
    rw [Lower.expr]
    exact hR.bind (hR.emit rfl) fun _ => hR.read (fun _ _ => rfl) fun _ => hR.pure _
  | .null => by
    rw [Lower.expr]
    exact hR.bind (hR.emit rfl) fun _ => hR.pure _
  | .this => by
    rw [Lower.expr]
    exact hR.bind (hR.requireInstance _) fun _ => hR.bind hR.emitThis fun _ => hR.read (fun _ _ => rfl) fun _ => hR.pure _
  | .ident name => by
    rw [Lower.expr]
    exact hR.ident name hint called
  | .member target name => by
    rw [Lower.expr]
    refine hR.bind (hR.typeTarget target) fun t => ?_
    cases t with
    | some t => exact hR.staticMember ..
    | none =>
      exact hR.bind hR.symbols fun s => hR.bind (hR.receiver (expr hR none _ target) name) fun v => hR.instanceMember ..
  | .index array position => by
    rw [Lower.expr]
    refine hR.bind (hR.element (expr hR none false array) fun t => expr hR t false position) fun e => ?_
    exact hR.loadElement e called
  | .binary op left right => by
    rw [Lower.expr]
    exact hR.bind (expr hR none false left) fun l => hR.bind (expr hR l.type false right) fun r => hR.applyBinary ..
  | .unary op operand => by
    rw [Lower.expr]
    exact hR.bind (expr hR none false operand) fun v => hR.applyUnary ..
  | .call target name args => by
    rw [Lower.expr]
    have given : ∀ hints, K (Lower.arguments 1 hints args) := fun hints => arguments hR 1 hints args
    refine hR.ite (hR.callOwn given name) (hR.bind (hR.typeTarget target) fun t => ?_)
    cases t with
    | some t => exact hR.bind (hR.hintsFor ..) fun hints => hR.callStatic given ..
    | none => exact hR.bind (hR.receiver (expr hR none true target) name) fun v => hR.callInstance given ..
  | .new type args => by
    rw [Lower.expr]
    refine hR.bind (hR.lookupType _) fun t => hR.bind hR.symbols fun s => ?_
    cases s.delegate? (some t) with
    | some d => exact delegateOf hR t args
    | none => exact hR.construct t fun hints => arguments hR 1 hints args
  | .newArray elem size => by
    rw [Lower.expr]
    exact hR.constructArray elem fun t => expr hR t false size
  | .methodRef target name spelling => by
    rw [Lower.expr]
    exact hR.reference target (expr hR none false target) name spelling hint

/-- Lowering arguments. -/
theorem arguments (hR : Expressive K) (position : Nat) (hints : List (Option Ty)) :
    ∀ es : List Expr, K (Lower.arguments position hints es)
  | [] => by
    rw [Lower.arguments]
    exact hR.pure _
  | e :: rest => by
    rw [Lower.arguments]
    refine hR.bind (expr hR hints.head?.join false e) fun v => hR.ite (hR.fail _) ?_
    exact hR.bind (arguments hR (position + 1) hints.tail rest) fun _ => hR.pure _

/-- Lowering what a delegate is made from. -/
theorem delegateOf (hR : Expressive K) (dt : Ty) : ∀ es : List Expr, K (Lower.delegateOf dt es)
  | [] => by
    rw [Lower.delegateOf]
    · exact hR.fail _
    · simp
  | [e] => by
    rw [Lower.delegateOf]
    exact methodGroup hR dt e
  | e :: f :: rest => by
    rw [Lower.delegateOf]
    · exact hR.fail _
    · simp

/-- Lowering the name of a method. -/
theorem methodGroup (hR : Expressive K) (dt : Ty) : ∀ e : Expr, K (Lower.methodGroup dt e)
  | .methodRef target name spelling => by
    rw [Lower.methodGroup]
    exact hR.reference target (expr hR none false target) name spelling (some dt)
  | .ident name => by
    rw [Lower.methodGroup]
    exact hR.reference .missing (hR.fail _) name .empty (some dt)
  | .member target name => by
    rw [Lower.methodGroup]
    exact hR.reference target (expr hR none false target) name .empty (some dt)
  | .missing | .int _ | .string _ | .bool _ | .null | .this | .index .. | .binary .. | .unary .. | .call .. | .new ..
  | .newArray .. => by
    rw [Lower.methodGroup]
    · exact hR.fail _
    all_goals simp

end

end Expressive

namespace Ongoing

variable {K : ∀ {α : Type}, Lower α → Prop}

/-! ### Statements -/

section Statements

variable (hR : Ongoing K)
include hR

theorem value (e : Expr) (hint : Option Ty) : K (Lower.value e hint) :=
  hR.bind (hR.expr hint false e) fun _ => hR.pure _

theorem identPlace (name : Text) : K (Lower.identPlace name) := by
  refine hR.read (fun _ _ => rfl) fun c => hR.bind (hR.local? name) fun l => ?_
  cases l with
  | some l => exact hR.pure _
  | none =>
    dsimp only
    cases c.param? name with
    | some p => exact hR.pure _
    | none =>
      refine hR.bind (hR.fieldAlong c.owner name) fun f => ?_
      cases f with
      | error _ => exact hR.fail _
      | ok f => exact hR.ite (hR.pure _) (hR.bind (hR.requireInstance _) fun _ => hR.bind hR.emitThis fun _ => hR.pure _)

theorem memberPlace (target : Expr) (name : Text) : K (Lower.memberPlace target name) := by
  refine hR.bind (hR.typeTarget target) fun t => ?_
  cases t with
  | some t => exact hR.bind (hR.fieldAlong t name) fun f => hR.bind (hR.ofExcept f) fun f => hR.ite (hR.pure _) (hR.fail _)
  | none =>
    refine hR.bind (hR.receiver (hR.expr none false target) name) fun v => hR.bind (hR.fieldAlong v.1 name) fun f => ?_
    cases f with
    | error e => exact hR.ite (hR.fail _) (hR.fail _)
    | ok f => exact hR.ite (hR.fail _) (hR.pure _)

theorem place (e : Expr) : K (Lower.place e) := by
  cases e with
  | ident name => exact hR.identPlace name
  | member target name => exact hR.memberPlace target name
  | index array position =>
    exact hR.bind (hR.element (hR.expr none false array) fun t => hR.expr t false position) fun _ => hR.pure _
  | _ => exact hR.fail _

theorem store (p : Place) : K (Lower.store p) := by
  cases p <;> exact hR.record rfl

theorem baseCall : K Lower.baseCall := by
  refine hR.bind hR.symbols fun s => hR.read (fun _ _ => rfl) fun c => hR.bind (hR.ofExcept _) fun m => ?_
  exact hR.bind hR.emitThis fun _ => hR.record rfl

theorem declaredType (name type : Text) : K (Lower.declaredType name type) :=
  hR.ite (hR.pure _) (hR.bind (hR.lookupType _) fun _ => hR.ite (hR.fail _) (hR.pure _))

theorem initializedType (name : Text) (declared initial : Option Ty) : K (Lower.initializedType name declared initial) := by
  cases declared with
  | some t => exact hR.bind (hR.expect ..) fun _ => hR.pure _
  | none =>
    cases initial with
    | none => exact hR.fail _
    | some t => exact hR.ite (hR.fail _) (hR.pure _)

theorem localStmt (name type : Text) (init : Expr) : K (Lower.localStmt name type init) := by
  refine hR.read (fun _ _ => rfl) fun c => hR.bind (hR.local? name) fun l =>
    hR.ite (hR.fail _) (hR.bind (hR.declaredType ..) fun declared => ?_)
  refine hR.ite ?_ (hR.bind (hR.value init declared) fun initial => hR.bind (hR.initializedType ..) fun t => ?_)
  · cases declared with
    | none => exact hR.fail _
    | some t => exact hR.bind (hR.declareLocal ..) fun _ => hR.pure _
  · exact hR.bind (hR.declareLocal ..) fun l => hR.record rfl

theorem assignStmt (target e : Expr) : K (Lower.assignStmt target e) :=
  hR.bind (hR.place target) fun p => hR.bind (hR.value e p.2) fun _ => hR.bind (hR.expect ..) fun _ => hR.store p.1

theorem exprStmt (e : Expr) : K (Lower.exprStmt e) := hR.bind (hR.expr none false e) fun _ => hR.ite (hR.pure _) (hR.fail _)

theorem condition (e : Expr) : K (Lower.condition e) :=
  hR.read (fun _ _ => rfl) fun _ => hR.bind (hR.value e _) fun _ => hR.ite (hR.pure _) (hR.fail _)

theorem initField (f : Field) (init : Expr) : K (Lower.initField f init) :=
  hR.bind hR.emitThis fun _ => hR.bind (hR.value init _) fun _ => hR.bind (hR.expect ..) fun _ => hR.record rfl

/-- A statement that is no loop, no choice and no return. -/
theorem stmt (s : Stmt) (h : s.branches = false) (hr : s.returns = false) : K (Lower.stmt s) := by
  cases s with
  | «return» e => cases hr
  | «local» name type init => rw [Lower.stmt]; exact hR.localStmt name type init
  | assign target e => rw [Lower.stmt]; exact hR.assignStmt target e
  | expr e => rw [Lower.stmt]; exact hR.exprStmt e
  | baseCall => rw [Lower.stmt]; exact hR.read (fun _ _ => rfl) fun _ => hR.ite hR.baseCall (hR.fail _)
  | «while» cond body => cases h
  | «if» cond yes no => cases h

/-! ### Bodies -/

theorem statements {body : List Stmt} (hb : K (Lower.block body)) : K (Lower.statements body) :=
  hR.bind hb fun _ => hR.read (fun _ _ => rfl) fun _ => hR.ite (hR.pure _) (hR.ite (hR.pure _) (hR.fail _))

/-- A constructor; its statements may begin with the call of the base constructor. -/
theorem constructor (inits : List (Field × Expr)) {body : List Stmt} (hb : K (Lower.block body))
    (hrest : ∀ rest, body = .baseCall :: rest → K (Lower.block rest)) : K (Lower.constructor inits body) := by
  have whole : ∀ b : List Stmt, K (Lower.block b) → K (do
      Lower.baseCall
      for x in inits do Lower.initField x.1 x.2
      Lower.statements b) := fun b hb =>
    hR.bind hR.baseCall fun _ => hR.bind (hR.forIn inits fun x => hR.initField x.1 x.2) fun _ => hR.statements hb
  unfold Lower.constructor
  split
  · exact whole _ (hrest _ rfl)
  · exact whole _ hb

end Statements
end Ongoing

namespace Stepwise

variable {K : ∀ {α : Type}, Lower α → Prop} (hR : Stepwise K)
include hR

theorem returnStmt (e : Expr) : K (Lower.returnStmt e) := by
  refine hR.read (fun _ _ => rfl) fun c => hR.ite (hR.ite hR.leave (hR.fail _)) (hR.ite (hR.fail _) ?_)
  exact hR.bind (hR.value e _) fun t => hR.bind (hR.expect ..) fun _ => hR.leave

/-- A statement that is no loop and no choice. -/
theorem stmt (s : Stmt) (h : s.branches = false) : K (Lower.stmt s) := by
  cases hr : s.returns with
  | false => exact hR.toOngoing.stmt s h hr
  | true =>
    cases s with
    | «return» e => rw [Lower.stmt]; exact hR.returnStmt e
    | _ => cases hr

/-- Statements without loops and choices. -/
theorem block {ss : List Stmt} (h : ss.any Stmt.branches = false) : K (Lower.block ss) := by
  induction ss with
  | nil =>
    rw [Lower.block]
    exact hR.pure _
  | cons s rest ih =>
    rw [List.any_cons, Bool.or_eq_false_iff] at h
    rw [Lower.block]
    exact hR.bind (hR.stmt s h.1) fun _ => ih h.2

end Stepwise

/-- Lowering only adds array types to the symbols. -/
theorem Lower.extends_stepwise : Stepwise (@Lower.Keeps fun w w' => w.symbols.Extends w'.symbols) := by
  refine Lower.Keeps.stepwise (fun w => .refl _) (fun h h' => h.trans h') (fun name c w w' t h => ?_)
    (fun name t c w w' l h => ?_) fun {e} _ c w w' u h => ?_
  · obtain ⟨s, hs, rfl⟩ := Lower.lookupType_ok.mp h
    exact Symbols.lookup_extends hs
  · obtain ⟨-, rfl⟩ := Lower.declareLocal_ok h
    exact .refl _
  · show w.symbols.Extends w'.symbols
    rw [Lower.emit_symbols h]
    exact .refl _

/-! ### Labels -/

/-- A relation between works that the steps of lowering keep, those with labels included. -/
structure Labelwise (K : ∀ {α : Type}, Lower α → Prop) : Prop extends Stepwise K where
  defineLabel : K Lower.defineLabel
  markLabel : ∀ l, K (Lower.markLabel l)
  branch : ∀ op l, K (Lower.emit (.label op l))

namespace Labelwise

variable {K : ∀ {α : Type}, Lower α → Prop}

section Statements

variable (hR : Labelwise K)
include hR

theorem whileLoop (cond : Expr) {body : Lower Unit} (hb : K body) : K (Lower.whileLoop cond body) := by
  refine hR.bind hR.defineLabel fun start => hR.bind hR.defineLabel fun test => hR.bind (hR.branch _ _) fun _ => ?_
  refine hR.bind (hR.markLabel start) fun _ => hR.bind hb fun _ => hR.bind (hR.markLabel test) fun _ => ?_
  exact hR.bind (hR.condition cond) fun _ => hR.branch _ _

theorem choice (cond : Expr) {yes no : Lower Unit} (hy : K yes) (hn : K no) : K (Lower.choice cond yes no) := by
  refine hR.bind hR.defineLabel fun other => hR.bind hR.defineLabel fun done => hR.bind (hR.condition cond) fun _ => ?_
  refine hR.bind (hR.branch _ _) fun _ => hR.bind hy fun _ => hR.bind (hR.branch _ _) fun _ => ?_
  exact hR.bind (hR.markLabel other) fun _ => hR.bind hn fun _ => hR.markLabel done

end Statements

mutual

/-- Lowering a statement. -/
theorem stmt (hR : Labelwise K) : ∀ s : Stmt, K (Lower.stmt s)
  | .return _ | .local .. | .assign .. | .expr _ | .baseCall => hR.toStepwise.stmt _ rfl
  | .while cond body => by
    rw [Lower.stmt]
    exact hR.whileLoop cond (block hR body)
  | .if cond yes no => by
    rw [Lower.stmt]
    exact hR.choice cond (block hR yes) (block hR no)

/-- Lowering statements. -/
theorem block (hR : Labelwise K) : ∀ ss : List Stmt, K (Lower.block ss)
  | [] => by
    rw [Lower.block]
    exact hR.pure _
  | s :: rest => by
    rw [Lower.block]
    exact hR.bind (stmt hR s) fun _ => block hR rest

end

section Bodies

variable (hR : Labelwise K)
include hR

theorem statements (body : List Stmt) : K (Lower.statements body) := hR.toStepwise.statements (hR.block body)

theorem constructor (inits : List (Field × Expr)) (body : List Stmt) : K (Lower.constructor inits body) :=
  hR.toStepwise.constructor inits (hR.block body) fun rest _ => hR.block rest

end Bodies
end Labelwise

/-! ### Code and array types are only added -/

/-- Lowering has gone on: the code there was is there still, and array types at most have been entered. -/
structure Work.Onward (w w' : Work) : Prop where
  code : w.draft.code.toList <+: w'.draft.code.toList
  symbols : w.symbols.Extends w'.symbols
  names : w.symbols.PlainAliases → w.symbols.SameNames w'.symbols

namespace Work.Onward

theorem refl (w : Work) : w.Onward w := ⟨List.prefix_refl _, .refl _, fun _ => .refl _⟩

theorem trans {a b c : Work} (h : a.Onward b) (h' : b.Onward c) : a.Onward c :=
  ⟨h.code.trans h'.code, h.symbols.trans h'.symbols, fun hp => (h.names hp).trans (h'.names ((h.names hp).plainAliases hp))⟩

theorem of_symbols {w w' : Work} (hc : w.draft.code.toList <+: w'.draft.code.toList)
    (hs : w'.symbols = w.symbols) : w.Onward w' :=
  ⟨hc, by rw [hs]; exact .refl _, fun _ => by rw [hs]; exact .refl _⟩

theorem emit (e : Emission) : (Lower.emit e).Keeps Work.Onward := by
  intro c w w' u h
  obtain ⟨i, -, hcode, -⟩ := Lower.emit_pushes h
  refine of_symbols ?_ (Lower.emit_symbols h)
  rw [hcode, Array.toList_push]
  exact List.prefix_append _ _

theorem stepwise : Stepwise (@Lower.Keeps Work.Onward) := by
  refine Lower.Keeps.stepwise refl trans (fun name c w w' t h => ?_) (fun name t c w w' l h => ?_) fun _ => emit _
  · obtain ⟨s, hs, rfl⟩ := Lower.lookupType_ok.mp h
    exact ⟨List.prefix_refl _, Symbols.lookup_extends hs, fun hp => Symbols.lookup_sameNames hp hs⟩
  · obtain ⟨-, rfl⟩ := Lower.declareLocal_ok h
    exact of_symbols (List.prefix_refl _) rfl

theorem labelwise : Labelwise (@Lower.Keeps Work.Onward) where
  toStepwise := stepwise
  defineLabel := by
    intro c w w' l h
    obtain ⟨⟨l', d⟩, hd, he⟩ := map_eq_ok.mp h
    cases he
    unfold Draft.defineLabel at hd
    split at hd
    · cases hd
    · obtain ⟨_, -, hd⟩ := bind_eq_ok.mp hd
      cases hd
      exact of_symbols (List.prefix_refl _) rfl
  markLabel l := by
    intro c w w' u h
    obtain ⟨d, hd, he⟩ := map_eq_ok.mp h
    cases he
    unfold Draft.mark at hd
    repeat' split at hd
    all_goals cases hd
    exact of_symbols (List.prefix_refl _) rfl
  branch _ _ := emit _

end Work.Onward
end CilCompiler
