import CilCompiler.Proofs.Typed.Balance

/-!
The expressions that lowering comes to, at any depth, each with the work done until then. `Part` has one rule for
each operand that the lowering of an expression lowers in turn. The lowering of a part succeeds where that of the
whole does, and the code it leaves stays.
-/

namespace CilCompiler

namespace Lower

/-- An expression to be lowered, in its context, and the work done before it. -/
structure Point where
  expr : Expr
  hint : Option Ty
  called : Bool
  work : Work

/-- What lowering at a point gives. -/
def Point.run (x : Point) (c : Scope) : Except Fault (Pushed × Work) := Lower.expr x.expr x.hint x.called c x.work

/-- What stands before the arguments of a call on the receiver on the stack. -/
def instanceStart (recv : Ty) (isAddress : Bool) (name : Text) (arity : Nat) : Lower (List (Option Ty)) := do
  if recv.isValue && !isAddress then spillAddress recv
  hintsFor recv name false arity

/-- What stands before the arguments of a call without a target. -/
def ownStart (name : Text) (arity : Nat) : Lower (List (Option Ty)) := do
  let c ← read
  if ← isDelegateVariable name then
    let v ← ident name none false
    match v.type with
    | some t => instanceStart t v.isAddress Method.invokeName arity
    | none => fail (.typing (.memberOfNull Method.invokeName))
  else
    let fitting := ((← symbols).methodsOf c.owner name).filter fun m => m.params.length = arity
    let statics := fitting.filter Method.isStatic
    if c.isStatic || (fitting.filter fun m => !m.isStatic).isEmpty then return Ty.hints statics arity
    else if statics.isEmpty then
      emitThis
      instanceStart c.owner false name arity
    else return []

/-- What stands before the arguments of a call. -/
def callStart (target : Expr) (name : Text) (arity : Nat) : Lower (List (Option Ty)) := do
  if target.isMissing then ownStart name arity
  else
    match ← typeTarget target with
    | some t => hintsFor t name true arity
    | none => do
      let (t, isAddress) ← receiver (expr target none true) name
      instanceStart t isAddress name arity

/-- Lowering arguments comes to one of them. -/
inductive Argument (c : Scope) : List (Option Ty) → List Expr → Work → Point → Prop
  | first {hints e rest w} : Argument c hints (e :: rest) w ⟨e, hints.head?.join, false, w⟩
  | later {hints e rest w v w₁ y} : expr e hints.head?.join false c w = .ok (v, w₁) → Argument c hints.tail rest w₁ y →
      Argument c hints (e :: rest) w y

/-- A method reference is lowered from some work and comes to the object it is taken from. -/
structure Taken (c : Scope) (target : Expr) (name spelling : Text) (hint : Option Ty) (w : Work) (y : Point) : Prop where
  present : target.isMissing = false
  type : ∃ d, delegateType hint spelling name c w = .ok (d, y.work)
  object : typeTarget target c y.work = .ok (none, y.work)
  point : y = ⟨target, none, false, y.work⟩

/-- Lowering one expression comes to another as an operand of it. -/
inductive Part (c : Scope) : Point → Point → Prop
  | target {target name hint called w} : typeTarget target c w = .ok (none, w) →
      Part c ⟨.member target name, hint, called, w⟩ ⟨target, none, !(w.symbols.delegate? hint).isSome, w⟩
  | array {array position hint called w} : Part c ⟨.index array position, hint, called, w⟩ ⟨array, none, false, w⟩
  | position {array position hint called w a w₁} : expr array none false c w = .ok (a, w₁) →
      Part c ⟨.index array position, hint, called, w⟩ ⟨position, some c.roles.int32, false, w₁⟩
  | left {op left right hint called w} : Part c ⟨.binary op left right, hint, called, w⟩ ⟨left, none, false, w⟩
  | right {op left right hint called w l w₁} : expr left none false c w = .ok (l, w₁) →
      Part c ⟨.binary op left right, hint, called, w⟩ ⟨right, l.type, false, w₁⟩
  | operand {op operand hint called w} : Part c ⟨.unary op operand, hint, called, w⟩ ⟨operand, none, false, w⟩
  | receiver {target name args hint called w} : target.isMissing = false → typeTarget target c w = .ok (none, w) →
      Part c ⟨.call target name args, hint, called, w⟩ ⟨target, none, true, w⟩
  | argument {target name args hint called w hints w₁ y} : callStart target name args.length c w = .ok (hints, w₁) →
      Argument c hints args w₁ y → Part c ⟨.call target name args, hint, called, w⟩ y
  | supplied {type args hint called w t w₁ y} : lookupType type c w = .ok (t, w₁) →
      w₁.symbols.delegate? (some t) = none → Argument c (Ty.hints (c.ctorsOf t) args.length) args w₁ y →
      Part c ⟨.new type args, hint, called, w⟩ y
  | wrapped {type target name spelling hint called w t w₁ y} : lookupType type c w = .ok (t, w₁) →
      (w₁.symbols.delegate? (some t)).isSome = true → Taken c target name spelling (some t) w₁ y →
      Part c ⟨.new type [.methodRef target name spelling], hint, called, w⟩ y
  | wrappedMember {type target name hint called w t w₁ y} : lookupType type c w = .ok (t, w₁) →
      (w₁.symbols.delegate? (some t)).isSome = true → Taken c target name .empty (some t) w₁ y →
      Part c ⟨.new type [.member target name], hint, called, w⟩ y
  | size {elem size hint called w t w₁} : lookupType (TypeName.array elem) c w = .ok (t, w₁) →
      Part c ⟨.newArray elem size, hint, called, w⟩ ⟨size, some c.roles.int32, false, w₁⟩
  | taken {target name spelling hint called w y} : Taken c target name spelling hint w y →
      Part c ⟨.methodRef target name spelling, hint, called, w⟩ y

/-- What stands before the test of a loop. -/
def testStart (body : List Stmt) : Lower Unit := do
  let start ← defineLabel
  let test ← defineLabel
  emit (.label .br (some test))
  markLabel start
  block body
  markLabel test

/-- What stands before the test of a choice. -/
def choiceStart : Lower Unit := do
  let _ ← defineLabel
  let _ ← defineLabel

/-- Lowering a statement comes to an expression that it holds. -/
inductive Holds (c : Scope) : Stmt → Work → Point → Prop
  | returned {e w} : e.isMissing = false → Holds c (.return e) w ⟨e, some c.ret, false, w⟩
  | initializer {name type init w t w₁} : init.isMissing = false → declaredType name type c w = .ok (t, w₁) →
      Holds c (.local name type init) w ⟨init, t, false, w₁⟩
  | object {target name e w} : typeTarget target c w = .ok (none, w) →
      Holds c (.assign (.member target name) e) w ⟨target, none, false, w⟩
  | array {array position e w} : Holds c (.assign (.index array position) e) w ⟨array, none, false, w⟩
  | position {array position e w a w₁} : expr array none false c w = .ok (a, w₁) →
      Holds c (.assign (.index array position) e) w ⟨position, some c.roles.int32, false, w₁⟩
  | assigned {target e w p t w₁} : place target c w = .ok ((p, t), w₁) → Holds c (.assign target e) w ⟨e, t, false, w₁⟩
  | expr {e w} : Holds c (.expr e) w ⟨e, none, false, w⟩
  | loopTest {cond body w w₁} : testStart body c w = .ok ((), w₁) →
      Holds c (.while cond body) w ⟨cond, some c.roles.boolean, false, w₁⟩
  | choiceTest {cond yes no w w₁} : choiceStart c w = .ok ((), w₁) →
      Holds c (.if cond yes no) w ⟨cond, some c.roles.boolean, false, w₁⟩

/-- Lowering the initial values of fields comes to one of them. -/
inductive Initializes (c : Scope) : List (Field × Expr) → Work → Point → Prop
  | first {f e rest w w₁} : emitThis c w = .ok ((), w₁) → Initializes c ((f, e) :: rest) w ⟨e, f.type, false, w₁⟩
  | later {f e rest w w₁ y} : initField f e c w = .ok ((), w₁) → Initializes c rest w₁ y →
      Initializes c ((f, e) :: rest) w y

/-- Lowering at a point succeeds and what it leaves is the start of some code; what is called on has a value. -/
def Point.Done (x : Point) (c : Scope) (code : List Instr) : Prop :=
  ∃ p w, x.run c = .ok (p, w) ∧ w.draft.code.toList <+: code ∧ (x.called = true → Ty.isVoidOpt p.type = false)

theorem Point.Done.trans {x : Point} {c : Scope} {code code' : List Instr} (h : x.Done c code) (hc : code <+: code') :
    x.Done c code' := by
  obtain ⟨p, w, hr, hw, hv⟩ := h
  exact ⟨p, w, hr, hw.trans hc, hv⟩

theorem receiver_ok {operand : Lower Pushed} {name : Text} {c : Scope} {w w' : Work} {t : Ty} {a : Bool}
    (h : receiver operand name c w = .ok ((t, a), w')) :
    ∃ v, operand c w = .ok (v, w') ∧ v.type = some t ∧ v.isAddress = a ∧ t.isVoid = false := by
  simp only [receiver, bind_ok] at h
  obtain ⟨v, w₁, hv, h⟩ := h
  cases ht : v.type with
  | none =>
    rw [ht] at h
    cases h
  | some u =>
    simp only [ht, ite_ok, fail_ok, and_false, false_or, pure_ok, Bool.not_eq_true, Prod.mk.injEq] at h
    obtain ⟨hvoid, ⟨rfl, rfl⟩, rfl⟩ := h
    exact ⟨v, hv, ht, rfl, hvoid⟩

end Lower

namespace Setting
variable {Γ : Setting} {w w' : Work} {S : List Slot} {x y : Lower.Point}

/-- Lowering can start at a point: the work is sound and all that the expression and its context name is admitted. -/
structure Fits (Γ : Setting) (x : Lower.Point) : Prop where
  names : ∀ n ∈ x.expr.typeNames, Γ.Named n
  hint : ∀ t, x.hint = some t → Γ.Admits t
  sound : ∃ S, Γ.Sound x.work S

/-- A part of what has been lowered. -/
structure Within (Γ : Setting) (y : Lower.Point) (code : Array Instr) : Prop where
  fits : Γ.Fits y
  done : y.Done Γ.scope code.toList

theorem Within.trans {code code' : Array Instr} (h : Γ.Within y code) (hc : code.toList <+: code'.toList) :
    Γ.Within y code' :=
  ⟨h.fits, h.done.trans hc⟩

/-! ### Arguments -/

theorem head_admits {hints : List (Option Ty)} (hh : ∀ t, some t ∈ hints → Γ.Admits t) :
    ∀ t, hints.head?.join = some t → Γ.Admits t := by
  intro t ht
  cases hints with
  | nil => cases ht
  | cons x xs =>
    rw [show x = some t from ht] at hh
    exact hh t List.mem_cons_self

theorem argument_within (hΓ : Γ.Ok) {hints types : List (Option Ty)} {es : List Expr} {position : Nat}
    (hy : Lower.Argument Γ.scope hints es w y) (hn : ∀ n ∈ Expr.typeNamesAll es, Γ.Named n)
    (hh : ∀ t, some t ∈ hints → Γ.Admits t) (h : Γ.Sound w S)
    (ha : Lower.arguments position hints es Γ.scope w = .ok (types, w')) : Γ.Within y w'.draft.code := by
  induction hy generalizing position types S with
  | @first hints e rest w =>
    simp only [Expr.typeNamesAll, List.mem_append] at hn
    simp only [Lower.arguments, Lower.bind_ok, Lower.ite_ok, Lower.fail_ok, and_false, false_or, Lower.pure_ok,
      Bool.not_eq_true] at ha
    obtain ⟨v, w₁, hv, hvoid, ts, w₂, hr, rfl, rfl⟩ := ha
    have hV := expr_pushes hΓ e (fun n h => hn n (.inl h)) (head_admits hh) h hv
    obtain ⟨hk, -, -⟩ := arguments_supply hΓ rest (fun n h => hn n (.inr h)) (fun t ht => hh t (List.mem_of_mem_tail ht))
      (hV.plain hvoid) hr
    exact ⟨⟨fun n hm => hn n (.inl hm), head_admits hh, S, h⟩, v, w₁, hv, hk.code, fun hc => (by cases hc)⟩
  | @later hints e rest w v₀ w₀ y he _ ih =>
    simp only [Expr.typeNamesAll, List.mem_append] at hn
    simp only [Lower.arguments, Lower.bind_ok, Lower.ite_ok, Lower.fail_ok, and_false, false_or, Lower.pure_ok,
      Bool.not_eq_true] at ha
    obtain ⟨v, w₁, hv, hvoid, ts, w₂, hr, rfl, rfl⟩ := ha
    cases he.symm.trans hv
    have hV := expr_pushes hΓ e (fun n h => hn n (.inl h)) (head_admits hh) h hv
    exact ih (fun n h => hn n (.inr h)) (fun t ht => hh t (List.mem_of_mem_tail ht)) (hV.plain hvoid) hr

/-- A call lowers its arguments from sound work, and the code they leave stays. -/
def Starts (Γ : Setting) (start : Lower (List (Option Ty))) (args : Lower.Arguments) (w w' : Work) : Prop :=
  ∃ hints w₁ S types w₂, start Γ.scope w = .ok (hints, w₁) ∧ Γ.Sound w₁ S ∧ (∀ t, some t ∈ hints → Γ.Admits t) ∧
    args.push hints Γ.scope w₁ = .ok (types, w₂) ∧ w₂.draft.code.toList <+: w'.draft.code.toList

variable {args : Lower.Arguments} {name : Text} {t : Ty} {p : Pushed}

theorem callStatic_code {hints : List (Option Ty)} (hc : Lower.callStatic t name hints args Γ.scope w = .ok (p, w')) :
    ∃ types w₁, args.push hints Γ.scope w = .ok (types, w₁) ∧ w₁.draft.code.toList <+: w'.draft.code.toList := by
  simp only [Lower.callStatic, Lower.resolve, Lower.bind_ok, Lower.symbols_ok, Lower.read_ok, Lower.ofExcept_ok,
      Lower.pure_ok] at hc
  obtain ⟨types, w₁, hp, m, w₂, ⟨_, _, ⟨rfl, rfl⟩, _, _, ⟨rfl, rfl⟩, -, rfl⟩, _, w₃, he, -, rfl⟩ := hc
  exact ⟨types, w₁, hp, (Lower.emit_kept he).code⟩

theorem callInstance_starts (hΓ : Γ.Ok) (hT : Γ.Holds t) {a : Bool} (ha : a = true → t.isValue = true)
    (h : Γ.Sound w (Pushed.slot { type := some t, isAddress := a } :: S))
    (hc : Lower.callInstance t a name args Γ.scope w = .ok (p, w')) :
    Γ.Starts (Lower.instanceStart t a name args.count) args w w' := by
  have spilled : ∃ w₁, (if t.isValue && !a then Lower.spillAddress t else pure () : Lower Unit) Γ.scope w = .ok ((), w₁) ∧
      (∃ S', Γ.Sound w₁ S') ∧ (do
        let types ← args.push (← Lower.hintsFor t name false args.count)
        let m ← Lower.resolve t name types false
        Lower.emit (.method (Lower.callOp t) m)
        return { type := m.ret } : Lower Pushed) Γ.scope w₁ = .ok (p, w') := by
    simp only [Lower.callInstance, Lower.ite_ok] at hc
    simp only [Lower.ite_ok, Lower.pure_ok]
    rcases hc with ⟨hv, hc⟩ | ⟨hv, hc⟩
    · obtain ⟨_, w₁, hs, hc⟩ := Lower.bind_ok.mp hc
      obtain ⟨-, s, -, h⟩ := receiver_ready hT ha h (.inl ⟨hv, hs⟩)
      exact ⟨w₁, .inl ⟨hv, hs⟩, ⟨_, h⟩, hc⟩
    · exact ⟨w, .inr ⟨hv, trivial, rfl⟩, ⟨_, h⟩, hc⟩
  obtain ⟨w₁, h1, ⟨S', hs⟩, hc⟩ := spilled
  simp only [Lower.bind_ok, Lower.pure_ok, Lower.resolve, Lower.symbols_ok, Lower.read_ok, Lower.ofExcept_ok] at hc
  obtain ⟨hints, w₂, hints?, types, w₃, hp, m, w₄, ⟨_, _, ⟨rfl, rfl⟩, _, _, ⟨rfl, rfl⟩, -, rfl⟩, _, w₅, he, -, rfl⟩ := hc
  obtain ⟨rfl, hh⟩ := candidates_params hΓ hs hints?
  refine ⟨hints, w₂, S', types, w₃, ?_, hs, hh, hp, (Lower.emit_kept he).code⟩
  simp only [Lower.instanceStart, Lower.ite_ok, Lower.bind_ok, Lower.pure_ok] at h1 ⊢
  rcases h1 with ⟨hv, h1⟩ | ⟨hv, -, rfl⟩
  · exact .inl ⟨hv, _, w₂, h1, hints?⟩
  · exact .inr ⟨hv, hints?⟩

/-- Loading temporaries adds to the code. -/
theorem loads_code {ls : List LocalSlot} {u : PUnit}
    (hl : (forIn ls PUnit.unit fun l _ => do
        Lower.emit (.local .ldloc (some l))
        pure (ForInStep.yield PUnit.unit) : Lower PUnit) Γ.scope w = .ok (u, w')) :
    w.draft.code.toList <+: w'.draft.code.toList := by
  induction ls generalizing w with
  | nil =>
    simp only [List.forIn_nil, Lower.pure_ok] at hl
    exact hl.2 ▸ List.prefix_refl _
  | cons l ls ih =>
    simp only [List.forIn_cons, Lower.bind_ok, Lower.pure_ok] at hl
    obtain ⟨_, _, ⟨_, w₁, he, rfl, rfl⟩, hl⟩ := hl
    exact (Lower.emit_kept he).code.trans (ih hl)

theorem callMixed_code (hargs : Γ.Supplies args) (h : Γ.Sound w S)
    (hc : Lower.callMixed name args Γ.scope w = .ok (p, w')) :
    ∃ types w₁, args.push [] Γ.scope w = .ok (types, w₁) ∧ w₁.draft.code.toList <+: w'.draft.code.toList := by
  simp only [Lower.callMixed, Lower.bind_ok, Lower.read_ok, Lower.symbols_ok] at hc
  obtain ⟨types, w₁, hp, temps, w₂, hs, _, _, ⟨rfl, rfl⟩, _, _, ⟨rfl, rfl⟩, hc⟩ := hc
  obtain ⟨k1, h, hT⟩ := hargs (fun t ht => absurd ht List.not_mem_nil) h hp
  obtain ⟨k2, -, -⟩ := spillArguments_sound (fun t ht => hT t (List.mem_reverse.mp ht))
    (by rw [Slot.arguments, ← List.map_reverse] at h; exact h) hs
  refine ⟨types, w₁, hp, k2.code.trans ?_⟩
  cases hfind : (w₂.symbols.methodsOf Γ.scope.owner name).find? fun m => Ty.sameList m.params types with
  | none =>
    rw [hfind] at hc
    cases hc
  | some m =>
    simp only [hfind, Lower.ite_ok, Lower.bind_ok, Lower.pure_ok] at hc
    rcases hc with ⟨-, _, w₃, h1, _, w₄, h2, _, w₅, h3, -, rfl⟩ | ⟨-, _, w₄, h2, _, w₅, h3, -, rfl⟩
    · exact ((Lower.emit_kept h1).code.trans (loads_code h2)).trans (Lower.emit_kept h3).code
    · exact (loads_code h2).trans (Lower.emit_kept h3).code

theorem callOwn_starts (hΓ : Γ.Ok) (hargs : Γ.Supplies args) (h : Γ.Sound w S)
    (hc : Lower.callOwn name args Γ.scope w = .ok (p, w')) : Γ.Starts (Lower.ownStart name args.count) args w w' := by
  simp only [Lower.callOwn, Lower.bind_ok, Lower.read_ok] at hc
  obtain ⟨_, _, ⟨rfl, rfl⟩, isVariable, w₁, hv, hc⟩ := hc
  obtain rfl := isDelegateVariable_still hv
  simp only [Lower.ite_ok, Lower.bind_ok, Lower.symbols_ok, Lower.fail_ok, and_false, false_or] at hc
  -- The start takes the same turn as the call.
  rcases hc with ⟨hvar, v, w₂, hid, hc⟩ | ⟨hvar, _, _, ⟨rfl, rfl⟩, -, -, hc⟩
  · have hV := ident_yields hΓ (fun t ht => by cases ht) h hid
    have h := hV.value hV.notVoid
    cases ht : v.type with
    | none =>
      rw [ht] at hc
      cases hc
    | some t =>
      rw [ht] at hc
      have ha : v.isAddress = false := by
        by_contra ha
        cases (hV.address (by simpa using ha)).1
      have hslot : v = { type := some t, isAddress := v.isAddress } := by rw [← ht]
      have hT : Γ.Holds t := ⟨hV.admits ht, by have := hV.notVoid; rw [ht] at this; exact this⟩
      rw [hslot] at h
      obtain ⟨hints, w₃, S', types, w₄, h1, h2⟩ := callInstance_starts hΓ hT (fun h => by rw [ha] at h; cases h) h hc
      refine ⟨hints, w₃, S', types, w₄, ?_, h2⟩
      simp only [Lower.ownStart, Lower.bind_ok, Lower.read_ok, Lower.ite_ok]
      refine ⟨_, _, ⟨rfl, rfl⟩, isVariable, w₁, hv, .inl ⟨hvar, v, w₂, hid, ?_⟩⟩
      rw [ht]
      exact h1
  · have hints : ∀ t, some t ∈ Ty.hints (((w₁.symbols.methodsOf Γ.scope.owner name).filter fun m =>
        m.params.length = args.count).filter Method.isStatic) args.count → Γ.Admits t := hints_admitted fun m hm =>
      (MethodOn.own hΓ h (List.mem_filter.mp (List.mem_filter.mp hm).1).1).params hΓ
    have inst : ∀ {b : Bool}, ¬(Γ.scope.isStatic || b) = true → Γ.scope.isStatic = false := by
      intro b hb
      simp only [Bool.or_eq_true, not_or, Bool.not_eq_true] at hb
      exact hb.1
    rcases hc with ⟨hst, hc⟩ | ⟨hi, ⟨hst, _, w₂, h1, hc⟩ | ⟨hst, hc⟩⟩
    · obtain ⟨types, w₂, hp, hcode⟩ := callStatic_code hc
      refine ⟨_, w₁, S, types, w₂, ?_, h, hints, hp, hcode⟩
      simp only [Lower.ownStart, Lower.bind_ok, Lower.read_ok, Lower.ite_ok, Lower.symbols_ok, Lower.pure_ok]
      exact ⟨_, _, ⟨rfl, rfl⟩, isVariable, w₁, hv, .inr ⟨hvar, _, _, ⟨rfl, rfl⟩, .inl ⟨hst, rfl, rfl⟩⟩⟩
    · obtain ⟨-, hs⟩ := h.loadThis (inst hi) h1
      obtain ⟨hints, w₃, S', types, w₄, h2, h3⟩ :=
        callInstance_starts (a := false) hΓ hΓ.owner (fun ha => (by cases ha)) hs hc
      refine ⟨hints, w₃, S', types, w₄, ?_, h3⟩
      simp only [Lower.ownStart, Lower.bind_ok, Lower.read_ok, Lower.ite_ok, Lower.symbols_ok]
      exact ⟨_, _, ⟨rfl, rfl⟩, isVariable, w₁, hv, .inr ⟨hvar, _, _, ⟨rfl, rfl⟩, .inr ⟨hi, .inl ⟨hst, _, w₂, h1, h2⟩⟩⟩⟩
    · obtain ⟨types, w₂, hp, hcode⟩ := callMixed_code hargs h hc
      refine ⟨[], w₁, S, types, w₂, ?_, h, fun t ht => absurd ht List.not_mem_nil, hp, hcode⟩
      simp only [Lower.ownStart, Lower.bind_ok, Lower.read_ok, Lower.ite_ok, Lower.symbols_ok, Lower.pure_ok]
      exact ⟨_, _, ⟨rfl, rfl⟩, isVariable, w₁, hv, .inr ⟨hvar, _, _, ⟨rfl, rfl⟩, .inr ⟨hi, .inr ⟨hst, trivial, rfl⟩⟩⟩⟩

/-! ### Operands -/

theorem reference_within (hΓ : Γ.Ok) {target : Expr} {spelling : Text} {hint : Option Ty}
    (hn : ∀ n ∈ target.typeNames, Γ.Named n) (hs : spelling.isEmpty = false → Γ.Named spelling)
    (hh : ∀ t, hint = some t → Γ.Admits t) (h : Γ.Sound w S) (hy : Lower.Taken Γ.scope target name spelling hint w y)
    (hr : Lower.reference target (Lower.expr target none false) name spelling hint Γ.scope w = .ok (p, w')) :
    Γ.Within y w'.draft.code := by
  obtain ⟨hpresent, ⟨d₀, htype⟩, hobject, hpoint⟩ := hy
  simp only [Lower.reference, Lower.bind_ok] at hr
  obtain ⟨⟨dt, d⟩, w₁, hty, hr⟩ := hr
  cases htype.symm.trans hty
  obtain ⟨k1, h, ht, hd⟩ := delegateType_admits hh hs h hty
  simp only [Lower.ite_ok, hpresent, Bool.false_eq_true, false_and, false_or, not_false_eq_true, true_and,
      Lower.bind_ok] at hr
  obtain ⟨o, w₂, htarget, hr⟩ := hr
  cases hobject.symm.trans htarget
  simp only [Lower.bind_ok] at hr
  obtain ⟨⟨t, a⟩, w₃, hrec, hr⟩ := hr
  obtain ⟨v, hv, -, -⟩ := Lower.receiver_ok hrec
  obtain ⟨-, hT, ha, hs⟩ := receiver_pushes (fun hp => expr_pushes hΓ target hn (no_hint Γ) h hp) hrec
  cases a with
  | true => cases (ha rfl).1
  | false =>
    have kept := (boundReference_yields hΓ hT.admits ht hd hs hr : Γ.Yields _ _ false _ _).kept
    rw [hpoint]
    exact ⟨⟨hn, no_hint Γ, S, h⟩, v, w₃, hv, kept.code, fun hc => (by cases hc)⟩

theorem loadElement_code {e : Ty} {called : Bool} (hl : Lower.loadElement e called Γ.scope w = .ok (p, w')) :
    w.draft.code.toList <+: w'.draft.code.toList := by
  simp only [Lower.loadElement, Lower.ite_ok, Lower.bind_ok, Lower.pure_ok] at hl
  rcases hl with ⟨-, _, w₁, he, -, rfl⟩ | ⟨-, _, w₁, he, -, rfl⟩
  · exact (Lower.emit_kept he).code
  · exact (Lower.emit_kept he).code

/-- An array and the position in it. -/
theorem element_within (hΓ : Γ.Ok) {array position : Expr} {e : Ty} (ha : ∀ n ∈ array.typeNames, Γ.Named n)
    (hp : ∀ n ∈ position.typeNames, Γ.Named n) (h : Γ.Sound w S)
    (he : Lower.element (Lower.expr array none false) (fun hint => Lower.expr position hint false) Γ.scope w =
      .ok (e, w')) :
    Γ.Within ⟨array, none, false, w⟩ w'.draft.code ∧ ∀ {a w₁}, Lower.expr array none false Γ.scope w = .ok (a, w₁) →
      Γ.Within ⟨position, some Γ.scope.roles.int32, false, w₁⟩ w'.draft.code := by
  simp only [Lower.element, Lower.bind_ok] at he
  obtain ⟨a, w₁, harr, he⟩ := he
  have hA := expr_pushes hΓ array ha (no_hint Γ) h harr
  cases ht : a.type.bind Ty.elem? with
  | none =>
    rw [ht] at he
    cases he
  | some x =>
    have hvoid : Ty.isVoidOpt a.type = false := by
      obtain ⟨y, hy, hx⟩ := Option.bind_eq_some_iff.mp ht
      cases y with
      | array z => rw [hy]; exact Ty.isVoid_array z
      | root d => cases hx
      | derived d b => cases hx
    have h1 := hA.plain hvoid
    have hint : ∀ t, some Γ.scope.roles.int32 = some t → Γ.Admits t := fun t ht => by cases ht; exact hΓ.roles.1
    simp only [ht, Lower.bind_ok, Lower.read_ok, Lower.ite_ok, Lower.pure_ok, Lower.fail_ok, and_false, or_false] at he
    obtain ⟨_, _, ⟨rfl, rfl⟩, i, w₂, hpos, -, -, rfl⟩ := he
    have kept := (expr_pushes hΓ position hp hint h1 hpos).kept
    refine ⟨⟨⟨ha, no_hint Γ, S, h⟩, a, w₁, harr, kept.code, fun hc => (by cases hc)⟩, fun {a' w₁'} harr' => ?_⟩
    cases harr.symm.trans harr'
    exact ⟨⟨hp, hint, _, h1⟩, i, w₂, hpos, List.prefix_refl _, fun hc => (by cases hc)⟩

theorem call_receiver {target : Expr} {args : List Expr} {hint : Option Ty} {called : Bool} {c : Scope}
    (hm : target.isMissing = false) (ht : Lower.typeTarget target c w = .ok (none, w))
    (hc : Lower.expr (.call target name args) hint called c w = .ok (p, w')) :
    ∃ t a w₁, Lower.receiver (Lower.expr target none true) name c w = .ok ((t, a), w₁) ∧
      Lower.callInstance t a name { count := args.length, push := fun hints => Lower.arguments 1 hints args } c w₁ =
        .ok (p, w') := by
  simp only [Lower.expr, Lower.ite_ok, hm, Bool.false_eq_true, false_and, false_or, not_false_eq_true, true_and,
      Lower.bind_ok] at hc
  obtain ⟨o, w₁, ht', hc⟩ := hc
  cases ht.symm.trans ht'
  simp only [Lower.bind_ok] at hc
  obtain ⟨⟨t, a⟩, w₂, hr, hc⟩ := hc
  exact ⟨t, a, w₂, hr, hc⟩

theorem call_starts (hΓ : Γ.Ok) {target : Expr} {args : List Expr} {hint : Option Ty} {called : Bool}
    (ht : ∀ n ∈ target.typeNames, Γ.Named n) (ha : ∀ n ∈ Expr.typeNamesAll args, Γ.Named n) (h : Γ.Sound w S)
    (hc : Lower.expr (.call target name args) hint called Γ.scope w = .ok (p, w')) :
    Γ.Starts (Lower.callStart target name args.length)
      { count := args.length, push := fun hints => Lower.arguments 1 hints args } w w' := by
  have hargs : Γ.Supplies { count := args.length, push := fun hints => Lower.arguments 1 hints args } :=
    fun hh h hp => arguments_supply hΓ args ha hh h hp
  simp only [Lower.expr, Lower.ite_ok, Lower.bind_ok] at hc
  rcases hc with ⟨hm, hc⟩ | ⟨hm, o, w₁, htarget, hc⟩
  · obtain ⟨hints, w₂, S', types, w₃, h1, h2⟩ := callOwn_starts hΓ hargs h hc
    refine ⟨hints, w₂, S', types, w₃, ?_, h2⟩
    simp only [Lower.callStart, Lower.ite_ok]
    exact .inl ⟨hm, h1⟩
  · obtain ⟨rfl, hadm⟩ := typeTarget_admits h htarget
    cases o with
    | some t =>
      simp only [Lower.bind_ok] at hc
      obtain ⟨hints, w₂, hhints, hc⟩ := hc
      obtain ⟨types, w₃, hp, hcode⟩ := callStatic_code hc
      have hstart : Lower.callStart target name args.length Γ.scope w₁ = .ok (hints, w₂) := by
        simp only [Lower.callStart, Lower.ite_ok, Lower.bind_ok]
        exact .inr ⟨hm, _, _, htarget, hhints⟩
      obtain ⟨rfl, hh⟩ := candidates_params hΓ h hhints
      exact ⟨hints, w₂, S, types, w₃, hstart, h, hh, hp, hcode⟩
    | none =>
      simp only [Lower.bind_ok] at hc
      obtain ⟨⟨t, a⟩, w₂, hr, hc⟩ := hc
      obtain ⟨-, hT, ha, hs⟩ := receiver_pushes (fun hp => expr_pushes hΓ target ht (no_hint Γ) h hp) hr
      obtain ⟨hints, w₃, S', types, w₄, h1, h2⟩ := callInstance_starts hΓ hT (fun h => (ha h).2) hs hc
      refine ⟨hints, w₃, S', types, w₄, ?_, h2⟩
      simp only [Lower.callStart, Lower.ite_ok, Lower.bind_ok]
      exact .inr ⟨hm, _, _, htarget, Lower.bind_ok.mpr ⟨(t, a), w₂, hr, h1⟩⟩

/-- The lowering of a part succeeds where that of the whole does, and what it leaves stays. -/
theorem part_within (hΓ : Γ.Ok) (hy : Lower.Part Γ.scope x y) (hx : Γ.Fits x) (hr : x.run Γ.scope = .ok (p, w')) :
    Γ.Within y w'.draft.code := by
  obtain ⟨hn, hh, S, h⟩ := hx
  unfold Lower.Point.run at hr
  cases hy with
  | @target target name hint called w ht =>
    simp only [Lower.expr, Lower.bind_ok] at hr
    obtain ⟨o, w₁, ht', hr⟩ := hr
    cases ht.symm.trans ht'
    simp only [Lower.bind_ok, Lower.symbols_ok] at hr
    obtain ⟨_, _, ⟨rfl, rfl⟩, ⟨t, a⟩, w₂, hrec, hr⟩ := hr
    have hn : ∀ n ∈ target.typeNames, Γ.Named n := fun n hm => hn n (by rw [Expr.typeNames]; exact hm)
    obtain ⟨v, hv, hty, -, hvoid⟩ := Lower.receiver_ok hrec
    obtain ⟨-, hT, ha, hs⟩ := receiver_pushes (fun hp => expr_pushes hΓ target hn (no_hint Γ) h hp) hrec
    have kept := (instanceMember_pushes hΓ hT hh (fun h' => ⟨by
      rw [← h.reads.grown.delegate?]
      simpa using (ha h').1, (ha h').2⟩) hs hr).kept
    exact ⟨⟨hn, no_hint Γ, S, h⟩, v, w₂, hv, kept.code, fun _ => by rw [hty]; exact hvoid⟩
  | @array array position hint called w =>
    simp only [Expr.typeNames, List.mem_append] at hn
    simp only [Lower.expr, Lower.bind_ok] at hr
    obtain ⟨e, w₁, he, hr⟩ := hr
    exact (element_within hΓ (fun n hm => hn n (.inl hm)) (fun n hm => hn n (.inr hm)) h he).1.trans (loadElement_code hr)
  | @position array position hint called w a w₀ ha =>
    simp only [Expr.typeNames, List.mem_append] at hn
    simp only [Lower.expr, Lower.bind_ok] at hr
    obtain ⟨e, w₁, he, hr⟩ := hr
    exact ((element_within hΓ (fun n hm => hn n (.inl hm)) (fun n hm => hn n (.inr hm)) h he).2 ha).trans
        (loadElement_code hr)
  | @left op left right hint called w =>
    simp only [Expr.typeNames, List.mem_append] at hn
    simp only [Lower.expr, Lower.bind_ok] at hr
    obtain ⟨l, w₁, hl, r, w₂, hright, hr⟩ := hr
    obtain ⟨hlv, hrv⟩ := applyBinary_notVoid hr
    have hL := expr_pushes hΓ left (fun n h => hn n (.inl h)) (no_hint Γ) h hl
    have hR := expr_pushes hΓ right (fun n h => hn n (.inr h)) (fun t ht => hL.admits ht) (hL.plain hlv) hright
    have kept := (applyBinary_yields hΓ (hR.plain hrv) (fun t ht => hL.admits ht) hr : Γ.Yields _ _ false _ _).kept
    exact ⟨⟨fun n hm => hn n (.inl hm), no_hint Γ, S, h⟩, l, w₁, hl, hR.kept.code.trans kept.code, fun hc => (by cases hc)⟩
  | @right op left right hint called w l₀ w₀ hl₀ =>
    simp only [Expr.typeNames, List.mem_append] at hn
    simp only [Lower.expr, Lower.bind_ok] at hr
    obtain ⟨l, w₁, hl, r, w₂, hright, hr⟩ := hr
    cases hl₀.symm.trans hl
    obtain ⟨hlv, hrv⟩ := applyBinary_notVoid hr
    have hL := expr_pushes hΓ left (fun n h => hn n (.inl h)) (no_hint Γ) h hl
    have hR := expr_pushes hΓ right (fun n h => hn n (.inr h)) (fun t ht => hL.admits ht) (hL.plain hlv) hright
    have kept := (applyBinary_yields hΓ (hR.plain hrv) (fun t ht => hL.admits ht) hr : Γ.Yields _ _ false _ _).kept
    exact ⟨⟨fun n hm => hn n (.inr hm), fun t ht => hL.admits ht, _, hL.plain hlv⟩, r, w₂, hright, kept.code,
      fun hc => (by cases hc)⟩
  | @operand op operand hint called w =>
    simp only [Lower.expr, Lower.bind_ok] at hr
    obtain ⟨v, w₁, hv, hr⟩ := hr
    have hn : ∀ n ∈ operand.typeNames, Γ.Named n := fun n hm => hn n (by rw [Expr.typeNames]; exact hm)
    have hV := expr_pushes hΓ operand hn (no_hint Γ) h hv
    have kept := (applyUnary_yields hΓ hV.plain (fun t ht => hV.admits ht) hr : Γ.Yields _ _ false _ _).kept
    exact ⟨⟨hn, no_hint Γ, S, h⟩, v, w₁, hv, kept.code, fun hc => (by cases hc)⟩
  | @receiver target name args hint called w hm ht =>
    simp only [Expr.typeNames, List.mem_append] at hn
    obtain ⟨t, a, w₁, hrec, hr⟩ := call_receiver hm ht hr
    have hn' : ∀ n ∈ target.typeNames, Γ.Named n := fun n hm => hn n (.inl hm)
    obtain ⟨v, hv, hty, -, hvoid⟩ := Lower.receiver_ok hrec
    obtain ⟨-, hT, ha, hs⟩ := receiver_pushes (fun hp => expr_pushes hΓ target hn' (no_hint Γ) h hp) hrec
    have kept := (callInstance_pushes hΓ hT (fun h => (ha h).2)
      (fun hh h ha => arguments_supply hΓ args (fun n h => hn n (.inr h)) hh h ha) hs hr : Γ.Pushes _ _ false _ _).kept
    exact ⟨⟨hn', no_hint Γ, S, h⟩, v, w₁, hv, kept.code, fun _ => by rw [hty]; exact hvoid⟩
  | @argument target name args hint called w hints₀ w₀ y hstart hy =>
    simp only [Expr.typeNames, List.mem_append] at hn
    obtain ⟨hints, w₁, S', types, w₂, hs, hsound, hadm, hpush, hcode⟩ :=
      call_starts hΓ (fun n hm => hn n (.inl hm)) (fun n hm => hn n (.inr hm)) h hr
    cases hstart.symm.trans hs
    exact (argument_within hΓ hy (fun n hm => hn n (.inr hm)) hadm hsound hpush).trans hcode
  | @supplied type args hint called w t₀ w₀ y hl₀ hd hy =>
    simp only [Expr.typeNames, List.mem_cons] at hn
    simp only [Lower.expr, Lower.bind_ok, Lower.symbols_ok] at hr
    obtain ⟨t, w₁, hl, _, _, ⟨rfl, rfl⟩, hr⟩ := hr
    cases hl₀.symm.trans hl
    obtain ⟨-, -, h⟩ := h.lookupType (hn type (.inl rfl)) hl
    simp only [hd, Lower.construct, Lower.ite_ok, Lower.fail_ok, and_false, false_or, Lower.bind_ok, Lower.read_ok,
      Lower.symbols_ok, Lower.ofExcept_ok, Lower.pure_ok] at hr
    obtain ⟨-, _, _, ⟨rfl, rfl⟩, types, w₂, hp, _, _, ⟨rfl, rfl⟩, c, _, ⟨-, rfl⟩, _, w₃, he, -, rfl⟩ := hr
    exact (argument_within hΓ hy (fun n hm => hn n (.inr hm))
        (hints_admitted fun m hm => hΓ.params (.inr (.inr hm))) h hp).trans
      (Lower.emit_kept he).code
  | @wrapped type target name spelling hint called w t₀ w₀ y hl₀ hd hy =>
    simp only [Expr.typeNames, Expr.typeNamesAll, List.mem_cons, List.mem_append, List.append_nil] at hn
    simp only [Lower.expr, Lower.bind_ok, Lower.symbols_ok] at hr
    obtain ⟨t, w₁, hl, _, _, ⟨rfl, rfl⟩, hr⟩ := hr
    cases hl₀.symm.trans hl
    obtain ⟨ht, -, h⟩ := h.lookupType (hn type (.inl rfl)) hl
    obtain ⟨d, hd⟩ := Option.isSome_iff_exists.mp hd
    simp only [hd, Lower.delegateOf, Lower.methodGroup] at hr
    exact reference_within hΓ (fun n hm => hn n (.inr (.inr hm))) (fun hs => hn spelling (.inr (.inl (by simp [hs]))))
      (fun t ht' => by cases ht'; exact ht) h hy hr
  | @wrappedMember type target name hint called w t₀ w₀ y hl₀ hd hy =>
    simp only [Expr.typeNames, Expr.typeNamesAll, List.mem_cons, List.append_nil] at hn
    simp only [Lower.expr, Lower.bind_ok, Lower.symbols_ok] at hr
    obtain ⟨t, w₁, hl, _, _, ⟨rfl, rfl⟩, hr⟩ := hr
    cases hl₀.symm.trans hl
    obtain ⟨ht, -, h⟩ := h.lookupType (hn type (.inl rfl)) hl
    obtain ⟨d, hd⟩ := Option.isSome_iff_exists.mp hd
    simp only [hd, Lower.delegateOf, Lower.methodGroup] at hr
    exact reference_within hΓ (fun n hm => hn n (.inr hm)) (fun hs => absurd hs (by decide))
      (fun t ht' => by cases ht'; exact ht) h hy hr
  | @size elem size hint called w t₀ w₀ hl₀ =>
    simp only [Expr.typeNames, List.mem_cons] at hn
    simp only [Lower.expr, Lower.constructArray, Lower.bind_ok, Lower.read_ok, Lower.ite_ok, Lower.fail_ok,
        and_false, or_false,
      Lower.pure_ok] at hr
    obtain ⟨array, w₁, hl, _, _, ⟨rfl, rfl⟩, n, w₂, hsize, -, _, w₃, he, -, rfl⟩ := hr
    cases hl₀.symm.trans hl
    obtain ⟨-, -, h⟩ := h.lookupType (hn _ (.inl rfl)) hl
    exact ⟨⟨fun n hm => hn n (.inr hm), fun t ht => by cases ht; exact hΓ.roles.1, S, h⟩, n, w₂, hsize,
        (Lower.emit_kept he).code,
      fun hc => (by cases hc)⟩
  | @taken target name spelling hint called w y hy =>
    simp only [Expr.typeNames, List.mem_append] at hn
    rw [Lower.expr] at hr
    exact reference_within hΓ (fun n hm => hn n (.inr hm)) (fun hs => hn spelling (.inl (by simp [hs]))) hh h hy hr

/-! ### Statements -/

theorem value_within {e : Expr} {hint o : Option Ty} (hn : ∀ n ∈ e.typeNames, Γ.Named n)
    (hh : ∀ t, hint = some t → Γ.Admits t) (h : Γ.Sound w S) (hv : Lower.value e hint Γ.scope w = .ok (o, w')) :
    Γ.Within ⟨e, hint, false, w⟩ w'.draft.code := by
  simp only [Lower.value, Lower.bind_ok, Lower.pure_ok] at hv
  obtain ⟨p, w₁, hp, -, rfl⟩ := hv
  exact ⟨⟨hn, hh, S, h⟩, p, w₁, hp, List.prefix_refl _, fun hc => (by cases hc)⟩

theorem condition_within (hΓ : Γ.Ok) {e : Expr} {u : Unit} (hn : ∀ n ∈ e.typeNames, Γ.Named n) (h : Γ.Sound w [])
    (hc : Lower.condition e Γ.scope w = .ok (u, w')) :
    Γ.Within ⟨e, some Γ.scope.roles.boolean, false, w⟩ w'.draft.code := by
  simp only [Lower.condition, Lower.bind_ok, Lower.read_ok, Lower.ite_ok, Lower.pure_ok, Lower.fail_ok, and_false,
    or_false] at hc
  obtain ⟨_, _, ⟨rfl, rfl⟩, o, w₁, hv, -, -, rfl⟩ := hc
  exact value_within hn (fun t ht => by cases ht; exact hΓ.roles.2.1) h hv

theorem store_code {p : Place} {u : Unit} (hs : Lower.store p Γ.scope w = .ok (u, w')) :
    w.draft.code.toList <+: w'.draft.code.toList := by
  cases p <;> exact (Lower.emit_kept hs).code

/-- An assignment lowers its place first and its value second. -/
theorem assign_parts (hΓ : Γ.Ok) {target e : Expr} {u : Unit} (ht : ∀ n ∈ target.typeNames, Γ.Named n)
    (hn : ∀ n ∈ e.typeNames, Γ.Named n) (h : Γ.Sound w []) (ha : Lower.assignStmt target e Γ.scope w = .ok (u, w')) :
    ∃ p o w₁, Lower.place target Γ.scope w = .ok ((p, o), w₁) ∧ Γ.Within ⟨e, o, false, w₁⟩ w'.draft.code ∧
      w₁.draft.code.toList <+: w'.draft.code.toList := by
  simp only [Lower.assignStmt, Lower.bind_ok] at ha
  obtain ⟨⟨p, o⟩, w₁, hp, v, w₂, hv, _, w₃, hexp, hs⟩ := ha
  obtain ⟨-, -, rfl⟩ := Lower.expect_ok hexp
  obtain ⟨-, hadm, s, -, h1⟩ := place_sound hΓ ht h hp
  obtain ⟨k2, -, -⟩ := value_pushes hΓ hn hadm h1 hv
  exact ⟨p, o, w₁, hp, (value_within hn hadm h1 hv).trans (store_code hs), k2.code.trans (store_code hs)⟩

theorem memberPlace_within {target : Expr} {p : Place} {o : Option Ty} (hn : ∀ n ∈ target.typeNames, Γ.Named n)
    (h : Γ.Sound w S) (ht : Lower.typeTarget target Γ.scope w = .ok (none, w))
    (hp : Lower.place (.member target name) Γ.scope w = .ok ((p, o), w')) :
    Γ.Within ⟨target, none, false, w⟩ w'.draft.code := by
  simp only [Lower.place, Lower.memberPlace, Lower.bind_ok] at hp
  obtain ⟨o', w₁, ht', hp⟩ := hp
  cases ht.symm.trans ht'
  simp only [Lower.bind_ok, Lower.fieldAlong_ok] at hp
  obtain ⟨⟨t, a⟩, w₂, hr, _, _, ⟨rfl, rfl⟩, hp⟩ := hp
  obtain ⟨v, hv, -, -⟩ := Lower.receiver_ok hr
  have same : w₂ = w' := by
    cases hf : w₂.symbols.fieldAlong Γ.scope.roles.object t name with
    | error e =>
      simp only [hf, Lower.ite_ok, Lower.fail_ok, and_false, or_false] at hp
    | ok f =>
      simp only [hf, Lower.ite_ok, Lower.fail_ok, and_false, false_or, Lower.pure_ok] at hp
      exact hp.2.2
  rw [← same]
  exact ⟨⟨hn, no_hint Γ, S, h⟩, v, w₂, hv, List.prefix_refl _, fun hc => (by cases hc)⟩

/-- The lowering of an expression in a statement succeeds where that of the statement does. -/
theorem holds_within (hΓ : Γ.Ok) {s : Stmt} {u : Unit} (hy : Lower.Holds Γ.scope s w y) (hn : ∀ n ∈ s.typeNames, Γ.Named n)
    (h : Γ.Sound w []) (hs : Lower.stmt s Γ.scope w = .ok (u, w')) : Γ.Within y w'.draft.code := by
  cases hy with
  | @returned e w hm =>
    rw [Lower.stmt] at hs
    simp only [Lower.returnStmt, Lower.bind_ok, Lower.read_ok, Lower.ite_ok, hm, Bool.false_eq_true, false_and, false_or,
      not_false_eq_true, true_and, Lower.fail_ok, and_false] at hs
    obtain ⟨_, _, ⟨rfl, rfl⟩, -, o, w₁, hv, _, w₂, hexp, he⟩ := hs
    obtain ⟨-, -, rfl⟩ := Lower.expect_ok hexp
    exact (value_within (fun n hm => hn n (by rw [Stmt.typeNames]; exact hm))
        (fun t ht => by cases ht; exact hΓ.ret) h hv).trans
      (Lower.emit_kept he).code
  | @initializer name type init w t₀ w₀ hm hd₀ =>
    rw [Lower.stmt] at hs
    simp only [Stmt.typeNames, List.mem_append] at hn
    simp only [Lower.localStmt, Lower.bind_ok, Lower.read_ok, Lower.local?_ok, Lower.ite_ok, Lower.fail_ok, and_false,
      false_or, hm, Bool.false_eq_true, false_and, not_false_eq_true, true_and] at hs
    obtain ⟨_, _, ⟨rfl, rfl⟩, _, _, ⟨rfl, rfl⟩, -, o, w₁, hd, v, w₂, hv, t, w₃, ht, l, w₄, hl, he⟩ := hs
    cases hd₀.symm.trans hd
    obtain ⟨-, hsound, hT⟩ := declaredType_sound (fun hne => hn type (.inl (by simp [hne]))) h hd
    have hadm : ∀ t, t₀ = some t → Γ.Admits t := fun t ht => (hT t ht).admits
    obtain ⟨-, hi, -⟩ := value_pushes hΓ (fun n hm => hn n (.inr hm)) hadm hsound hv
    obtain ⟨rfl, -, -, -⟩ := initializedType_holds hT hi ht
    obtain ⟨-, hw⟩ := Lower.declareLocal_ok hl
    refine (value_within (fun n hm => hn n (.inr hm)) hadm hsound hv).trans ?_
    rw [hw] at he
    exact (Lower.emit_kept he).code
  | @object target name e w ht =>
    rw [Lower.stmt] at hs
    simp only [Stmt.typeNames, List.mem_append] at hn
    obtain ⟨p, o, w₁, hp, -, hcode⟩ := assign_parts hΓ (fun n hm => hn n (.inl hm)) (fun n hm => hn n (.inr hm)) h hs
    exact (memberPlace_within (fun n hm => hn n (.inl (by rw [Expr.typeNames]; exact hm))) h ht hp).trans hcode
  | @array array position e w =>
    rw [Lower.stmt] at hs
    simp only [Stmt.typeNames, List.mem_append] at hn
    obtain ⟨p, o, w₁, hp, -, hcode⟩ := assign_parts hΓ (fun n hm => hn n (.inl hm)) (fun n hm => hn n (.inr hm)) h hs
    simp only [Lower.place, Lower.bind_ok, Lower.pure_ok] at hp
    obtain ⟨t, w₂, he, -, rfl⟩ := hp
    simp only [Expr.typeNames, List.mem_append] at hn
    exact (element_within hΓ (fun n hm => hn n (.inl (.inl hm))) (fun n hm => hn n (.inl (.inr hm))) h he).1.trans hcode
  | @position array position e w a w₀ ha =>
    rw [Lower.stmt] at hs
    simp only [Stmt.typeNames, List.mem_append] at hn
    obtain ⟨p, o, w₁, hp, -, hcode⟩ := assign_parts hΓ (fun n hm => hn n (.inl hm)) (fun n hm => hn n (.inr hm)) h hs
    simp only [Lower.place, Lower.bind_ok, Lower.pure_ok] at hp
    obtain ⟨t, w₂, he, -, rfl⟩ := hp
    simp only [Expr.typeNames, List.mem_append] at hn
    exact ((element_within hΓ (fun n hm => hn n (.inl (.inl hm))) (fun n hm => hn n (.inl (.inr hm))) h he).2 ha).trans
        hcode
  | @assigned target e w p₀ t₀ w₀ hp₀ =>
    rw [Lower.stmt] at hs
    simp only [Stmt.typeNames, List.mem_append] at hn
    obtain ⟨p, o, w₁, hp, hwithin, -⟩ := assign_parts hΓ (fun n hm => hn n (.inl hm)) (fun n hm => hn n (.inr hm)) h hs
    cases hp₀.symm.trans hp
    exact hwithin
  | @expr e w =>
    rw [Lower.stmt] at hs
    simp only [Lower.exprStmt, Lower.bind_ok, Lower.ite_ok, Lower.pure_ok, Lower.fail_ok, and_false, or_false] at hs
    obtain ⟨p, w₁, hp, -, -, rfl⟩ := hs
    exact ⟨⟨fun n hm => hn n (by rw [Stmt.typeNames]; exact hm), no_hint Γ, _, h⟩, p, w₁, hp, List.prefix_refl _,
      fun hc => (by cases hc)⟩
  | @loopTest cond body w w₀ hstart =>
    rw [Lower.stmt] at hs
    simp only [Stmt.typeNames, List.mem_append] at hn
    simp only [Lower.whileLoop, Lower.bind_ok] at hs
    obtain ⟨start, w₁, h1, test, w₂, h2, _, w₃, h3, _, w₄, h4, _, w₅, h5, _, w₆, h6, _, w₇, h7, h8⟩ := hs
    have hstart' : Lower.testStart body Γ.scope w = .ok ((), w₆) := by
      simp only [Lower.testStart, Lower.bind_ok]
      exact ⟨start, w₁, h1, test, w₂, h2, _, w₃, h3, _, w₄, h4, _, w₅, h5, Lower.unit_ok h6⟩
    cases hstart.symm.trans hstart'
    obtain ⟨s1, -, -, -, -⟩ := defineLabel_sound h h1
    obtain ⟨s2, htest, -, -, -⟩ := defineLabel_sound s1 h2
    obtain ⟨-, s3⟩ := s2.emit h3 fun _ => .jump htest
    obtain ⟨s4, -, -, -⟩ := markLabel_sound s3 h4
    obtain ⟨s6, -, -, -⟩ := markLabel_sound (block_runs hΓ body (fun n hm => hn n (.inr hm)) s4 h5).sound h6
    exact (condition_within hΓ (fun n hm => hn n (.inl hm)) s6 h7).trans (Lower.emit_kept h8).code
  | @choiceTest cond yes no w w₀ hstart =>
    rw [Lower.stmt] at hs
    simp only [Stmt.typeNames, List.mem_append] at hn
    have hyes : ∀ n ∈ Stmt.typeNamesAll yes, Γ.Named n := fun n hm => hn n (.inr (.inl hm))
    have hno : ∀ n ∈ Stmt.typeNamesAll no, Γ.Named n := fun n hm => hn n (.inr (.inr hm))
    simp only [Lower.choice, Lower.bind_ok] at hs
    obtain ⟨other, w₁, h1, done, w₂, h2, _, w₃, h3, _, w₄, h4, _, w₅, h5, _, w₆, h6, _, w₇, h7, _, w₈, h8, h9⟩ := hs
    have hstart' : Lower.choiceStart Γ.scope w = .ok ((), w₂) := by
      simp only [Lower.choiceStart, Lower.bind_ok, Lower.pure_ok]
      exact ⟨other, w₁, h1, done, w₂, h2, trivial, rfl⟩
    cases hstart.symm.trans hstart'
    obtain ⟨s1, hother, -, -, -⟩ := defineLabel_sound h h1
    obtain ⟨s2, hdone, z2, -, -⟩ := defineLabel_sound s1 h2
    obtain ⟨k3, t, ht, s3⟩ := condition_sound hΓ (fun n hm => hn n (.inl hm)) s2 h3
    have z3 := congrArg Array.size k3.marks
    obtain ⟨k4, s4⟩ := s3.emit h4 fun _ => .test (by decide) (by omega) ht
    have z4 := congrArg Array.size k4.marks
    have r5 := block_runs hΓ yes hyes s4 h5
    have z5 := r5.labels
    obtain ⟨k6, s6⟩ := r5.sound.emit h6 fun _ => .jump (by omega)
    obtain ⟨s7, -, c7, -⟩ := markLabel_sound s6 h7
    have r8 := block_runs hΓ no hno s7 h8
    obtain ⟨-, -, c9, -⟩ := markLabel_sound r8.sound h9
    have last : w₈.draft.code.toList <+: w'.draft.code.toList := c9 ▸ List.prefix_refl _
    exact (condition_within hΓ (fun n hm => hn n (.inl hm)) s2 h3).trans
      (((k4.code.trans r5.code).trans k6.code).trans ((c7 ▸ r8.code).trans last))

/-! ### Initial values -/

theorem initField_within (hΓ : Γ.Ok) {f : Field} {init : Expr} {u : Unit} {w₁ : Work} (hi : Γ.scope.isStatic = false)
    (hf : Γ.FieldOn Γ.scope.owner f) (hn : ∀ n ∈ init.typeNames, Γ.Named n) (h : Γ.Sound w [])
    (hthis : Lower.emitThis Γ.scope w = .ok ((), w₁)) (he : Lower.initField f init Γ.scope w = .ok (u, w')) :
    Γ.Within ⟨init, f.type, false, w₁⟩ w'.draft.code := by
  simp only [Lower.initField, Lower.bind_ok] at he
  obtain ⟨_, w₂, h1, o, w₃, h2, _, w₄, h3, h4⟩ := he
  cases hthis.symm.trans h1
  obtain ⟨r, hr, hR⟩ := hf.type hΓ
  obtain ⟨-, h⟩ := h.loadThis hi h1
  obtain ⟨-, -, rfl⟩ := Lower.expect_ok h3
  exact (value_within hn (fun t ht => by cases hr.symm.trans ht; exact hR.admits) h h2).trans (Lower.emit_kept h4).code

theorem initializes_within (hΓ : Γ.Ok) {inits : List (Field × Expr)} {u : PUnit} (hy : Lower.Initializes Γ.scope inits w y)
    (hi : Γ.scope.isStatic = false)
    (hf : ∀ x ∈ inits, Γ.FieldOn Γ.scope.owner x.1 ∧ x.1.isStatic = false ∧ ∀ n ∈ x.2.typeNames, Γ.Named n)
    (h : Γ.Sound w [])
    (he : (forIn inits PUnit.unit fun x _ => do
        Lower.initField x.1 x.2
        pure (ForInStep.yield PUnit.unit) : Lower PUnit) Γ.scope w = .ok (u, w')) : Γ.Within y w'.draft.code := by
  induction hy with
  | @first f e rest w w₁ hthis =>
    simp only [List.forIn_cons, Lower.bind_ok, Lower.pure_ok] at he
    obtain ⟨_, _, ⟨_, w₂, h1, rfl, rfl⟩, h2⟩ := he
    obtain ⟨hfx, hst, hn⟩ := hf (f, e) List.mem_cons_self
    have r1 := initField_runs hΓ hi hfx hst hn h h1
    have r2 := initFields_runs hΓ hi (fun y hy => hf y (List.mem_cons_of_mem _ hy)) r1.sound h2
    exact (initField_within hΓ hi hfx hn h hthis h1).trans r2.code
  | @later f e rest w w₁ y h0 _ ih =>
    simp only [List.forIn_cons, Lower.bind_ok, Lower.pure_ok] at he
    obtain ⟨_, _, ⟨_, w₂, h1, rfl, rfl⟩, h2⟩ := he
    cases h0.symm.trans h1
    obtain ⟨hfx, hst, hn⟩ := hf (f, e) List.mem_cons_self
    exact ih (fun y hy => hf y (List.mem_cons_of_mem _ hy)) (initField_runs hΓ hi hfx hst hn h h1).sound h2

/-- An expression that is lowered leaves one value more on the stack, or none where it has no value. -/
theorem Within.depth (hΓ : Γ.Ok) (hv : Γ.Voidless) {code : Array Instr} (h : Γ.Within y code) :
    ∃ p w, y.run Γ.scope = .ok (p, w) ∧ y.work.draft.code.toList <+: w.draft.code.toList ∧
      w.draft.code.toList <+: code.toList ∧ depthAt (some Γ.scope.ret) code w.draft.code.size =
        depthAt (some Γ.scope.ret) code y.work.draft.code.size + if Ty.isVoidOpt p.type then 0 else 1 := by
  obtain ⟨⟨hn, hh, S, hs⟩, p, w, hr, hcode, -⟩ := h
  have hP := expr_pushes hΓ y.expr hn hh hs hr
  refine ⟨p, w, hr, hP.kept.code, hcode, ?_⟩
  rw [depthAt_of_start hcode, depthAt_of_start (hP.kept.code.trans hcode), hs.typed.depthBehind hv]
  cases hvoid : Ty.isVoidOpt p.type with
  | false =>
    rw [(hP.value hvoid).typed.depthBehind hv]
    rfl
  | true =>
    rw [(hP.void hvoid (.inr hv)).typed.depthBehind hv]
    rfl

end Setting
end CilCompiler
