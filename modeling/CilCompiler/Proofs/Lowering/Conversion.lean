import CilCompiler.Proofs.Lowering.Stepwise
import CilCompiler.Proofs.Typed.Parts

/-! Methods that become delegates. `Converts` has one rule for each way a program may write such a conversion: a bare
    name, a member of a type or of an object where a delegate is wanted, a method reference, and each of these wrapped
    in the making of a delegate. All of them end in one of three lowerings (`Converts.run`), which take the first
    method of the delegate's signature and fail if there is none, and leave code that makes the delegate
    (`Conversion.lower_ok`). -/

namespace CilCompiler

namespace Lower

/-- What a method is taken from. -/
inductive Source where
  /-- The enclosing type, with the receiver if the method needs one. -/
  | own
  | type (t : Ty)
  /-- The object on the stack. -/
  | object (t : Ty)
deriving DecidableEq

/-- A method that is to become a delegate, once all that stands before the choice of the method has been lowered. -/
structure Conversion where
  type : Ty
  delegate : Delegate
  name : Text
  source : Source
  work : Work

namespace Conversion

/-- The type that has the method, itself or from its bases. -/
def owner (k : Conversion) (c : Scope) : Ty :=
  match k.source with
  | .own => c.owner
  | .type t | .object t => t

/-- Whether static methods, or others, can be taken: static ones from a type, others from an object, and from inside a
    member those that the member can call. -/
def admits (k : Conversion) (c : Scope) (isStatic : Bool) : Bool :=
  match k.source with
  | .own => isStatic || !c.isStatic
  | .type _ => isStatic
  | .object _ => !isStatic

/-- A method can be taken: it has the name, may be taken from there, and has the delegate's signature position by
    position. -/
structure Fits (k : Conversion) (c : Scope) (m : Method) : Prop where
  mem : m ∈ k.work.symbols.methodsAlong c.roles.object (k.owner c) k.name
  admitted : k.admits c m.isStatic = true
  params : Ty.sameList m.params k.delegate.params = true
  ret : Ty.same m.ret k.delegate.ret = true

/-- The lowering of the conversion itself. -/
def lower (k : Conversion) : Lower Pushed :=
  match k.source with
  | .own => ownReference k.name k.type k.delegate
  | .type t => typeReference t k.name k.type k.delegate
  | .object t => boundReference t k.name k.type k.delegate

/-- The code that loads the receiver, where it is not on the stack yet. -/
def receiverCode (k : Conversion) : List Instr :=
  match k.source with
  | .own => [{ op := .ldarg, operand := .int 0 }]
  | .type _ | .object _ => []

/-- The code that turns the receiver into a receiver and its method. -/
def boundCode (recv : Ty) (m : Method) : List Instr :=
  (if recv.isValue then [{ op := .box, operand := .type recv }] else []) ++
    [{ op := .dup }, { op := .ldvirtftn, operand := .method m }]

/-- The code of the conversion, in long form, for the method that is taken. -/
def code (k : Conversion) (c : Scope) (m : Method) : List Instr :=
  (if m.isStatic then [{ op := .ldnull }, { op := .ldftn, operand := .method m }]
    else k.receiverCode ++ boundCode (k.owner c) m) ++
    [{ op := .newobj, operand := .ctor k.delegate.ctor }]

end Conversion

/-- A method reference converts a method. -/
inductive Refers (c : Scope) (target : Expr) (name spelling : Text) (hint : Option Ty) (w : Work) : Conversion → Prop
  | own {dt d w₁} : delegateType hint spelling name c w = .ok ((dt, d), w₁) → target.isMissing = true →
      Refers c target name spelling hint w ⟨dt, d, name, .own, w₁⟩
  | type {dt d w₁ t} : delegateType hint spelling name c w = .ok ((dt, d), w₁) → target.isMissing = false →
      typeTarget target c w₁ = .ok (some t, w₁) → Refers c target name spelling hint w ⟨dt, d, name, .type t, w₁⟩
  | object {dt d w₁ w₂ t a} : delegateType hint spelling name c w = .ok ((dt, d), w₁) → target.isMissing = false →
      typeTarget target c w₁ = .ok (none, w₁) → receiver (expr target none false) name c w₁ = .ok ((t, a), w₂) →
      Refers c target name spelling hint w ⟨dt, d, name, .object t, w₂⟩

/-- There is no field of a name, but there are methods. -/
structure OnlyMethods (c : Scope) (s : Symbols) (t : Ty) (name : Text) : Prop where
  field : ∀ f, s.fieldAlong c.roles.object t name ≠ .ok f
  methods : s.methodsAlong c.roles.object t name ≠ []

/-- Lowering an expression converts a method. -/
inductive Converts (c : Scope) : Point → Conversion → Prop
  | bare {name dt d called w} : w.local? name = none → c.param? name = none →
      (∀ f, w.symbols.fieldAlong c.roles.object c.owner name ≠ .ok f) → w.symbols.methodsOf c.owner name ≠ [] →
      w.symbols.delegate? (some dt) = some d → Converts c ⟨.ident name, some dt, called, w⟩ ⟨dt, d, name, .own, w⟩
  | ofType {target name dt d called w t} : typeTarget target c w = .ok (some t, w) → OnlyMethods c w.symbols t name →
      w.symbols.delegate? (some dt) = some d →
        Converts c ⟨.member target name, some dt, called, w⟩ ⟨dt, d, name, .type t, w⟩
  | ofObject {target name dt d called w w₁ t a} : typeTarget target c w = .ok (none, w) →
      receiver (expr target none false) name c w = .ok ((t, a), w₁) → ¬(t.isArray = true ∧ name = "Length") →
      OnlyMethods c w₁.symbols t name → w.symbols.delegate? (some dt) = some d →
      Converts c ⟨.member target name, some dt, called, w⟩ ⟨dt, d, name, .object t, w₁⟩
  | reference {target name spelling hint called w k} : Refers c target name spelling hint w k →
      Converts c ⟨.methodRef target name spelling, hint, called, w⟩ k
  | wrapped {type target name spelling hint called w t w₁ k} : lookupType type c w = .ok (t, w₁) →
      (w₁.symbols.delegate? (some t)).isSome = true → Refers c target name spelling (some t) w₁ k →
      Converts c ⟨.new type [.methodRef target name spelling], hint, called, w⟩ k
  | wrappedName {type name hint called w t w₁ k} : lookupType type c w = .ok (t, w₁) →
      (w₁.symbols.delegate? (some t)).isSome = true → Refers c .missing name .empty (some t) w₁ k →
      Converts c ⟨.new type [.ident name], hint, called, w⟩ k
  | wrappedMember {type target name hint called w t w₁ k} : lookupType type c w = .ok (t, w₁) →
      (w₁.symbols.delegate? (some t)).isSome = true → Refers c target name .empty (some t) w₁ k →
      Converts c ⟨.new type [.member target name], hint, called, w⟩ k

variable {c : Scope} {w w₁ : Work} {k : Conversion} {p : Pushed}

theorem Refers.run {target : Expr} {name spelling : Text} {hint : Option Ty}
    (h : Refers c target name spelling hint w k) :
    reference target (expr target none false) name spelling hint c w = k.lower c k.work := by
  cases h with
  | own hd hm =>
    rw [reference, bind_of_ok hd]
    simp [hm, Conversion.lower]
  | type hd hm ht =>
    rw [reference, bind_of_ok hd]
    simp only [hm, Bool.false_eq_true, if_false]
    rw [bind_of_ok ht]
    rfl
  | object hd hm ht hr =>
    rw [reference, bind_of_ok hd]
    simp only [hm, Bool.false_eq_true, if_false]
    rw [bind_of_ok ht]
    dsimp only
    rw [bind_of_ok hr]
    rfl

theorem delegateType_hint {dt : Ty} {d : Delegate} {name : Text} (h : w.symbols.delegate? (some dt) = some d) :
    delegateType (some dt) .empty name c w = .ok ((dt, d), w) := by
  have wanted : (pure (some dt) : Lower (Option Ty)) c w = .ok (some dt, w) := rfl
  rw [delegateType, if_pos (by decide), bind_of_ok wanted]
  dsimp only
  rw [bind_of_ok symbols_run, h]
  rfl

theorem bare_run {name : Text} {dt : Ty} {d : Delegate} {called : Bool} (hl : w.local? name = none)
    (hp : c.param? name = none)
    (hf : ∀ f, w.symbols.fieldAlong c.roles.object c.owner name ≠ .ok f) (hm : w.symbols.methodsOf c.owner name ≠ [])
    (hd : w.symbols.delegate? (some dt) = some d) : ident name (some dt) called c w = ownReference name dt d c w := by
  rw [ident, bind_of_ok read_run, bind_of_ok (local?_run name), hl]
  dsimp only
  rw [hp]
  dsimp only
  rw [bind_of_ok (fieldAlong_run _ _)]
  cases hx : w.symbols.fieldAlong c.roles.object c.owner name with
  | ok f => exact absurd hx (hf f)
  | error e =>
    dsimp only
    rw [bind_of_ok symbols_run, if_neg (by simpa using hm), bind_of_ok (delegateType_hint hd)]

theorem staticMember_run {name : Text} {dt t : Ty} {d : Delegate} {called : Bool} (h : OnlyMethods c w.symbols t name)
    (hd : w.symbols.delegate? (some dt) = some d) :
      staticMember t name (some dt) called c w = typeReference t name dt d c w := by
  rw [staticMember, bind_of_ok (fieldAlong_run _ _)]
  cases hx : w.symbols.fieldAlong c.roles.object t name with
  | ok f => exact absurd hx (h.field f)
  | error e =>
    dsimp only
    rw [bind_of_ok symbols_run, hd]
    dsimp only
    rw [bind_of_ok symbols_run, bind_of_ok read_run, if_neg (by simpa using h.methods)]

theorem instanceMember_run {name : Text} {dt t : Ty} {d : Delegate} {a called : Bool}
    (hn : ¬(t.isArray = true ∧ name = "Length"))
    (h : OnlyMethods c w.symbols t name) (hd : w.symbols.delegate? (some dt) = some d) :
    instanceMember t a name (some dt) called c w = boundReference t name dt d c w := by
  rw [instanceMember, bind_of_ok read_run, if_neg (by simpa using hn), bind_of_ok (fieldAlong_run _ _)]
  cases hx : w.symbols.fieldAlong c.roles.object t name with
  | ok f => exact absurd hx (h.field f)
  | error e =>
    dsimp only
    rw [bind_of_ok symbols_run, hd]
    dsimp only
    rw [bind_of_ok symbols_run, if_neg (by simpa using h.methods)]

/-- However a conversion is written, it is lowered as one of a method of the enclosing type, of a type, or of an object. -/
theorem Converts.run {y : Point} (h : Converts c y k) : y.run c = k.lower c k.work := by
  cases h with
  | bare hl hp hf hm hd =>
    rw [Point.run, expr]
    exact bare_run hl hp hf hm hd
  | ofType ht ho hd =>
    rw [Point.run, expr, bind_of_ok ht]
    exact staticMember_run ho hd
  | @ofObject target name dt d called w w₁ t a ht hr hn ho hd =>
    obtain ⟨v, hv, -⟩ := receiver_ok hr
    have hd₁ : w₁.symbols.delegate? (some dt) = some d := by
      rw [(extends_stepwise.expr none false target hv).delegate?, hd]
    rw [Point.run, expr, bind_of_ok ht]
    dsimp only
    rw [bind_of_ok symbols_run, hd]
    simp only [Option.isSome_some, Bool.not_true]
    rw [bind_of_ok hr]
    exact instanceMember_run hn ho hd₁
  | reference hr =>
    rw [Point.run, expr]
    exact hr.run
  | wrapped hl hd hr =>
    obtain ⟨d, hd⟩ := Option.isSome_iff_exists.mp hd
    rw [Point.run, expr, bind_of_ok hl, bind_of_ok symbols_run, hd]
    dsimp only
    rw [delegateOf, methodGroup]
    exact hr.run
  | wrappedName hl hd hr =>
    obtain ⟨d, hd⟩ := Option.isSome_iff_exists.mp hd
    rw [Point.run, expr, bind_of_ok hl, bind_of_ok symbols_run, hd]
    dsimp only
    rw [delegateOf, methodGroup, ← hr.run, expr]
  | wrappedMember hl hd hr =>
    obtain ⟨d, hd⟩ := Option.isSome_iff_exists.mp hd
    rw [Point.run, expr, bind_of_ok hl, bind_of_ok symbols_run, hd]
    dsimp only
    rw [delegateOf, methodGroup]
    exact hr.run

end Lower

/-! ### What is chosen and what is recorded -/

/-- Instructions have been recorded that stand, in their long forms, for `is`. -/
def Work.Adds (w w' : Work) (is : List Instr) : Prop :=
  ∃ js, w'.draft.code.toList = w.draft.code.toList ++ js ∧ js.map Instr.expanded = is

namespace Lower

variable {c : Scope} {w w₁ w₂ : Work} {k : Conversion} {p : Pushed} {u : Unit}

theorem adds_trans {is js : List Instr} (h : w.Adds w₁ is) (h' : w₁.Adds w₂ js) : w.Adds w₂ (is ++ js) := by
  obtain ⟨a, ha, rfl⟩ := h
  obtain ⟨b, hb, rfl⟩ := h'
  exact ⟨a ++ b, by rw [hb, ha, List.append_assoc], List.map_append⟩

theorem emit_adds {e : Emission} (h : emit e c w = .ok (u, w₁)) : w.Adds w₁ [e.long] := by
  obtain ⟨i, hi, hcode, -⟩ := emit_pushes h
  exact ⟨[i], by rw [hcode, Array.toList_push], by simp [Emission.encode_long hi]⟩

theorem staticFunction_adds {m : Method} (h : staticFunction m c w = .ok (u, w₁)) :
    w.Adds w₁ [{ op := .ldnull }, { op := .ldftn, operand := .method m }] := by
  obtain ⟨_, _, h1, h2⟩ := bind_ok.mp h
  exact adds_trans (emit_adds h1) (emit_adds h2)

theorem boundFunction_adds {recv : Ty} {m : Method} (h : boundFunction recv m c w = .ok (u, w₁)) :
    w.Adds w₁ (Conversion.boundCode recv m) := by
  unfold boundFunction at h
  unfold Conversion.boundCode
  split at h
  · rename_i hv
    obtain ⟨_, _, h1, h2⟩ := bind_ok.mp h
    obtain ⟨_, _, h2, h3⟩ := bind_ok.mp h2
    rw [if_pos hv]
    exact adds_trans (emit_adds h1) (adds_trans (emit_adds h2) (emit_adds h3))
  · rename_i hv
    obtain ⟨_, _, h2, h3⟩ := bind_ok.mp h
    rw [if_neg hv, List.nil_append]
    exact adds_trans (emit_adds h2) (emit_adds h3)

theorem makeDelegate_adds {dt : Ty} {d : Delegate} (h : makeDelegate dt d c w = .ok (p, w₁)) :
    p = { type := some dt } ∧ w.Adds w₁ [{ op := .newobj, operand := .ctor d.ctor }] := by
  obtain ⟨_, _, h1, h2⟩ := bind_ok.mp h
  obtain ⟨rfl, rfl⟩ := pure_ok.mp h2
  exact ⟨rfl, emit_adds h1⟩

theorem delegateTarget_ok {t dt : Ty} {name : Text} {only : Option Bool} {d : Delegate} {m : Method}
    (h : delegateTarget t name only dt d c w = .ok (m, w₁)) :
    w.symbols.delegateTarget c.roles.object t name only d dt = .ok m ∧ w = w₁ := by
  obtain ⟨_, _, h1, h2⟩ := bind_ok.mp h
  obtain ⟨rfl, rfl⟩ := symbols_ok.mp h1
  obtain ⟨_, _, h2, h3⟩ := bind_ok.mp h2
  obtain ⟨rfl, rfl⟩ := read_ok.mp h2
  exact ofExcept_ok.mp h3

namespace Conversion

/-- The static or other methods that can be taken, where not both. -/
def only (k : Conversion) (c : Scope) : Option Bool :=
  match k.source with
  | .own => if c.isStatic then some true else none
  | .type _ => some true
  | .object _ => some false

/-- The method that is taken: the first that fits. -/
def Chooses (k : Conversion) (c : Scope) (m : Method) : Prop :=
  k.work.symbols.delegateTarget c.roles.object (k.owner c) k.name (k.only c) k.delegate k.type = .ok m

theorem Chooses.fits {m : Method} (h : k.Chooses c m) : k.Fits c m := by
  obtain ⟨hm, hst, hp, hr⟩ := Symbols.delegateTarget_mem h
  refine ⟨Symbols.mem_methodsAlong.mpr hm, ?_, hp, hr⟩
  unfold admits
  unfold only at hst
  cases hs : k.source with
  | own =>
    rw [hs] at hst
    cases hc : c.isStatic with
    | true => simpa using hst true (by simp [hc])
    | false => simp
  | type t =>
    rw [hs] at hst
    exact hst true rfl
  | object t =>
    rw [hs] at hst
    simpa using hst false rfl

/-- A conversion that is lowered takes a method that fits, and records the code that makes a delegate of it. -/
theorem lower_ok (h : k.lower c k.work = .ok (p, w₁)) :
    ∃ m, k.Chooses c m ∧ p = { type := some k.type } ∧ k.work.Adds w₁ (k.code c m) := by
  obtain ⟨dt, d, name, source, w⟩ := k
  cases source with
  | own =>
    obtain ⟨_, _, hread, hrest⟩ := bind_ok.mp h
    obtain ⟨rfl, rfl⟩ := read_ok.mp hread
    obtain ⟨m, _, htarget, hmake⟩ := bind_ok.mp hrest
    obtain ⟨hm, rfl⟩ := delegateTarget_ok htarget
    refine ⟨m, hm, ?_⟩
    cases hst : m.isStatic with
    | true =>
      rw [hst, if_pos rfl] at hmake
      obtain ⟨_, _, hf, hd⟩ := bind_ok.mp hmake
      obtain ⟨hp, hadds⟩ := makeDelegate_adds hd
      rw [code, hst, if_pos rfl]
      exact ⟨hp, adds_trans (staticFunction_adds hf) hadds⟩
    | false =>
      rw [hst, if_neg Bool.false_ne_true] at hmake
      obtain ⟨_, _, hthis, hbound⟩ := bind_ok.mp hmake
      obtain ⟨_, _, hf, hd⟩ := bind_ok.mp hbound
      obtain ⟨hp, hadds⟩ := makeDelegate_adds hd
      rw [code, hst, if_neg Bool.false_ne_true]
      exact ⟨hp, adds_trans (adds_trans (emit_adds hthis) (boundFunction_adds hf)) hadds⟩
  | type t =>
    obtain ⟨m, _, htarget, hmake⟩ := bind_ok.mp h
    obtain ⟨hm, rfl⟩ := delegateTarget_ok htarget
    obtain ⟨_, _, hf, hd⟩ := bind_ok.mp hmake
    obtain ⟨hp, hadds⟩ := makeDelegate_adds hd
    have hst : m.isStatic = true := (Symbols.delegateTarget_mem hm).2.1 true rfl
    refine ⟨m, hm, hp, ?_⟩
    rw [code, hst, if_pos rfl]
    exact adds_trans (staticFunction_adds hf) hadds
  | object t =>
    obtain ⟨m, _, htarget, hmake⟩ := bind_ok.mp h
    obtain ⟨hm, rfl⟩ := delegateTarget_ok htarget
    obtain ⟨_, _, hf, hd⟩ := bind_ok.mp hmake
    obtain ⟨hp, hadds⟩ := makeDelegate_adds hd
    have hst : m.isStatic = false := (Symbols.delegateTarget_mem hm).2.1 false rfl
    refine ⟨m, hm, hp, ?_⟩
    rw [code, hst, if_neg Bool.false_ne_true]
    exact adds_trans (boundFunction_adds hf) hadds

end Conversion

/-! ### Where conversions stand -/

/-- What is known where a method is converted: only array types have been entered since types were declared, the
    delegate is that of a type, and an object that the method is taken from has a type. -/
structure Conversion.Located (k : Conversion) (Γ : Setting) : Prop where
  reads : Γ.Reads k.work.symbols
  delegate : ∃ t, Γ.symbols.delegate? (some t) = some k.delegate
  object : ∀ {t : Ty}, k.source = .object t → Γ.Holds t

section Sound
variable {Γ : Setting} {S : List Slot} (hΓ : Γ.Ok)
include hΓ

theorem receiver_located {target : Expr} {name : Text} {t : Ty} {a : Bool} (hn : ∀ n ∈ target.typeNames, Γ.Named n)
    (h : Γ.Sound w S) (hr : receiver (expr target none false) name Γ.scope w = .ok ((t, a), w₁)) :
    Γ.Reads w₁.symbols ∧ Γ.Holds t := by
  obtain ⟨-, hT, -, hs⟩ := Setting.receiver_pushes (fun hp => Setting.expr_pushes hΓ target hn (Setting.no_hint Γ) h hp) hr
  exact ⟨hs.reads, hT⟩

theorem Refers.located {target : Expr} {name spelling : Text} {hint : Option Ty} (hn : ∀ n ∈ target.typeNames, Γ.Named n)
    (hs : spelling.isEmpty = false → Γ.Named spelling) (hh : ∀ t, hint = some t → Γ.Admits t) (h : Γ.Sound w S)
    (hr : Refers Γ.scope target name spelling hint w k) : k.Located Γ := by
  cases hr with
  | own hd _ =>
    obtain ⟨-, h, -, hdel⟩ := Setting.delegateType_admits hh hs h hd
    exact ⟨h.reads, ⟨_, hdel⟩, fun ht => by cases ht⟩
  | type hd _ _ =>
    obtain ⟨-, h, -, hdel⟩ := Setting.delegateType_admits hh hs h hd
    exact ⟨h.reads, ⟨_, hdel⟩, fun ht => by cases ht⟩
  | object hd _ _ hr =>
    obtain ⟨-, h, -, hdel⟩ := Setting.delegateType_admits hh hs h hd
    obtain ⟨hreads, hT⟩ := receiver_located hΓ hn h hr
    exact ⟨hreads, ⟨_, hdel⟩, fun ht => by cases ht; exact hT⟩

theorem Converts.located {y : Point} (hy : Γ.Fits y) (h : Converts Γ.scope y k) : k.Located Γ := by
  obtain ⟨hn, hh, S, hs⟩ := hy
  have hdelegate : ∀ {w : Work} {t : Ty} {d : Delegate}, Γ.Reads w.symbols → w.symbols.delegate? (some t) = some d →
      ∃ t, Γ.symbols.delegate? (some t) = some d := fun {_ t _} hr hd => ⟨t, by rw [← hr.grown.delegate?]; exact hd⟩
  cases h with
  | bare _ _ _ _ hd => exact ⟨hs.reads, hdelegate hs.reads hd, fun ht => by cases ht⟩
  | ofType _ _ hd => exact ⟨hs.reads, hdelegate hs.reads hd, fun ht => by cases ht⟩
  | ofObject _ hr _ _ hd =>
    obtain ⟨hreads, hT⟩ := receiver_located hΓ (fun n hm => hn n (by rw [Expr.typeNames]; exact hm)) hs hr
    exact ⟨hreads, hdelegate hs.reads hd, fun ht => by cases ht; exact hT⟩
  | reference hr =>
    simp only [Expr.typeNames, List.mem_append] at hn
    exact hr.located hΓ (fun n hm => hn n (.inr hm)) (fun he => hn _ (.inl (by simp [he]))) hh hs
  | wrapped hl _ hr =>
    simp only [Expr.typeNames, Expr.typeNamesAll, List.mem_cons, List.mem_append, List.append_nil] at hn
    obtain ⟨ht, -, hs⟩ := hs.lookupType (hn _ (.inl rfl)) hl
    exact hr.located hΓ (fun n hm => hn n (.inr (.inr hm))) (fun he => hn _ (.inr (.inl (by simp [he]))))
      (fun t ht' => by cases ht'; exact ht) hs
  | wrappedName hl _ hr =>
    simp only [Expr.typeNames, List.mem_cons] at hn
    obtain ⟨ht, -, hs⟩ := hs.lookupType (hn _ (.inl rfl)) hl
    exact hr.located hΓ (fun n hm => by rw [Expr.typeNames] at hm; cases hm) (fun he => absurd he (by decide))
      (fun t ht' => by cases ht'; exact ht) hs
  | wrappedMember hl _ hr =>
    simp only [Expr.typeNames, Expr.typeNamesAll, List.mem_cons, List.append_nil] at hn
    obtain ⟨ht, -, hs⟩ := hs.lookupType (hn _ (.inl rfl)) hl
    exact hr.located hΓ (fun n hm => hn n (.inr hm)) (fun he => absurd he (by decide))
        (fun t ht' => by cases ht'; exact ht) hs

end Sound
end Lower
end CilCompiler
