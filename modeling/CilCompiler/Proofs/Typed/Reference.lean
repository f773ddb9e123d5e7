import CilCompiler.Proofs.Typed.Work

/-!
Typed names and references. `Setting.Pushes` is what lowering an expression comes to: labels and names are as
they were, and one value of the type that lowering says is on top of the stack. This module has it for names,
fields, methods as delegates, and calls; where an operand is an expression, it is assumed of the operand.
-/

namespace CilCompiler
namespace Setting

/-- No array has elements that count as nothing. -/
def Voidless (Γ : Setting) : Prop := ∀ {e : Ty}, Γ.Admits (.array e) → e.isVoid = false

/-- What lowering an expression does. A void one leaves nothing; where elements can be void, that is so only on
    an empty stack, if no address is asked for. -/
structure Pushes (Γ : Setting) (w : Work) (S : List Slot) (called : Bool) (p : Pushed) (w' : Work) : Prop where
  kept : w.Kept w'
  admits : ∀ {t : Ty}, p.type = some t → Γ.Admits t
  address : p.isAddress = true → called = true ∧ ∃ t, p.type = some t ∧ t.isValue = true
  value : Ty.isVoidOpt p.type = false → Γ.Sound w' (p.slot :: S)
  void : Ty.isVoidOpt p.type = true → called = false ∧ S = [] ∨ Γ.Voidless → Γ.Sound w' S

/-- What lowering an expression that has a value does. -/
structure Yields (Γ : Setting) (w : Work) (S : List Slot) (called : Bool) (p : Pushed) (w' : Work) : Prop extends
    Γ.Pushes w S called p w' where
  notVoid : Ty.isVoidOpt p.type = false

/-- What lowering arguments does. -/
def Supplies (Γ : Setting) (args : Lower.Arguments) : Prop :=
  ∀ {hints types : List (Option Ty)} {w w' : Work} {S : List Slot}, (∀ t, some t ∈ hints → Γ.Admits t) → Γ.Sound w S →
    args.push hints Γ.scope w = .ok (types, w') →
    w.Kept w' ∧ Γ.Sound w' (Slot.arguments types ++ S) ∧ ∀ t, some t ∈ types → Γ.Holds t

variable {Γ : Setting} {w w₁ w' : Work} {S : List Slot} {called : Bool} {t : Ty} {m : Method} {f : Field} {u : Unit}

namespace Yields

theorem of_value (hk : w.Kept w') (ht : Γ.Holds t) (hs : Γ.Sound w' (.value (some t) :: S)) :
    Γ.Yields w S called { type := some t } w' := by
  refine ⟨⟨hk, fun h => by cases h; exact ht.admits, fun h => (by cases h), fun _ => hs, fun hv => ?_⟩, ht.notVoid⟩
  rw [show Ty.isVoidOpt (some t) = t.isVoid from rfl, ht.notVoid] at hv
  cases hv

theorem of_address (hk : w.Kept w') (ht : Γ.Holds t) (hv : t.isValue = true) (hs : Γ.Sound w' (.address t :: S)) :
    Γ.Yields w S true { type := some t, isAddress := true } w' :=
  ⟨⟨hk, fun h => by cases h; exact ht.admits, fun _ => ⟨rfl, t, rfl, hv⟩, fun _ => hs,
    fun h _ => absurd (ht.notVoid.symm.trans h) Bool.false_ne_true⟩, ht.notVoid⟩

theorem of_null (hk : w.Kept w') (hs : Γ.Sound w' (.value none :: S)) : Γ.Yields w S called { type := none } w' :=
  ⟨⟨hk, fun h => (by cases h), fun h => (by cases h), fun _ => hs, fun h => (by cases h)⟩, rfl⟩

end Yields

namespace Pushes

/-- What a call pushes. -/
theorem of_result (hk : w.Kept w') (hr : m.ret = some t) (ht : Γ.Admits t) (hs : Γ.Sound w' (m.result ++ S)) :
    Γ.Pushes w S called { type := m.ret } w' := by
  have hv : m.returnsVoid = t.isVoid := by simp [Method.returnsVoid, hr]
  rw [Method.result, hv, hr] at hs
  rw [hr]
  refine ⟨hk, fun h => by cases h; exact ht, fun h => (by cases h), fun h => ?_, fun h _ => ?_⟩
  · rw [if_neg (by rw [show t.isVoid = false from h]; exact Bool.false_ne_true)] at hs
    exact hs
  · rw [if_pos (show t.isVoid = true from h)] at hs
    exact hs

theorem after (hk : w.Kept w₁) {p : Pushed} (h : Γ.Pushes w₁ S called p w') : Γ.Pushes w S called p w' :=
  ⟨hk.trans h.kept, h.admits, h.address, h.value, h.void⟩

end Pushes

theorem Yields.after (hk : w.Kept w₁) {p : Pushed} (h : Γ.Yields w₁ S called p w') : Γ.Yields w S called p w' :=
  ⟨.after hk h.toPushes, h.notVoid⟩

/-! ### Members of admitted types -/

theorem MethodOn.of_mem (ht : Γ.Admits t) {c : Ty} (hc : c ∈ Ty.lineage Γ.scope.roles.object t)
    (h : Γ.Sound w S) (hm : m ∈ w.symbols.allMethods c) : Γ.MethodOn t m := by
  rw [h.reads.grown.allMethods] at hm
  exact ⟨ht, c, hc, hm⟩

theorem MethodOn.ret (hΓ : Γ.Ok) (h : Γ.MethodOn t m) : ∃ r, m.ret = some r ∧ Γ.Admits r := by
  obtain ⟨-, c, -, hm⟩ := h
  exact hΓ.ret? hm

theorem MethodOn.params (hΓ : Γ.Ok) (h : Γ.MethodOn t m) : ∀ p ∈ m.params, ∃ t, p = some t ∧ Γ.Holds t := by
  obtain ⟨-, c, -, hm⟩ := h
  exact hΓ.params (.inl hm)

theorem MethodOn.own (hΓ : Γ.Ok) (h : Γ.Sound w S) {n : Text} (hm : m ∈ w.symbols.methodsOf Γ.scope.owner n) :
    Γ.MethodOn Γ.scope.owner m := by
  refine .of_mem hΓ.owner.admits ?_ h (Symbols.mem_methodsOf.mp hm).1
  have hself : Γ.scope.owner ∈ Γ.scope.owner.chain := by cases Γ.scope.owner <;> simp [Ty.chain]
  unfold Ty.lineage
  split
  · exact hself
  · exact List.mem_append_left _ hself

theorem FieldOn.of_fieldAlong (ht : Γ.Admits t) (h : Γ.Sound w S) {n : Text}
    (hf : w.symbols.fieldAlong Γ.scope.roles.object t n = .ok f) : Γ.FieldOn t f := by
  obtain ⟨c, hc, hm⟩ := Symbols.fieldAlong_mem hf
  rw [h.reads.grown.fieldsOf] at hm
  exact ⟨ht, c, hc, hm⟩

theorem FieldOn.type (hΓ : Γ.Ok) (h : Γ.FieldOn t f) : ∃ u, f.type = some u ∧ Γ.Holds u := by
  obtain ⟨-, c, -, hm⟩ := h
  exact hΓ.field hm

/-- A method that a call resolves to. -/
theorem MethodOn.of_resolve (hΓ : Γ.Ok) (ht : Γ.Admits t) (h : Γ.Sound w S) {n : Text} {args : List (Option Ty)}
    {isStatic : Bool} (hr : w.symbols.resolve Γ.scope.roles.object t n args isStatic = .ok m) :
    Γ.MethodOn t m ∧ m.isStatic = isStatic ∧ Ty.fits m.params args = true := by
  obtain ⟨c, hc, hm, -, hst, hp⟩ := Symbols.resolveAlong_mem hr
  have hon := MethodOn.of_mem ht hc h hm
  refine ⟨hon, hst, ?_⟩
  rcases hp with hp | hp
  · exact Ty.fits_of_sameList (fun p hp => (hon.params hΓ p hp).imp fun _ h => h.1) hp
  · exact hp

/-- What the arguments of a call can be is admitted. -/
theorem hints_admitted {ms : List Method} {arity : Nat}
    (hm : ∀ m ∈ ms, ∀ p ∈ m.params, ∃ t, p = some t ∧ Γ.Holds t) (t : Ty) (h : some t ∈ Ty.hints ms arity) :
    Γ.Admits t := by
  obtain ⟨m, hmem, hp⟩ := Ty.mem_hints h
  obtain ⟨u, hu, hU⟩ := hm m hmem _ hp
  cases hu
  exact hU.admits

/-! ### Names and fields -/

/-- Loads a static field, or a field of the object on the stack. -/
theorem loadField_yields (hΓ : Γ.Ok) (hf : Γ.FieldOn t f) {p : Pushed} {s : List Slot}
    (hs : f.isStatic = true ∧ s = [] ∨ f.isStatic = false ∧ (s = [.value (some t)] ∨ s = [.address t]))
    (h : Γ.Sound w (s ++ S)) (hl : Lower.loadField f called Γ.scope w = .ok (p, w')) : Γ.Yields w S called p w' := by
  obtain ⟨r, hr, hR⟩ := hf.type hΓ
  simp only [Lower.loadField, Lower.bind_ok, Lower.pure_ok] at hl
  obtain ⟨_, w₁, he, rfl, rfl⟩ := hl
  rcases hs with ⟨hst, rfl⟩ | ⟨hst, hs⟩
  · by_cases ha : (called && f.type.any Ty.isValue) = true
    · rw [ha, hst] at he
      have hv : called = true ∧ r.isValue = true := by simpa [hr] using ha
      obtain ⟨hk, h⟩ := h.emit he fun _ => .staticFieldAddress hst hf hr hv.2
      rw [ha, hr, hv.1]
      exact .of_address hk hR hv.2 h
    · rw [Bool.not_eq_true] at ha
      rw [ha, hst] at he
      obtain ⟨hk, h⟩ := h.emit he fun _ => .staticField hst hf
      rw [ha, hr]
      rw [hr] at h
      exact .of_value hk hR h
  · have hs : ∃ x, s = [x] ∧ (x = .value (some t) ∨ x = .address t) := by
      rcases hs with rfl | rfl
      · exact ⟨_, rfl, .inl rfl⟩
      · exact ⟨_, rfl, .inr rfl⟩
    obtain ⟨x, rfl, hx⟩ := hs
    by_cases ha : (called && f.type.any Ty.isValue) = true
    · rw [ha, hst] at he
      have hv : called = true ∧ r.isValue = true := by simpa [hr] using ha
      obtain ⟨hk, h⟩ := h.emit he fun _ => .fieldAddress hst hf hx hr hv.2
      rw [ha, hr, hv.1]
      exact .of_address hk hR hv.2 h
    · rw [Bool.not_eq_true] at ha
      rw [ha, hst] at he
      obtain ⟨hk, h⟩ := h.emit he fun _ => .field hst hf hx
      rw [ha, hr]
      rw [hr] at h
      exact .of_value hk hR h

/-- What an operand leaves in front of a dot: an object or a value, or the address of a value that was asked
    for. -/
theorem receiver_pushes {operand : Lower Pushed} {member : Text} {a : Bool}
    (ho : ∀ {p w'}, operand Γ.scope w = .ok (p, w') → Γ.Pushes w S called p w')
    (hr : Lower.receiver operand member Γ.scope w = .ok ((t, a), w')) :
    w.Kept w' ∧ Γ.Holds t ∧ (a = true → called = true ∧ t.isValue = true) ∧
      Γ.Sound w' (Pushed.slot { type := some t, isAddress := a } :: S) := by
  obtain ⟨v, w₁, hv, hr⟩ := Lower.bind_ok.mp hr
  have hp := ho hv
  cases ht : v.type with
  | none =>
    rw [ht] at hr
    cases hr
  | some t' =>
    rw [ht] at hr
    dsimp only at hr
    split at hr
    · cases hr
    · rename_i hvoid
      rw [Bool.not_eq_true] at hvoid
      obtain ⟨he, rfl⟩ := Lower.pure_ok.mp hr
      cases he
      have hslot : v = { type := some t, isAddress := v.isAddress } := by rw [← ht]
      refine ⟨hp.kept, ⟨hp.admits ht, hvoid⟩, fun ha => ?_, ?_⟩
      · obtain ⟨hc, u, hu, huv⟩ := hp.address ha
        cases ht.symm.trans hu
        exact ⟨hc, huv⟩
      · rw [← hslot]
        exact hp.value (by rw [ht]; exact hvoid)

/-! ### Methods as delegates -/

/-- The delegate type of a method reference is the one it names, or else the one that is wanted. -/
theorem delegateType_cases {hint : Option Ty} {spelling name : Text} {c : Scope} {d : Delegate}
    (hd : Lower.delegateType hint spelling name c w = .ok ((t, d), w')) :
    (spelling.isEmpty = true ∧ hint = some t ∧ w' = w ∨
      spelling.isEmpty = false ∧ Lower.lookupType spelling c w = .ok (t, w')) ∧ w'.symbols.delegate? (some t) = some d := by
  unfold Lower.delegateType at hd
  dsimp only at hd
  split at hd
  · rename_i hs
    obtain ⟨wanted, w₁, hw, hd⟩ := Lower.bind_ok.mp hd
    obtain ⟨rfl, rfl⟩ := Lower.pure_ok.mp hw
    cases hint with
    | none => cases hd
    | some u =>
      obtain ⟨s, w₁, hsymbols, hd⟩ := Lower.bind_ok.mp hd
      obtain ⟨rfl, rfl⟩ := Lower.symbols_ok.mp hsymbols
      cases hu : w.symbols.delegate? (some u) with
      | none =>
        rw [hu] at hd
        cases hd
      | some d' =>
        rw [hu] at hd
        obtain ⟨he, rfl⟩ := Lower.pure_ok.mp hd
        cases he
        exact ⟨.inl ⟨hs, rfl, rfl⟩, hu⟩
  · rename_i hs
    obtain ⟨wanted, w₁, hw, hd⟩ := Lower.bind_ok.mp hd
    obtain ⟨u, w₂, hl, rfl, rfl⟩ := Lower.map_ok.mp hw
    obtain ⟨s, w₁, hsymbols, hd⟩ := Lower.bind_ok.mp hd
    obtain ⟨rfl, rfl⟩ := Lower.symbols_ok.mp hsymbols
    cases hu : w₂.symbols.delegate? (some u) with
    | none =>
      rw [hu] at hd
      cases hd
    | some d' =>
      rw [hu] at hd
      obtain ⟨he, rfl⟩ := Lower.pure_ok.mp hd
      cases he
      exact ⟨.inr ⟨by simpa using hs, hl⟩, hu⟩

/-- The delegate type of a method reference is admitted. -/
theorem delegateType_admits {hint : Option Ty} {spelling name : Text} {d : Delegate} (hh : ∀ t, hint = some t → Γ.Admits t)
    (hn : spelling.isEmpty = false → Γ.Named spelling) (h : Γ.Sound w S)
    (hd : Lower.delegateType hint spelling name Γ.scope w = .ok ((t, d), w')) :
    w.Kept w' ∧ Γ.Sound w' S ∧ Γ.Admits t ∧ Γ.symbols.delegate? (some t) = some d := by
  obtain ⟨⟨-, rfl, rfl⟩ | ⟨hs, hl⟩, hdel⟩ := delegateType_cases hd
  · rw [h.reads.grown.delegate?] at hdel
    exact ⟨.refl _, h, hh t rfl, hdel⟩
  · obtain ⟨ht, hk, h⟩ := h.lookupType (hn hs) hl
    rw [h.reads.grown.delegate?] at hdel
    exact ⟨hk, h, ht, hdel⟩

/-- The method a delegate is made of. -/
theorem delegateTarget_on {name : Text} {only : Option Bool} {dt : Ty} {d : Delegate} (ht : Γ.Admits t) (h : Γ.Sound w S)
    (hd : Lower.delegateTarget t name only dt d Γ.scope w = .ok (m, w')) :
    w' = w ∧ Γ.MethodOn t m ∧ (∀ b, only = some b → m.isStatic = b) ∧ Ty.sameList m.params d.params = true ∧
      Ty.same m.ret d.ret = true := by
  simp only [Lower.delegateTarget, Lower.bind_ok, Lower.symbols_ok, Lower.read_ok, Lower.ofExcept_ok] at hd
  obtain ⟨_, _, ⟨rfl, rfl⟩, _, _, ⟨rfl, rfl⟩, hd, rfl⟩ := hd
  obtain ⟨⟨c, hc, hm, -⟩, hst, hp, hr⟩ := Symbols.delegateTarget_mem hd
  exact ⟨rfl, .of_mem ht hc h hm, hst, hp, hr⟩

theorem staticFunction_sound (hm : Γ.MethodOn t m) (hst : m.isStatic = true) (h : Γ.Sound w S)
    (hf : Lower.staticFunction m Γ.scope w = .ok (u, w')) :
    w.Kept w' ∧ Γ.Sound w' (.static m :: .value none :: S) := by
  obtain ⟨_, w₁, h1, h2⟩ := Lower.bind_ok.mp hf
  obtain ⟨k1, h⟩ := h.emit h1 fun _ => .null
  obtain ⟨k2, h⟩ := h.emit h2 fun _ => .staticPointer hst hm
  exact ⟨k1.trans k2, h⟩

theorem boundFunction_sound (hm : Γ.MethodOn t m) (hst : m.isStatic = false)
    (h : Γ.Sound w (.value (some t) :: S)) (hf : Lower.boundFunction t m Γ.scope w = .ok (u, w')) :
    w.Kept w' ∧ ∃ s, Γ.Sound w' (.bound m :: s :: S) := by
  -- With the object or the box on top, what is left is the same.
  have taken : ∀ {w₁ w₂ : Work} {s : Slot} {u : Unit}, Γ.Sound w₁ (s :: S) → Target t s →
      Lower.emit (.plain .dup) Γ.scope w₁ = .ok (u, w₂) → Lower.emit (.method .ldvirtftn m) Γ.scope w₂ = .ok (u, w') →
      w₁.Kept w' ∧ Γ.Sound w' (.bound m :: s :: S) := by
    intro w₁ w₂ s u h hs h1 h2
    obtain ⟨k1, h⟩ := h.emit h1 fun _ => .dup hs
    obtain ⟨k2, h⟩ := h.emit h2 fun _ => .boundPointer hst hm hs
    exact ⟨k1.trans k2, h⟩
  unfold Lower.boundFunction at hf
  dsimp only at hf
  split at hf
  · rename_i hv
    obtain ⟨_, w₁, h0, hf⟩ := Lower.bind_ok.mp hf
    obtain ⟨_, w₂, h1, h2⟩ := Lower.bind_ok.mp hf
    obtain ⟨k0, h⟩ := h.emit h0 fun _ => .box hm.1 hv
    obtain ⟨k, h⟩ := taken h (.boxed hv) h1 h2
    exact ⟨k0.trans k, _, h⟩
  · rename_i hv
    obtain ⟨_, w₂, h1, h2⟩ := Lower.bind_ok.mp hf
    obtain ⟨k, h⟩ := taken h (.object (by simpa using hv)) h1 h2
    exact ⟨k, _, h⟩

/-- A method and its object become a delegate. -/
theorem makeDelegate_yields (hΓ : Γ.Ok) {d : Delegate} {p : Pushed} {x s : Slot} (ht : Γ.Admits t)
    (hd : Γ.symbols.delegate? (some t) = some d) (hp : Ty.sameList m.params d.params = true)
    (hr : Ty.same m.ret d.ret = true) (hx : x = .static m ∧ s = .value none ∨ x = .bound m)
    (h : Γ.Sound w (x :: s :: S)) (hm : Lower.makeDelegate t d Γ.scope w = .ok (p, w')) : Γ.Yields w S called p w' := by
  simp only [Lower.makeDelegate, Lower.bind_ok, Lower.pure_ok] at hm
  obtain ⟨_, w₁, he, rfl, rfl⟩ := hm
  obtain ⟨hvoid, htwo⟩ := hΓ.delegate hd
  obtain ⟨hk, h⟩ := h.emit he fun _ => .delegate ht hd htwo hp hr hx
  exact .of_value hk ⟨ht, hvoid⟩ h

section
variable {name : Text} {dt : Ty} {d : Delegate} {p : Pushed}

theorem ownReference_yields (hΓ : Γ.Ok) (ht : Γ.Admits dt) (hd : Γ.symbols.delegate? (some dt) = some d)
    (h : Γ.Sound w S) (hr : Lower.ownReference name dt d Γ.scope w = .ok (p, w')) : Γ.Yields w S called p w' := by
  simp only [Lower.ownReference, Lower.bind_ok, Lower.read_ok, Lower.ite_ok] at hr
  obtain ⟨_, _, ⟨rfl, rfl⟩, m, w₁, hm, hr⟩ := hr
  obtain ⟨rfl, hon, honly, hp, hret⟩ := delegateTarget_on hΓ.owner.admits h hm
  rcases hr with ⟨hst, _, w₂, hf, hr⟩ | ⟨hst, _, w₂, h1, _, w₃, h2, hr⟩
  · obtain ⟨hk, h⟩ := staticFunction_sound hon hst h hf
    exact .after hk (makeDelegate_yields hΓ ht hd hp hret (.inl ⟨rfl, rfl⟩) h hr)
  · rw [Bool.not_eq_true] at hst
    -- In a static method only static methods count.
    have hinst : Γ.scope.isStatic = false := by
      by_contra hc
      rw [Bool.not_eq_false] at hc
      have := honly true (by rw [if_pos hc])
      rw [hst] at this
      cases this
    obtain ⟨k1, h⟩ := h.loadThis hinst h1
    obtain ⟨k2, s, h⟩ := boundFunction_sound hon hst h h2
    exact .after (k1.trans k2) (makeDelegate_yields hΓ ht hd hp hret (.inr rfl) h hr)

theorem typeReference_yields (hΓ : Γ.Ok) (ha : Γ.Admits t) (ht : Γ.Admits dt)
    (hd : Γ.symbols.delegate? (some dt) = some d) (h : Γ.Sound w S)
    (hr : Lower.typeReference t name dt d Γ.scope w = .ok (p, w')) : Γ.Yields w S called p w' := by
  simp only [Lower.typeReference, Lower.bind_ok] at hr
  obtain ⟨m, w₁, hm, _, w₂, hf, hr⟩ := hr
  obtain ⟨rfl, hon, honly, hp, hret⟩ := delegateTarget_on ha h hm
  obtain ⟨hk, h⟩ := staticFunction_sound hon (honly true rfl) h hf
  exact .after hk (makeDelegate_yields hΓ ht hd hp hret (.inl ⟨rfl, rfl⟩) h hr)

theorem boundReference_yields (hΓ : Γ.Ok) (ha : Γ.Admits t) (ht : Γ.Admits dt)
    (hd : Γ.symbols.delegate? (some dt) = some d) (h : Γ.Sound w (.value (some t) :: S))
    (hr : Lower.boundReference t name dt d Γ.scope w = .ok (p, w')) : Γ.Yields w S called p w' := by
  simp only [Lower.boundReference, Lower.bind_ok] at hr
  obtain ⟨m, w₁, hm, _, w₂, hf, hr⟩ := hr
  obtain ⟨rfl, hon, honly, hp, hret⟩ := delegateTarget_on ha h hm
  obtain ⟨hk, s, h⟩ := boundFunction_sound hon (honly false rfl) h hf
  exact .after hk (makeDelegate_yields hΓ ht hd hp hret (.inr rfl) h hr)

/-- A type that an expression names has been entered. -/
theorem typeTarget_admits {e : Expr} {o : Option Ty} (h : Γ.Sound w S)
    (ht : Lower.typeTarget e Γ.scope w = .ok (o, w')) : w' = w ∧ ∀ t, o = some t → Γ.Admits t := by
  have named : ∀ {n : Text} {t : Ty}, w.symbols.entered? n = some t → Γ.Admits t := fun he => h.reads.admits he
  cases e with
  | ident n =>
    simp only [Lower.typeTarget, Lower.bind_ok, Lower.symbols_ok, Lower.pure_ok] at ht
    obtain ⟨_, _, ⟨rfl, rfl⟩, rfl, rfl⟩ := ht
    exact ⟨rfl, fun t ht => named ht⟩
  | _ =>
    simp only [Lower.typeTarget, Lower.pure_ok] at ht
    obtain ⟨rfl, rfl⟩ := ht
    exact ⟨rfl, fun t ht => (by cases ht)⟩

theorem reference_yields (hΓ : Γ.Ok) {target : Expr} {operand : Lower Pushed} {spelling : Text} {hint : Option Ty}
    (ho : target.isMissing = false → ∀ {w S p w'}, Γ.Sound w S → operand Γ.scope w = .ok (p, w') → Γ.Pushes w S false p w')
    (hh : ∀ t, hint = some t → Γ.Admits t) (hn : spelling.isEmpty = false → Γ.Named spelling) (h : Γ.Sound w S)
    (hr : Lower.reference target operand name spelling hint Γ.scope w = .ok (p, w')) : Γ.Yields w S called p w' := by
  simp only [Lower.reference, Lower.bind_ok] at hr
  obtain ⟨⟨dt, d⟩, w₁, hty, hr⟩ := hr
  obtain ⟨k1, h, ht, hd⟩ := delegateType_admits hh hn h hty
  simp only [Lower.ite_ok, Lower.bind_ok] at hr
  rcases hr with ⟨-, hr⟩ | ⟨hm, o, w₂, htarget, hr⟩
  · exact .after k1 (ownReference_yields hΓ ht hd h hr)
  · obtain ⟨rfl, hadm⟩ := typeTarget_admits h htarget
    cases o with
    | some t => exact .after k1 (typeReference_yields hΓ (hadm t rfl) ht hd h hr)
    | none =>
      simp only [Lower.bind_ok] at hr
      obtain ⟨⟨t, a⟩, w₃, hrec, hr⟩ := hr
      obtain ⟨k2, hT, ha, h⟩ := receiver_pushes (fun {p w'} hp => ho (by simpa using hm) h hp) hrec
      cases a with
      | true => cases (ha rfl).1
      | false => exact .after (k1.trans k2) (boundReference_yields hΓ hT.admits ht hd h hr)

/-! ### Bare names -/

theorem local_mem {l : LocalSlot} (hl : w.local? name = some l) : ∃ n, (n, l) ∈ w.locals := by
  obtain ⟨⟨n, l'⟩, hf, rfl⟩ := Option.map_eq_some_iff.mp hl
  exact ⟨n, List.mem_of_find?_eq_some hf⟩

theorem param_mem {c : Scope} {i : Nat} (hp : c.param? name = some (i, t)) : ∃ n, (n, i, t) ∈ c.params := by
  obtain ⟨⟨n, i', t'⟩, hf, he⟩ := Option.map_eq_some_iff.mp hp
  cases he
  exact ⟨n, List.mem_of_find?_eq_some hf⟩

theorem loadLocal_yields (h : Γ.Sound w S) {l : LocalSlot} (hl : w.draft.locals[l.index]? = some l.type)
    (hp : (if called && l.type.isValue then do
        Lower.emit (.local .ldloca (some l))
        return { type := some l.type, isAddress := true }
      else do
        Lower.emit (.local .ldloc (some l))
        return { type := some l.type } : Lower Pushed) Γ.scope w = .ok (p, w')) : Γ.Yields w S called p w' := by
  have hT := h.locals hl
  simp only [Lower.ite_ok, Lower.bind_ok, Lower.pure_ok, Bool.and_eq_true] at hp
  rcases hp with ⟨⟨rfl, hv⟩, _, w₁, he, rfl, rfl⟩ | ⟨-, _, w₁, he, rfl, rfl⟩
  · obtain ⟨hk, h⟩ := h.emit he fun hi => .locAddress (Emission.local_le hi) hl hv
    exact .of_address hk hT hv h
  · obtain ⟨hk, h⟩ := h.emit he fun hi => .loc (Emission.local_le hi) hl
    exact .of_value hk hT h

theorem loadParam_yields (h : Γ.Sound w S) {i : Nat} (ha : Γ.scope.args[i]? = some t) (hT : Γ.Holds t)
    (hp : (if called && t.isValue then do
        Lower.emit (.arg .ldarga i)
        return { type := some t, isAddress := true }
      else do
        Lower.emit (.arg .ldarg i)
        return { type := some t } : Lower Pushed) Γ.scope w = .ok (p, w')) : Γ.Yields w S called p w' := by
  simp only [Lower.ite_ok, Lower.bind_ok, Lower.pure_ok, Bool.and_eq_true] at hp
  rcases hp with ⟨⟨rfl, hv⟩, _, w₁, he, rfl, rfl⟩ | ⟨-, _, w₁, he, rfl, rfl⟩
  · obtain ⟨hk, h⟩ := h.emit he fun hi => .argAddress (n := i) (Emission.arg_le hi) ha hv
    exact .of_address hk hT hv h
  · obtain ⟨hk, h⟩ := h.emit he fun hi => .arg (n := i) (Emission.arg_le hi) ha
    exact .of_value hk hT h

theorem ident_yields (hΓ : Γ.Ok) {hint : Option Ty} (hh : ∀ t, hint = some t → Γ.Admits t) (h : Γ.Sound w S)
    (hl : Lower.ident name hint called Γ.scope w = .ok (p, w')) : Γ.Yields w S called p w' := by
  simp only [Lower.ident, Lower.bind_ok, Lower.read_ok, Lower.local?_ok] at hl
  obtain ⟨_, _, ⟨rfl, rfl⟩, _, _, ⟨rfl, rfl⟩, hl⟩ := hl
  cases hloc : w.local? name with
  | some l =>
    rw [hloc] at hl
    obtain ⟨n, hn⟩ := local_mem hloc
    exact loadLocal_yields h (h.names hn) hl
  | none =>
    rw [hloc] at hl
    cases hpar : Γ.scope.param? name with
    | some it =>
      obtain ⟨i, t⟩ := it
      rw [hpar] at hl
      obtain ⟨n, hn⟩ := param_mem hpar
      obtain ⟨ha, hT⟩ := hΓ.arg hn
      exact loadParam_yields h ha hT hl
    | none =>
      simp only [hpar, Lower.bind_ok, Lower.fieldAlong_ok] at hl
      obtain ⟨_, _, ⟨rfl, rfl⟩, hl⟩ := hl
      cases hfield : w.symbols.fieldAlong Γ.scope.roles.object Γ.scope.owner name with
      | ok f =>
        have hf := FieldOn.of_fieldAlong hΓ.owner.admits h hfield
        simp only [hfield, Lower.ite_ok, Lower.bind_ok, Lower.requireInstance_ok] at hl
        rcases hl with ⟨hst, _, _, ⟨hi, rfl⟩, _, w₁, h1, hl⟩ | ⟨hst, hl⟩
        · obtain ⟨hk, h⟩ := h.loadThis hi h1
          exact .after hk (loadField_yields hΓ hf (.inr ⟨by simpa using hst, .inl rfl⟩) h hl)
        · exact loadField_yields hΓ hf (.inl ⟨by simpa using hst, rfl⟩) h hl
      | error e =>
        simp only [hfield, Lower.ite_ok, Lower.bind_ok, Lower.symbols_ok, Lower.fail_ok, and_false, false_or] at hl
        obtain ⟨_, _, ⟨rfl, rfl⟩, -, ⟨dt, d⟩, w₁, hty, hl⟩ := hl
        obtain ⟨hk, h, ht, hd⟩ := delegateType_admits hh (fun he => absurd he (by decide)) h hty
        exact .after hk (ownReference_yields hΓ ht hd h hl)

/-! ### Calls -/

theorem candidates_params (hΓ : Γ.Ok) (h : Γ.Sound w S) {isStatic : Bool} {arity : Nat} {hints : List (Option Ty)}
    (hh : Lower.hintsFor t name isStatic arity Γ.scope w = .ok (hints, w')) :
    w' = w ∧ ∀ u, some u ∈ hints → Γ.Admits u := by
  simp only [Lower.hintsFor, Lower.bind_ok, Lower.symbols_ok, Lower.read_ok, Lower.pure_ok] at hh
  obtain ⟨_, _, ⟨rfl, rfl⟩, _, _, ⟨rfl, rfl⟩, rfl, rfl⟩ := hh
  refine ⟨rfl, hints_admitted fun m hm => ?_⟩
  obtain ⟨c, -, hc, -⟩ := Symbols.mem_methodsAlong.mp (List.mem_filter.mp hm).1
  rw [h.reads.grown.allMethods] at hc
  exact hΓ.params (.inl hc)

theorem resolve_on (hΓ : Γ.Ok) (ht : Γ.Admits t) (h : Γ.Sound w S) {args : List (Option Ty)} {isStatic : Bool}
    (hr : Lower.resolve t name args isStatic Γ.scope w = .ok (m, w')) :
    w' = w ∧ Γ.MethodOn t m ∧ m.isStatic = isStatic ∧ Ty.fits m.params args = true := by
  simp only [Lower.resolve, Lower.bind_ok, Lower.symbols_ok, Lower.read_ok, Lower.ofExcept_ok] at hr
  obtain ⟨_, _, ⟨rfl, rfl⟩, _, _, ⟨rfl, rfl⟩, hr, rfl⟩ := hr
  exact ⟨rfl, MethodOn.of_resolve hΓ ht h hr⟩

theorem callStatic_pushes (hΓ : Γ.Ok) (ht : Γ.Admits t) {args : Lower.Arguments} (hargs : Γ.Supplies args)
    {hints : List (Option Ty)} (hh : ∀ u, some u ∈ hints → Γ.Admits u) (h : Γ.Sound w S)
    (hc : Lower.callStatic t name hints args Γ.scope w = .ok (p, w')) : Γ.Pushes w S called p w' := by
  simp only [Lower.callStatic, Lower.bind_ok, Lower.pure_ok] at hc
  obtain ⟨types, w₁, hp, m, w₂, hm, _, w₃, he, rfl, rfl⟩ := hc
  obtain ⟨k1, h, -⟩ := hargs hh h hp
  obtain ⟨rfl, hon, hst, hfits⟩ := resolve_on hΓ ht h hm
  obtain ⟨k2, h⟩ := h.emit he fun _ => .callStatic hst hon hfits
  obtain ⟨r, hr, hR⟩ := hon.ret hΓ
  exact .of_result (k1.trans k2) hr hR h

/-- Calls a method on a receiver, with its arguments on the stack. -/
theorem callOn_pushes (hΓ : Γ.Ok) {s : Slot} {types : List (Option Ty)} (hon : Γ.MethodOn t m) (hst : m.isStatic = false)
    (hfits : Ty.fits m.params types = true) (hs : Receiver t (Lower.callOp t) s)
    (h : Γ.Sound w (Slot.arguments types ++ s :: S))
    (he : Lower.emit (.method (Lower.callOp t) m) Γ.scope w = .ok (u, w')) :
    Γ.Pushes w S called { type := m.ret } w' := by
  obtain ⟨k, h⟩ := h.emit he fun _ => by
    have hlong : (Emission.method (Lower.callOp t) m).long = { op := Lower.callOp t, operand := .method m } := by
      unfold Lower.callOp
      split <;> rfl
    rw [hlong]
    exact .callInstance hst hon hfits hs
  obtain ⟨r, hr, hR⟩ := hon.ret hΓ
  exact .of_result k hr hR h

/-- A receiver on the stack can be called on, once a value is put into a temporary. -/
theorem receiver_ready (hT : Γ.Holds t) {a : Bool} (ha : a = true → t.isValue = true)
    (h : Γ.Sound w (Pushed.slot { type := some t, isAddress := a } :: S))
    (hw : (t.isValue && !a) = true ∧ Lower.spillAddress t Γ.scope w = .ok (u, w₁) ∨ ¬(t.isValue && !a) = true ∧ w₁ = w) :
    w.Kept w₁ ∧ ∃ s, Receiver t (Lower.callOp t) s ∧ Γ.Sound w₁ (s :: S) := by
  have place : t.isValue = true → Receiver t (Lower.callOp t) (.address t) := fun hv => by
    rw [Lower.callOp, if_pos hv]
    exact .place hv
  rcases hw with ⟨hv, hs⟩ | ⟨hv, rfl⟩
  · simp only [Bool.and_eq_true, Bool.not_eq_true'] at hv
    obtain ⟨hv, rfl⟩ := hv
    obtain ⟨k, h⟩ := h.spillAddress hT hv hs
    exact ⟨k, _, place hv, h⟩
  · cases a with
    | true => exact ⟨.refl _, _, place (ha rfl), h⟩
    | false =>
      have hv : t.isValue = false := by simpa using hv
      refine ⟨.refl _, _, ?_, h⟩
      rw [Lower.callOp, if_neg (by rw [hv]; exact Bool.false_ne_true)]
      exact .object hv

theorem callInstance_pushes (hΓ : Γ.Ok) (hT : Γ.Holds t) {a : Bool} (ha : a = true → t.isValue = true)
    {args : Lower.Arguments} (hargs : Γ.Supplies args)
    (h : Γ.Sound w (Pushed.slot { type := some t, isAddress := a } :: S))
    (hc : Lower.callInstance t a name args Γ.scope w = .ok (p, w')) : Γ.Pushes w S called p w' := by
  have called : ∃ w₁, w.Kept w₁ ∧ ∃ s, Receiver t (Lower.callOp t) s ∧ Γ.Sound w₁ (s :: S) ∧
      (do
        let types ← args.push (← Lower.hintsFor t name false args.count)
        let m ← Lower.resolve t name types false
        Lower.emit (.method (Lower.callOp t) m)
        return { type := m.ret } : Lower Pushed) Γ.scope w₁ = .ok (p, w') := by
    simp only [Lower.callInstance, Lower.ite_ok] at hc
    rcases hc with ⟨hv, hc⟩ | ⟨hv, hc⟩
    · obtain ⟨_, w₁, hs, hc⟩ := Lower.bind_ok.mp hc
      obtain ⟨k, s, hs, h⟩ := receiver_ready hT ha h (.inl ⟨hv, hs⟩)
      exact ⟨w₁, k, s, hs, h, hc⟩
    · obtain ⟨k, s, hs, h⟩ := receiver_ready (u := ()) hT ha h (.inr ⟨hv, rfl⟩)
      exact ⟨w, k, s, hs, h, hc⟩
  obtain ⟨w₁, k1, s, hs, h, hc⟩ := called
  simp only [Lower.bind_ok, Lower.pure_ok] at hc
  obtain ⟨hints, w₂, hints?, types, w₃, hp, m, w₄, hm, _, w₅, he, rfl, rfl⟩ := hc
  obtain ⟨rfl, hh⟩ := candidates_params hΓ h hints?
  obtain ⟨k2, h, -⟩ := hargs hh h hp
  obtain ⟨rfl, hon, hst, hfits⟩ := resolve_on hΓ hT.admits h hm
  exact .after (k1.trans k2) (callOn_pushes hΓ hon hst hfits hs h he)

theorem callGetter_pushes (hΓ : Γ.Ok) (hT : Γ.Holds t) {a : Bool} (ha : a = true → t.isValue = true)
    (hon : Γ.MethodOn t m) (hst : m.isStatic = false) (hfits : Ty.fits m.params [] = true)
    (h : Γ.Sound w (Pushed.slot { type := some t, isAddress := a } :: S))
    (hc : Lower.callGetter t a m Γ.scope w = .ok (p, w')) : Γ.Pushes w S called p w' := by
  simp only [Lower.callGetter, Lower.ite_ok, Lower.bind_ok, Lower.pure_ok] at hc
  rcases hc with ⟨hv, _, w₁, hs, _, w₂, he, rfl, rfl⟩ | ⟨hv, _, w₂, he, rfl, rfl⟩
  · obtain ⟨k, s, hs, h⟩ := receiver_ready hT ha h (.inl ⟨hv, hs⟩)
    exact .after k (callOn_pushes hΓ hon hst hfits hs h he)
  · obtain ⟨k, s, hs, h⟩ := receiver_ready (u := ()) hT ha h (.inr ⟨hv, rfl⟩)
    exact .after k (callOn_pushes hΓ hon hst hfits hs h he)

/-! ### Calls of own methods -/

/-- Temporaries that hold arguments. -/
structure Spilled (w : Work) (types : List (Option Ty)) (ls : List LocalSlot) : Prop where
  types : ls.map (fun l => some l.type) = types
  locals : ∀ l ∈ ls, w.draft.locals[l.index]? = some l.type

theorem Spilled.kept {types : List (Option Ty)} {ls : List LocalSlot} (h : Spilled w types ls) (hk : w.Kept w') :
    Spilled w' types ls := ⟨h.types, fun l hl => hk.locals (h.locals l hl)⟩

/-- Arguments are moved into temporaries. -/
theorem spillArguments_sound {position : Nat} {types : List (Option Ty)} {ls : List LocalSlot}
    (hT : ∀ t, some t ∈ types → Γ.Holds t) (h : Γ.Sound w (types.map Slot.value ++ S))
    (hs : Lower.spillArguments name position types Γ.scope w = .ok (ls, w')) :
    w.Kept w' ∧ Γ.Sound w' S ∧ Spilled w' types.reverse ls := by
  induction types generalizing position w ls with
  | nil =>
    simp only [Lower.spillArguments, Lower.pure_ok] at hs
    obtain ⟨rfl, rfl⟩ := hs
    exact ⟨.refl _, h, rfl, fun l hl => (by cases hl)⟩
  | cons x types ih =>
    cases x with
    | none => cases hs
    | some t =>
      simp only [Lower.spillArguments, Lower.bind_ok, Lower.pure_ok] at hs
      obtain ⟨l, w₁, hl, _, w₂, he, ls', w₃, hr, rfl, rfl⟩ := hs
      obtain ⟨hidx, rfl, h1, hm, hcode, hk, hnames⟩ := h.declareLocal (hT t List.mem_cons_self) hl
      have k1 : w.Kept w₁ := ⟨hm, hnames, hk, hcode ▸ List.prefix_refl _⟩
      obtain ⟨k2, h2⟩ := h1.emit he fun hi => .setLoc (Emission.local_le hi) hidx (by simp [Ty.accepts, Ty.same])
      obtain ⟨k3, h3, hspilled⟩ := ih (fun t ht => hT t (List.mem_cons_of_mem _ ht)) h2 hr
      refine ⟨(k1.trans k2).trans k3, h3, ?_, fun x hx => ?_⟩
      · rw [List.map_append, hspilled.types, List.reverse_cons]
        rfl
      · rcases List.mem_append.mp hx with hx | hx
        · exact hspilled.locals x hx
        · rw [List.mem_singleton.mp hx]
          exact k3.locals (k2.locals hidx)

/-- Temporaries are put back on the stack. -/
theorem loadAll_sound {types : List (Option Ty)} {ls : List LocalSlot} (hs : Spilled w types ls)
    (h : Γ.Sound w S)
    (hl : (forIn ls PUnit.unit fun l _ => do
        Lower.emit (.local .ldloc (some l))
        pure (ForInStep.yield PUnit.unit) : Lower PUnit) Γ.scope w = .ok (u, w')) :
    w.Kept w' ∧ Γ.Sound w' (Slot.arguments types ++ S) := by
  induction ls generalizing w types S with
  | nil =>
    simp only [List.forIn_nil, Lower.pure_ok] at hl
    obtain ⟨-, rfl⟩ := hl
    rw [← hs.types]
    exact ⟨.refl _, h⟩
  | cons l ls ih =>
    simp only [List.forIn_cons, Lower.bind_ok, Lower.pure_ok] at hl
    obtain ⟨_, _, ⟨_, w₁, he, rfl, rfl⟩, hl⟩ := hl
    obtain ⟨k1, h⟩ := h.emit he fun hi => .loc (Emission.local_le hi) (hs.locals l List.mem_cons_self)
    have hrest : Spilled w₁ (ls.map fun l => some l.type) ls :=
      ⟨rfl, fun x hx => k1.locals (hs.locals x (List.mem_cons_of_mem _ hx))⟩
    obtain ⟨k2, h⟩ := ih hrest h hl
    refine ⟨k1.trans k2, ?_⟩
    rw [← hs.types]
    simpa [Slot.arguments] using h

theorem callMixed_pushes (hΓ : Γ.Ok) (hi : Γ.scope.isStatic = false) {args : Lower.Arguments} (hargs : Γ.Supplies args)
    (h : Γ.Sound w S) (hc : Lower.callMixed name args Γ.scope w = .ok (p, w')) : Γ.Pushes w S called p w' := by
  simp only [Lower.callMixed, Lower.bind_ok, Lower.read_ok, Lower.symbols_ok] at hc
  obtain ⟨types, w₁, hp, temps, w₂, hs, _, _, ⟨rfl, rfl⟩, _, _, ⟨rfl, rfl⟩, hc⟩ := hc
  obtain ⟨k1, h, hT⟩ := hargs (fun t ht => absurd ht List.not_mem_nil) h hp
  obtain ⟨k2, h, hspilled⟩ := spillArguments_sound (fun t ht => hT t (List.mem_reverse.mp ht))
    (by rw [Slot.arguments, ← List.map_reverse] at h; exact h) hs
  rw [List.reverse_reverse] at hspilled
  cases hfind : (w₂.symbols.methodsOf Γ.scope.owner name).find? fun m => Ty.sameList m.params types with
  | none =>
    rw [hfind] at hc
    cases hc
  | some m =>
    have hon := MethodOn.own hΓ h (List.mem_of_find?_eq_some hfind)
    have hsame := List.find?_some hfind
    have hfits := Ty.fits_of_sameList (fun p hp => (hon.params hΓ p hp).imp fun _ h => h.1) hsame
    simp only [hfind, Lower.ite_ok, Lower.bind_ok, Lower.pure_ok] at hc
    rcases hc with ⟨hst, _, w₃, h1, _, w₄, h2, _, w₅, h3, rfl, rfl⟩ | ⟨hst, _, w₄, h2, _, w₅, h3, rfl, rfl⟩
    · have hst : m.isStatic = false := by simpa using hst
      rw [if_neg (by rw [hst]; exact Bool.false_ne_true)] at h3
      obtain ⟨k3, h⟩ := h.loadThis hi h1
      obtain ⟨k4, h⟩ := loadAll_sound (hspilled.kept k3) h h2
      have hrec : Receiver Γ.scope.owner (Lower.callOp Γ.scope.owner) (.value (some Γ.scope.owner)) := by
        rw [Lower.callOp, if_neg (by rw [hΓ.ownerObject]; exact Bool.false_ne_true)]
        exact .object hΓ.ownerObject
      exact .after (((k1.trans k2).trans k3).trans k4) (callOn_pushes hΓ hon hst hfits hrec h h3)
    · have hst : m.isStatic = true := by simpa using hst
      rw [if_pos hst] at h3
      obtain ⟨k4, h⟩ := loadAll_sound hspilled h h2
      obtain ⟨k5, h⟩ := h.emit h3 fun _ => .callStatic hst hon hfits
      obtain ⟨r, hr, hR⟩ := hon.ret hΓ
      exact .of_result (((k1.trans k2).trans k4).trans k5) hr hR h

theorem isDelegateVariable_still {b : Bool} {c : Scope} (h : Lower.isDelegateVariable name c w = .ok (b, w')) : w' = w := by
  simp only [Lower.isDelegateVariable, Lower.bind_ok, Lower.local?_ok] at h
  obtain ⟨_, _, ⟨rfl, rfl⟩, h⟩ := h
  cases hl : w.local? name with
  | some l =>
    rw [hl] at h
    exact (Lower.pure_ok.mp h).2.symm
  | none =>
    simp only [hl, Lower.bind_ok, Lower.read_ok] at h
    obtain ⟨_, _, ⟨rfl, rfl⟩, h⟩ := h
    cases hp : c.param? name with
    | some it =>
      rw [hp] at h
      exact (Lower.pure_ok.mp h).2.symm
    | none =>
      simp only [hp, Lower.bind_ok, Lower.read_ok, Lower.fieldAlong_ok] at h
      obtain ⟨_, _, ⟨rfl, rfl⟩, _, _, ⟨rfl, rfl⟩, h⟩ := h
      cases hf : w.symbols.fieldAlong c.roles.object c.owner name with
      | ok f =>
        rw [hf] at h
        exact (Lower.pure_ok.mp h).2.symm
      | error e =>
        rw [hf] at h
        exact (Lower.pure_ok.mp h).2.symm

theorem callOwn_pushes (hΓ : Γ.Ok) {args : Lower.Arguments} (hargs : Γ.Supplies args) (h : Γ.Sound w S)
    (hc : Lower.callOwn name args Γ.scope w = .ok (p, w')) : Γ.Pushes w S called p w' := by
  simp only [Lower.callOwn, Lower.bind_ok, Lower.read_ok] at hc
  obtain ⟨_, _, ⟨rfl, rfl⟩, isVariable, w₁, hv, hc⟩ := hc
  obtain rfl := isDelegateVariable_still hv
  simp only [Lower.ite_ok, Lower.bind_ok, Lower.symbols_ok, Lower.fail_ok, and_false, false_or] at hc
  rcases hc with ⟨-, v, w₂, hid, hc⟩ | ⟨-, _, _, ⟨rfl, rfl⟩, -, -, hc⟩
  · have hv := ident_yields hΓ (fun t ht => by cases ht) h hid
    have h := hv.value hv.notVoid
    cases ht : v.type with
    | none =>
      rw [ht] at hc
      cases hc
    | some t =>
      rw [ht] at hc
      have ha : v.isAddress = false := by
        by_contra ha
        cases (hv.address (by simpa using ha)).1
      have hslot : v = { type := some t, isAddress := v.isAddress } := by rw [← ht]
      have hT : Γ.Holds t := ⟨hv.admits ht, by have := hv.notVoid; rw [ht] at this; exact this⟩
      rw [hslot] at h
      exact .after hv.kept (callInstance_pushes hΓ hT (fun h => by rw [ha] at h; cases h) hargs h hc)
  · have own : ∀ m ∈ w₁.symbols.methodsOf Γ.scope.owner name, ∀ p ∈ m.params, ∃ t, p = some t ∧ Γ.Holds t :=
      fun m hm => (MethodOn.own hΓ h hm).params hΓ
    have inst : ∀ {b : Bool}, ¬(Γ.scope.isStatic || b) = true → Γ.scope.isStatic = false := by
      intro b hb
      simp only [Bool.or_eq_true, not_or, Bool.not_eq_true] at hb
      exact hb.1
    rcases hc with ⟨-, hc⟩ | ⟨hi, ⟨-, _, w₂, h1, hc⟩ | ⟨-, hc⟩⟩
    · refine callStatic_pushes hΓ hΓ.owner.admits hargs (hints_admitted fun m hm => ?_) h hc
      exact own m (List.mem_filter.mp (List.mem_filter.mp hm).1).1
    · obtain ⟨k, h⟩ := h.loadThis (inst hi) h1
      exact .after k (callInstance_pushes (a := false) hΓ hΓ.owner (fun ha => (by cases ha)) hargs h hc)
    · exact callMixed_pushes hΓ (inst hi) hargs h hc

end

end Setting
end CilCompiler
