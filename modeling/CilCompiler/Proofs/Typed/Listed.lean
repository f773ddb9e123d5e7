import CilCompiler.Proofs.Lowering.Counted
import CilCompiler.Proofs.Typed.Parts

/-! Typed lowering in a listing. Where lowering for a body that can be run fails, it fails with the same code in a
    listing, which has counted the values on the stack until then (`Setting.Refuses`): what has been typed so far
    finds its operands, so a listing comes as far, and what fails then fails for reasons that both kinds of modules
    share. With what succeeds (`Lower.Lists`) expressions and statements without branches come to the same in both
    (`Setting.Follows`). -/

namespace CilCompiler

theorem Ty.isSome_elem? (t : Ty) : t.elem?.isSome = t.isArray := by cases t <;> rfl

theorem Lower.bind_of_error {α β : Type} {c : Scope} {w : Work} {x : Lower α} {f : α → Lower β} {e : Fault}
    (h : x c w = .error e) :
    (x >>= f) c w = .error e := by
  show (x c w >>= fun r => f r.1 c r.2) = _
  rw [h]
  rfl

namespace Setting

/-- What lowering relies on, for a body of a module whose bodies can be run and whose types have no arrays of void:
    all members that can be found belong to the module, and the names of arrays are entered for arrays only. -/
structure Listable (Γ : Setting) : Prop where
  ok : Γ.Ok
  voidless : Γ.Voidless
  dynamic : Γ.scope.site.backend = .dynamic
  isOpen : Γ.scope.site.isSealed = false
  ret : Γ.scope.site.method.ret = some Γ.scope.ret
  field : ∀ {c : Ty} {f : Field}, f ∈ Γ.symbols.fieldsOf c → Γ.scope.site.owns f.owner = true
  method : ∀ {c : Ty} {m : Method}, m ∈ Γ.symbols.allMethods c → Γ.scope.site.owns m.owner = true
  ctor : ∀ {t : Ty} {c : Method}, c ∈ Γ.symbols.ctorsOf t → Γ.scope.site.owns c.owner = true
  delegate : ∀ {t : Ty} {d : Delegate}, Γ.symbols.delegate? (some t) = some d → Γ.scope.site.owns d.ctor.owner = true
  arrays : ∀ {n : Text} {t : Ty}, Γ.symbols.entered? (TypeName.array n) = some t → t.isArray = true

/-- Work with the counts of a listing. -/
def listed (Γ : Setting) (w : Work) : Work := w.counted Γ.scope.site.method.ret

/-- Where code fails it fails in a listing, with the same code. -/
def Refuses (Γ : Setting) {α : Type} (x : Lower α) (w : Work) : Prop :=
  ∀ ⦃f : Fault⦄, x Γ.scope w = .error f → ∃ g, x (Γ.scope.on .textual) (Γ.listed w) = .error g ∧ f.answer? = g.answer?

/-- Code comes to the same in a listing. -/
def Follows (Γ : Setting) {α : Type} (x : Lower α) (w : Work) : Prop :=
  Agree (fun r r' => r' = (r.1, Γ.listed r.2)) (x Γ.scope w) (x (Γ.scope.on .textual) (Γ.listed w))

/-- Code does not fail. -/
def Firm (Γ : Setting) {α : Type} (x : Lower α) : Prop := ∀ w f, x Γ.scope w ≠ .error f

variable {Γ : Setting} {w w₁ w' : Work} {S : List Slot} {α β : Type}

/-! ### Rules -/

namespace Firm

theorem pure (a : α) : Γ.Firm (Pure.pure a : Lower α) := fun _ _ h => by cases h

theorem read : Γ.Firm (MonadReader.read : Lower Scope) := fun _ _ h => by cases h

theorem bind {x : Lower α} {f : α → Lower β} (hx : Γ.Firm x) (hf : ∀ a, Γ.Firm (f a)) : Γ.Firm (x >>= f) := by
  intro w e h
  cases hr : x Γ.scope w with
  | error e' => exact hx w e' hr
  | ok r => exact hf r.1 r.2 e ((Lower.bind_of_ok hr).symm.trans h)

theorem ite {p : Prop} [Decidable p] {x y : Lower α} (hx : Γ.Firm x) (hy : Γ.Firm y) : Γ.Firm (if p then x else y) := by
  split
  · exact hx
  · exact hy

theorem emit {e : Emission} {i : Instr} (hdyn : Γ.scope.site.backend = .dynamic) (h : e.encode Γ.scope.site = .ok i) :
    Γ.Firm (Lower.emit e) := by
  intro w f he
  have hok : Lower.emit e Γ.scope w = .ok ((), _) := (Lower.emit_ok hdyn).mpr ⟨i, h, rfl⟩
  rw [hok] at he
  cases he

end Firm

namespace Follows

theorem refuses {x : Lower α} (h : Γ.Follows x w) : Γ.Refuses x w := fun _ hf => h.of_error hf

theorem pure (a : α) : Γ.Follows (Pure.pure a : Lower α) w := .ok rfl

theorem read {f : Scope → Lower α} (hf : f (Γ.scope.on .textual) = f Γ.scope) (h : Γ.Follows (f Γ.scope) w) :
    Γ.Follows (MonadReader.read >>= f) w := by
  show Agree _ (f Γ.scope Γ.scope w) (f (Γ.scope.on .textual) (Γ.scope.on .textual) (Γ.listed w))
  rw [hf]
  exact h

theorem lookupType (name : Text) : Γ.Follows (Lower.lookupType name) w :=
  (Agree.refl (w.symbols.lookup name)).map fun r r' hr => by
    rw [hr]
    rfl

theorem map {x : Lower α} (h : Γ.Follows x w) (f : α → β) : Γ.Follows (f <$> x) w :=
  h.bind fun _ _ hr => by
    rw [hr]
    exact .ok rfl

theorem ite {p : Prop} [Decidable p] {x y : Lower α} (hx : Γ.Follows x w) (hy : Γ.Follows y w) :
    Γ.Follows (if p then x else y) w := by
  split
  · exact hx
  · exact hy

/-- What comes first ends in the same way, and so does what follows. -/
theorem bind {x : Lower α} {f : α → Lower β} (hx : Γ.Follows x w)
    (hf : ∀ a w₁, x Γ.scope w = .ok (a, w₁) → Γ.Follows (f a) w₁) : Γ.Follows (x >>= f) w := by
  refine Agree.bind (R := fun r r' => r' = (r.1, Γ.listed r.2) ∧
      x Γ.scope w = .ok r) (hx.mono_ok fun _ _ hr h _ => ⟨hr, h⟩) ?_
  rintro ⟨a, w₁⟩ _ ⟨rfl, hr⟩
  exact hf a w₁ hr

theorem expect (dst src : Option Ty) (what : Text) : Γ.Follows (Lower.expect dst src what) w :=
  ite (.error rfl) (ite (.ok rfl) (.error rfl))

theorem initializedType (name : Text) (declared initial : Option Ty) :
    Γ.Follows (Lower.initializedType name declared initial) w := by
  cases declared with
  | some t => exact (expect (some t) initial _).map fun _ => t
  | none =>
    cases initial with
    | none => exact .error rfl
    | some t => exact ite (.error rfl) (.ok rfl)

/-- A local is added in a type that is not finished. -/
theorem declareLocal (hΓ : Γ.Listable) (name : Text) (t : Ty) : Γ.Follows (Lower.declareLocal name t) w := by
  unfold Follows Lower.declareLocal Draft.declareLocal Site.requireOpen
  rw [hΓ.isOpen, show (Γ.scope.on .textual).site.isSealed = false from hΓ.isOpen]
  exact .ok rfl

end Follows

namespace Refuses

theorem of_firm {x : Lower α} (h : Γ.Firm x) : Γ.Refuses x w := fun f hf => absurd hf (h w f)

theorem pure (a : α) : Γ.Refuses (Pure.pure a : Lower α) w := of_firm (.pure a)

theorem fail (f : Fault) : Γ.Refuses (Lower.fail f : Lower α) w := fun g hg => by
  cases hg
  exact ⟨f, rfl, rfl⟩

theorem ite {p : Prop} [Decidable p] {x y : Lower α} (hx : p → Γ.Refuses x w) (hy : ¬p → Γ.Refuses y w) :
    Γ.Refuses (if p then x else y) w := by
  by_cases h : p
  · rw [if_pos h]
    exact hx h
  · rw [if_neg h]
    exact hy h

/-- What comes first ends in the same way, and what follows fails so. -/
theorem bind {x : Lower α} {f : α → Lower β} (hx : Γ.Follows x w)
    (hf : ∀ a w₁, x Γ.scope w = .ok (a, w₁) → Γ.Refuses (f a) w₁) : Γ.Refuses (x >>= f) w := by
  intro e he
  cases hr : x Γ.scope w with
  | error e' =>
    cases he.symm.trans (Lower.bind_of_error hr)
    obtain ⟨g, hg, hc⟩ := hx.of_error hr
    exact ⟨g, Lower.bind_of_error hg, hc⟩
  | ok r =>
    rw [Lower.bind_of_ok hr] at he
    obtain ⟨g, hg, hc⟩ := hf r.1 r.2 hr he
    obtain ⟨_, hr', rfl⟩ := hx.of_ok hr
    exact ⟨g, (Lower.bind_of_ok hr').trans hg, hc⟩

/-- What comes first is all that can fail. -/
theorem before {x : Lower α} {f : α → Lower β} (hx : Γ.Refuses x w) (hf : ∀ a, Γ.Firm (f a)) : Γ.Refuses (x >>= f) w := by
  intro e he
  cases hr : x Γ.scope w with
  | error e' =>
    cases he.symm.trans (Lower.bind_of_error hr)
    obtain ⟨g, hg, hc⟩ := hx hr
    exact ⟨g, Lower.bind_of_error hg, hc⟩
  | ok r => exact absurd ((Lower.bind_of_ok hr).symm.trans he) (hf r.1 r.2 e)

/-- What comes first looks something up, and nothing else changes. -/
theorem looked {x : Lower α} {f : α → Lower β} (r : Except Fault α) (h : x Γ.scope w = r.map fun a => (a, w))
    (h' : x (Γ.scope.on .textual) (Γ.listed w) = r.map fun a => (a, Γ.listed w))
    (hf : ∀ a, x Γ.scope w = .ok (a, w) → Γ.Refuses (f a) w) :
    Γ.Refuses (x >>= f) w := by
  refine bind ?_ fun a w₁ ha => ?_
  · unfold Follows
    rw [h, h']
    cases r with
    | error f => exact .error rfl
    | ok a => exact .ok rfl
  · obtain ⟨a', ha', he⟩ := map_eq_ok.mp (h.symm.trans ha)
    cases he
    exact hf _ ha

/-- What is known of the body may be looked at, but for the kind of its module. -/
theorem read {f : Scope → Lower α} (hf : f (Γ.scope.on .textual) = f Γ.scope) (h : Γ.Refuses (f Γ.scope) w) :
    Γ.Refuses (MonadReader.read >>= f) w := by
  intro e he
  obtain ⟨g, hg, hc⟩ := h (show f Γ.scope Γ.scope w = .error e from he)
  refine ⟨g, ?_, hc⟩
  show f (Γ.scope.on .textual) (Γ.scope.on .textual) (Γ.listed w) = _
  rw [hf]
  exact hg

theorem symbols {f : Symbols → Lower α} (h : Γ.Refuses (f w.symbols) w) : Γ.Refuses (Lower.symbols >>= f) w :=
  looked (.ok w.symbols) rfl rfl fun _ hs => by
    obtain ⟨rfl, -⟩ := Lower.symbols_ok.mp hs
    exact h

theorem requireInstance {what : Text} {f : Unit → Lower α} (h : Γ.scope.isStatic = false → Γ.Refuses (f ()) w) :
    Γ.Refuses (Lower.requireInstance what >>= f) w := by
  cases hst : Γ.scope.isStatic with
  | true =>
    have fails : Lower.requireInstance what Γ.scope w = .error (.shape (.instanceInStatic what Γ.scope.memberName)) :=
      if_pos hst
    refine looked (.error (.shape (.instanceInStatic what Γ.scope.memberName))) fails (if_pos hst) fun _ hr => ?_
    rw [fails] at hr
    cases hr
  | false =>
    refine looked (.ok ()) ?_ ?_ fun _ _ => h hst
    · exact if_neg (by rw [hst]; exact Bool.false_ne_true)
    · exact if_neg (show ¬Γ.scope.isStatic = true by rw [hst]; exact Bool.false_ne_true)

theorem emit (hdyn : Γ.scope.site.backend = .dynamic) {e : Emission} (he : e.Native Γ.scope.site) :
    Γ.Refuses (Lower.emit e) w := by
  intro f hf
  cases hr : e.encode Γ.scope.site with
  | ok i =>
    rw [(Lower.emit_ok (u := ()) hdyn).mpr ⟨i, hr, rfl⟩] at hf
    cases hf
  | error f' =>
    have fails : ∀ {c : Scope} {w : Work} {g : Fault}, e.encode c.site = .error g → Lower.emit e c w = .error g := by
      intro c w g hg
      unfold Lower.emit Draft.emit
      rw [hg]
    obtain ⟨g, hg, hc⟩ := (he.encode hdyn).of_error hr
    cases hf.symm.trans (fails hr)
    exact ⟨g, fails hg, hc⟩

end Refuses

/-- What succeeds and leaves instructions that find their operands comes to the same in a listing. -/
theorem Follows.of_accountable (hΓ : Γ.Listable) {x : Lower α} (h : Γ.Refuses x w) (hx : x.Lists)
    (hs : ∀ a w₁, x Γ.scope w = .ok (a, w₁) → Accountable (some Γ.scope.ret) w₁.draft.code) : Γ.Follows x w := by
  unfold Follows
  cases hr : x Γ.scope w with
  | error f =>
    obtain ⟨g, hg, hc⟩ := h hr
    rw [hg]
    exact .error hc
  | ok r =>
    have hacc := hs r.1 r.2 hr
    rw [← hΓ.ret] at hacc
    rw [listed, (hx hΓ.dynamic hr).2 hacc]
    exact .ok rfl

/-- What succeeds and is typed comes to the same in a listing. -/
theorem Follows.of_refuses (hΓ : Γ.Listable) {x : Lower α} (h : Γ.Refuses x w) (hx : x.Lists)
    (hs : ∀ a w₁, x Γ.scope w = .ok (a, w₁) → ∃ S, Γ.Sound w₁ S) : Γ.Follows x w :=
  .of_accountable hΓ h hx fun a w₁ hr => by
    obtain ⟨S, hS⟩ := hs a w₁ hr
    exact hS.typed.accountable hΓ.voidless

/-- Whether an expression names a type is looked up. -/
theorem Refuses.typeTarget {e : Expr} {α : Type} {f : Option Ty → Lower α} (h : Γ.Sound w S)
    (hf : ∀ o, (∀ t, o = some t → Γ.Admits t) → Γ.Refuses (f o) w) : Γ.Refuses (Lower.typeTarget e >>= f) w := by
  have target : ∀ o, Lower.typeTarget e Γ.scope w = .ok (o, w) → Γ.Refuses (f o) w :=
    fun o ho => hf o (typeTarget_admits h ho).2
  cases e with
  | ident n => exact .looked (.ok (w.symbols.entered? n)) rfl rfl target
  | _ => exact .looked (.ok none) rfl rfl target

/-! ### Instructions that are always taken -/

/-- Whether the opcode of an emission takes the operand, which there is. -/
def isAccepted : Emission → Bool
  | .plain op => op.accepts .none
  | .int op _ => op = .ldc
  | .str op _ => op.accepts .string
  | .type op t => op.accepts .type && t.isSome
  | .field op _ => op.accepts .field
  | .method op _ => op.accepts .method
  | .ctor op _ => op.accepts .ctor
  | .local .. | .arg .. | .label .. => false

theorem Listable.emit (hΓ : Γ.Listable) {e : Emission} (he : e.Native Γ.scope.site) (ha : isAccepted e = true) :
    Γ.Firm (Lower.emit e) := by
  have checks : ∀ {op : Opcode} {k : OperandKind}, op.accepts k = true → Γ.scope.site.check op k = .ok () := fun h =>
    Emission.check_ok.mpr ⟨hΓ.isOpen, h⟩
  have encodes : ∃ i, e.encode Γ.scope.site = .ok i := by
    cases e with
    | plain op =>
      refine ⟨{ op }, ?_⟩
      simp only [Emission.encode, hΓ.dynamic, reduceCtorEq, false_and, if_false]
      rw [checks ha]
      rfl
    | int op v =>
      refine ⟨ShortForm.ofInt v, ?_⟩
      have hop : op = .ldc := by simpa [isAccepted] using ha
      simp only [Emission.encode, hop, true_or, if_true, Site.requireOpen, hΓ.isOpen]
      rfl
    | str op t => exact ⟨{ op, operand := .str t }, bind_eq_ok.mpr ⟨(), checks ha, rfl⟩⟩
    | type op t =>
      simp only [isAccepted, Bool.and_eq_true] at ha
      obtain ⟨x, rfl⟩ := Option.isSome_iff_exists.mp ha.2
      exact ⟨{ op, operand := .type x }, bind_eq_ok.mpr ⟨(), checks ha.1, rfl⟩⟩
    | field op f =>
      refine ⟨{ op, operand := .field f }, bind_eq_ok.mpr ⟨(), checks ha, ?_⟩⟩
      simp [hΓ.dynamic, he.1, he.2]
    | method op m =>
      refine ⟨{ op, operand := .method m }, bind_eq_ok.mpr ⟨(), checks ha, ?_⟩⟩
      simp only [hΓ.dynamic, he.1, if_true, Bool.not_true, Bool.false_eq_true, if_false, if_neg he.2]
    | ctor op c =>
      refine ⟨{ op, operand := .ctor c }, bind_eq_ok.mpr ⟨(), checks ha, ?_⟩⟩
      have ho : Γ.scope.site.owns c.owner = true := he
      simp [ho]
    | _ => cases ha
  obtain ⟨i, hi⟩ := encodes
  exact .emit hΓ.dynamic hi

theorem MethodOn.owned (hΓ : Γ.Listable) {t : Ty} {m : Method} (h : Γ.MethodOn t m) : Γ.scope.site.owns m.owner = true := by
  obtain ⟨-, c, -, hm⟩ := h
  exact hΓ.method hm

theorem FieldOn.owned (hΓ : Γ.Listable) {t : Ty} {f : Field} (h : Γ.FieldOn t f) : Γ.scope.site.owns f.owner = true := by
  obtain ⟨-, c, -, hf⟩ := h
  exact hΓ.field hf

/-- Whatever has been pushed, the work is typed. -/
theorem Pushes.sound (hv : Γ.Voidless) {called : Bool} {p : Pushed} (h : Γ.Pushes w S called p w') :
    ∃ S', Γ.Sound w' S' := by
  cases hvoid : Ty.isVoidOpt p.type with
  | false => exact ⟨_, h.value hvoid⟩
  | true => exact ⟨_, h.void hvoid (.inr hv)⟩

/-- An operand: what it pushes is typed, and it comes to the same in a listing. -/
structure Operand (Γ : Setting) (called : Bool) (x : Lower Pushed) : Prop where
  lists : x.Lists
  pushes : ∀ {w w' : Work} {S : List Slot} {p : Pushed}, Γ.Sound w S → x Γ.scope w = .ok (p, w') → Γ.Pushes w S called p w'
  follows : ∀ {w : Work} {S : List Slot}, Γ.Sound w S → Γ.Follows x w

/-- Arguments: what they push is typed, and they come to the same in a listing. -/
structure Given (Γ : Setting) (args : Lower.Arguments) : Prop where
  lists : ∀ hints, (args.push hints).Lists
  supplies : Γ.Supplies args
  follows : ∀ {hints : List (Option Ty)} {w : Work} {S : List Slot}, (∀ t, some t ∈ hints → Γ.Admits t) → Γ.Sound w S →
    Γ.Follows (args.push hints) w

section Parts

variable (hΓ : Γ.Listable) {t : Ty} {m : Method} {f : Field} {name : Text} {called : Bool} {dt : Ty} {d : Delegate}
  {operand : Lower Pushed} {args : Lower.Arguments}
include hΓ

/-! ### Names and references -/

theorem loadField_refuses (hf : Γ.FieldOn t f) : Γ.Refuses (Lower.loadField f called) w := by
  refine .before (.emit hΓ.dynamic ⟨hf.owned hΓ, ?_⟩) fun _ => .pure _
  cases f.isStatic <;> cases called && f.type.any Ty.isValue <;> rfl

theorem spillAddress_refuses (ht : Γ.Holds t) (h : Γ.Sound w (.value (some t) :: S)) :
    Γ.Refuses (Lower.spillAddress t) w := by
  refine .bind (.declareLocal hΓ _ _) fun l w₁ hl => ?_
  obtain ⟨hidx, -, h, -, -, -, -⟩ := h.declareLocal ht hl
  refine .bind (.of_refuses hΓ (.emit hΓ.dynamic rfl) (.emit rfl) fun _ w₂ he => ?_) fun _ _ _ => .emit hΓ.dynamic rfl
  exact ⟨S, (h.emit he fun hi => .setLoc (Emission.local_le hi) hidx (by simp [Ty.accepts, Ty.same])).2⟩

theorem emitThis_follows (h : Γ.Sound w S) (hi : Γ.scope.isStatic = false) : Γ.Follows Lower.emitThis w :=
  .of_refuses hΓ (.emit hΓ.dynamic rfl) (.emit rfl) fun _ _ he => ⟨_, (h.loadThis hi he).2⟩

theorem receiver_follows (ho : Γ.Operand called operand) (h : Γ.Sound w S) : Γ.Follows (Lower.receiver operand name) w := by
  refine .of_refuses hΓ (.bind (ho.follows h) fun v w₁ _ => ?_) (Lower.Lists.stepwise.receiver ho.lists name) fun r w₁ hr =>
    ⟨_, (receiver_pushes (fun hp => ho.pushes h hp) hr).2.2.2⟩
  cases v.type with
  | none => exact .fail _
  | some t => exact .ite (fun _ => .fail _) fun _ => .pure _

theorem delegateType_follows {hint : Option Ty} {spelling : Text} (hh : ∀ t, hint = some t → Γ.Admits t)
    (hn : spelling.isEmpty = false → Γ.Named spelling) (h : Γ.Sound w S) :
      Γ.Follows (Lower.delegateType hint spelling name) w := by
  refine .of_refuses hΓ ?_ (Lower.Lists.stepwise.delegateType ..) fun r w₁ hr => ⟨S, (delegateType_admits hh hn h hr).2.1⟩
  refine .ite (fun _ => .bind (.pure _) fun o w₁ _ => ?_) fun _ => .bind ((Follows.lookupType _).map _) fun o w₁ _ => ?_
  all_goals
    cases o with
    | none => exact .fail _
    | some t =>
      refine .symbols ?_
      cases w₁.symbols.delegate? (some t) with
      | none => exact .fail _
      | some d => exact .pure _

theorem staticFunction_firm (hm : Γ.MethodOn t m) : Γ.Firm (Lower.staticFunction m) :=
  .bind (hΓ.emit rfl rfl) fun _ => hΓ.emit ⟨hm.owned hΓ, by simp⟩ rfl

theorem boundFunction_firm (hm : Γ.MethodOn t m) (hst : m.isStatic = false) : Γ.Firm (Lower.boundFunction t m) := by
  have load : Γ.Firm (do Lower.emit (.plain .dup); Lower.emit (.method .ldvirtftn m)) :=
    .bind (hΓ.emit rfl rfl) fun _ => hΓ.emit ⟨hm.owned hΓ, by simp [hst]⟩ rfl
  exact .ite (.bind (hΓ.emit rfl rfl) fun _ => load) load

theorem makeDelegate_firm (hd : Γ.symbols.delegate? (some dt) = some d) : Γ.Firm (Lower.makeDelegate dt d) :=
  .bind (hΓ.emit (hΓ.delegate hd) rfl) fun _ => .pure _

theorem ownReference_refuses (hd : Γ.symbols.delegate? (some dt) = some d) (h : Γ.Sound w S) :
    Γ.Refuses (Lower.ownReference name dt d) w := by
  refine .read rfl (.looked _ rfl rfl fun m hm => ?_)
  obtain ⟨-, hon, -⟩ := delegateTarget_on hΓ.ok.owner.admits h hm
  refine .ite (fun _ => .of_firm (.bind (staticFunction_firm hΓ hon) fun _ => makeDelegate_firm hΓ hd)) fun hst => ?_
  exact .before (.emit hΓ.dynamic rfl) fun _ =>
    .bind (boundFunction_firm hΓ hon (by simpa using hst)) fun _ => makeDelegate_firm hΓ hd

theorem typeReference_refuses (ha : Γ.Admits t) (hd : Γ.symbols.delegate? (some dt) = some d) (h : Γ.Sound w S) :
    Γ.Refuses (Lower.typeReference t name dt d) w := by
  refine .looked _ rfl rfl fun m hm => ?_
  obtain ⟨-, hon, -⟩ := delegateTarget_on ha h hm
  exact .of_firm (.bind (staticFunction_firm hΓ hon) fun _ => makeDelegate_firm hΓ hd)

theorem boundReference_refuses (ha : Γ.Admits t) (hd : Γ.symbols.delegate? (some dt) = some d) (h : Γ.Sound w S) :
    Γ.Refuses (Lower.boundReference t name dt d) w := by
  refine .looked _ rfl rfl fun m hm => ?_
  obtain ⟨-, hon, hst, -⟩ := delegateTarget_on ha h hm
  exact .of_firm (.bind (boundFunction_firm hΓ hon (hst false rfl)) fun _ => makeDelegate_firm hΓ hd)

theorem reference_refuses {target : Expr} {spelling : Text} {hint : Option Ty}
    (ho : target.isMissing = false → Γ.Operand false operand) (hh : ∀ t, hint = some t → Γ.Admits t)
    (hn : spelling.isEmpty = false → Γ.Named spelling) (h : Γ.Sound w S) :
    Γ.Refuses (Lower.reference target operand name spelling hint) w := by
  refine .bind (delegateType_follows hΓ hh hn h) fun r w₁ hr => ?_
  obtain ⟨-, h, -, hd⟩ := delegateType_admits hh hn h hr
  refine .ite (fun _ => ownReference_refuses hΓ hd h) fun hm => .typeTarget h fun o hadm => ?_
  cases o with
  | some t => exact typeReference_refuses hΓ (hadm t rfl) hd h
  | none =>
    have ho := ho (by simpa using hm)
    refine .bind (receiver_follows hΓ ho h) fun r w₂ hr => ?_
    obtain ⟨-, hT, ha, h⟩ := receiver_pushes (fun hp => ho.pushes h hp) hr
    obtain ⟨t, a⟩ := r
    cases a with
    | true => cases (ha rfl).1
    | false => exact boundReference_refuses hΓ hT.admits hd h

theorem ident_refuses {hint : Option Ty} (hh : ∀ t, hint = some t → Γ.Admits t) (h : Γ.Sound w S) :
    Γ.Refuses (Lower.ident name hint called) w := by
  have loaded : ∀ {e : Emission} {p : Pushed}, e.Native Γ.scope.site → Γ.Refuses (do Lower.emit e; return p) w :=
    fun he => .before (.emit hΓ.dynamic he) fun _ => .pure _
  refine .read rfl (.looked (.ok (w.local? name)) rfl rfl fun l hl => ?_)
  cases l with
  | some l => exact .ite (fun _ => loaded rfl) fun _ => loaded rfl
  | none =>
    dsimp only
    cases Γ.scope.param? name with
    | some p => exact .ite (fun _ => loaded rfl) fun _ => loaded rfl
    | none =>
      refine .looked (.ok (w.symbols.fieldAlong Γ.scope.roles.object Γ.scope.owner name)) rfl rfl fun r hr => ?_
      obtain ⟨hr, -⟩ := Lower.fieldAlong_ok.mp hr
      cases r with
      | ok f =>
        have hf := FieldOn.of_fieldAlong hΓ.ok.owner.admits h hr
        refine .ite (fun _ => .requireInstance fun hi => ?_) fun _ => loadField_refuses hΓ hf
        refine .bind (emitThis_follows hΓ h hi) fun _ _ _ => loadField_refuses hΓ hf
      | error e =>
        refine .symbols (.ite (fun _ => .fail _) fun _ => ?_)
        have hn : Text.empty.isEmpty = false → Γ.Named .empty := fun he => absurd he (by decide)
        refine .bind (delegateType_follows hΓ hh hn h) fun r w₁ hr => ?_
        obtain ⟨-, h, -, hd⟩ := delegateType_admits hh hn h hr
        exact ownReference_refuses hΓ hd h

/-! ### Calls -/

theorem callStatic_refuses (ha : Γ.Admits t) (hargs : Γ.Given args) {hints : List (Option Ty)}
    (hh : ∀ u, some u ∈ hints → Γ.Admits u)
    (h : Γ.Sound w S) : Γ.Refuses (Lower.callStatic t name hints args) w := by
  refine .bind (hargs.follows hh h) fun types w₁ hp => ?_
  obtain ⟨-, h, -⟩ := hargs.supplies hh h hp
  refine .looked _ rfl rfl fun m hm => ?_
  obtain ⟨-, hon, -⟩ := resolve_on hΓ.ok ha h hm
  exact .before (.emit hΓ.dynamic ⟨hon.owned hΓ, by simp⟩) fun _ => .pure _

/-- Where a value that is called on is put into a temporary first. -/
theorem Refuses.ready (hT : Γ.Holds t) {a : Bool} (ha : a = true → t.isValue = true)
    (h : Γ.Sound w (Pushed.slot { type := some t, isAddress := a } :: S)) {α : Type} {rest : Lower α}
    (hr : ∀ {w₁ : Work} {S₁ : List Slot}, Γ.Sound w₁ S₁ → Γ.Refuses rest w₁) :
    Γ.Refuses (if t.isValue && !a then Lower.spillAddress t >>= fun _ => rest else rest) w := by
  refine .ite (fun hv => ?_) fun hv => hr h
  have hs : Γ.Sound w (.value (some t) :: S) := by
    cases a with
    | true => simp at hv
    | false => exact h
  refine .bind (.of_refuses hΓ (spillAddress_refuses hΓ hT hs) (Lower.Lists.stepwise.spillAddress t) fun _ w₁ hw => ?_)
      fun _ w₁ hw => ?_
  all_goals
    obtain ⟨-, s, -, h₁⟩ := receiver_ready hT ha h (.inl ⟨hv, hw⟩)
  · exact ⟨_, h₁⟩
  · exact hr h₁

theorem callInstance_refuses (hT : Γ.Holds t) {a : Bool} (ha : a = true → t.isValue = true) (hargs : Γ.Given args)
    (h : Γ.Sound w (Pushed.slot { type := some t, isAddress := a } :: S)) :
      Γ.Refuses (Lower.callInstance t a name args) w := by
  refine .ready hΓ hT ha h fun {w₁ S₁} h => .looked (.ok _) rfl rfl fun hints hh => ?_
  obtain ⟨-, hh⟩ := candidates_params hΓ.ok h hh
  refine .bind (hargs.follows hh h) fun types w₂ hp => ?_
  obtain ⟨-, h, -⟩ := hargs.supplies hh h hp
  refine .looked _ rfl rfl fun m hm => ?_
  obtain ⟨-, hon, hst, -⟩ := resolve_on hΓ.ok hT.admits h hm
  exact .before (.emit hΓ.dynamic ⟨hon.owned hΓ, by simp [hst]⟩) fun _ => .pure _

theorem callGetter_refuses (hT : Γ.Holds t) {a : Bool} (ha : a = true → t.isValue = true) (hon : Γ.MethodOn t m)
    (hst : m.isStatic = false) (h : Γ.Sound w (Pushed.slot { type := some t, isAddress := a } :: S)) :
    Γ.Refuses (Lower.callGetter t a m) w :=
  .ready hΓ hT ha h fun _ => .before (.emit hΓ.dynamic ⟨hon.owned hΓ, by simp [hst]⟩) fun _ => .pure _

theorem spillArguments_refuses {position : Nat} {types : List (Option Ty)} (hT : ∀ t, some t ∈ types → Γ.Holds t)
    (h : Γ.Sound w (types.map Slot.value ++ S)) : Γ.Refuses (Lower.spillArguments name position types) w := by
  induction types generalizing position w with
  | nil => exact .pure _
  | cons x types ih =>
    cases x with
    | none => exact .fail _
    | some t =>
      refine .bind (.declareLocal hΓ _ _) fun l w₁ hl => ?_
      obtain ⟨hidx, -, h, -, -, -, -⟩ := h.declareLocal (hT t List.mem_cons_self) hl
      have stored : ∀ {u : Unit} {w₂ : Work}, Lower.emit (.local .stloc (some l)) Γ.scope w₁ = .ok (u, w₂) →
          Γ.Sound w₂ (types.map Slot.value ++ S) := fun he =>
        (h.emit he fun hi => .setLoc (Emission.local_le hi) hidx (by simp [Ty.accepts, Ty.same])).2
      refine .bind (.of_refuses hΓ (.emit hΓ.dynamic rfl) (.emit rfl) fun _ w₂ he => ⟨_, stored he⟩) fun _ w₂ he => ?_
      exact .before (ih (fun t ht => hT t (List.mem_cons_of_mem _ ht)) (stored he)) fun _ => .pure _

theorem loadAll_follows {types : List (Option Ty)} {ls : List LocalSlot} (hs : Spilled w types ls) (h : Γ.Sound w S) :
    Γ.Follows (forIn ls PUnit.unit fun l _ => do
      Lower.emit (.local .ldloc (some l))
      pure (ForInStep.yield PUnit.unit) : Lower PUnit) w := by
  refine .of_refuses hΓ ?_ (Lower.Lists.stepwise.forIn ls fun l => .emit rfl) fun _ w₁ hl => ⟨_, (loadAll_sound hs h hl).2⟩
  induction ls generalizing w types S with
  | nil =>
    rw [List.forIn_nil]
    exact .pure _
  | cons l ls ih =>
    rw [List.forIn_cons, bind_assoc]
    have loads : ∀ {u : Unit} {w₁ : Work}, Lower.emit (.local .ldloc (some l)) Γ.scope w = .ok (u, w₁) →
        w.Kept w₁ ∧ Γ.Sound w₁ (.value (some l.type) :: S) := fun he =>
      h.emit he fun hi => .loc (Emission.local_le hi) (hs.locals l List.mem_cons_self)
    refine .bind (.of_refuses hΓ (.emit hΓ.dynamic rfl) (.emit rfl) fun _ w₁ he => ⟨_, (loads he).2⟩) fun _ w₁ he => ?_
    obtain ⟨k, h⟩ := loads he
    rw [pure_bind]
    have hspilled : Spilled w₁ (ls.map fun l => some l.type) ls :=
      ⟨rfl, fun x hx => k.locals (hs.locals x (List.mem_cons_of_mem _ hx))⟩
    exact ih hspilled h

theorem callMixed_refuses (hi : Γ.scope.isStatic = false) (hargs : Γ.Given args) (h : Γ.Sound w S) :
    Γ.Refuses (Lower.callMixed name args) w := by
  have none_hinted : ∀ t, some t ∈ ([] : List (Option Ty)) → Γ.Admits t := fun t ht => absurd ht List.not_mem_nil
  refine .bind (hargs.follows none_hinted h) fun types w₁ hp => ?_
  obtain ⟨-, h, hT⟩ := hargs.supplies none_hinted h hp
  have hT : ∀ t, some t ∈ types.reverse → Γ.Holds t := fun t ht => hT t (List.mem_reverse.mp ht)
  have h : Γ.Sound w₁ (types.reverse.map Slot.value ++ S) := by
    rw [Slot.arguments, ← List.map_reverse] at h
    exact h
  refine .bind (.of_refuses hΓ (spillArguments_refuses hΓ hT h) (Lower.Lists.stepwise.spillArguments ..)
      fun temps w₂ hs => ?_)
    fun temps w₂ hs => ?_
  · exact ⟨S, (spillArguments_sound hT h hs).2.1⟩
  obtain ⟨-, h, hspilled⟩ := spillArguments_sound hT h hs
  refine .read rfl (.symbols ?_)
  dsimp only
  cases hfind : (w₂.symbols.methodsOf Γ.scope.owner name).find? fun m => Ty.sameList m.params types with
  | none => exact .fail _
  | some m =>
    have hon := MethodOn.own hΓ.ok h (List.mem_of_find?_eq_some hfind)
    have native : (Emission.method (if m.isStatic then .call else Lower.callOp Γ.scope.owner) m).Native Γ.scope.site := by
      refine ⟨hon.owned hΓ, ?_⟩
      rintro ⟨hop, hst⟩
      rw [if_pos hst] at hop
      cases hop
    have called : ∀ {w₃ : Work} {S₃ : List Slot}, Spilled w₃ types.reverse.reverse temps → Γ.Sound w₃ S₃ → Γ.Refuses (do
        for l in temps do Lower.emit (.local .ldloc (some l))
        Lower.emit (.method (if m.isStatic then .call else Lower.callOp Γ.scope.owner) m)
        return { type := m.ret : Pushed }) w₃ := fun hs h =>
      .bind (loadAll_follows hΓ hs h) fun _ _ _ => .before (.emit hΓ.dynamic native) fun _ => .pure _
    refine .ite (fun _ => ?_) fun _ => called hspilled h
    refine .bind (emitThis_follows hΓ h hi) fun _ w₃ he => ?_
    obtain ⟨k, h⟩ := h.loadThis hi he
    exact called (hspilled.kept k) h

theorem isDelegateVariable_follows (h : Γ.Sound w S) : Γ.Follows (Lower.isDelegateVariable name) w := by
  refine .of_refuses hΓ ?_ (Lower.Lists.stepwise.isDelegateVariable name) fun b w₁ hb =>
    ⟨S, isDelegateVariable_still hb ▸ h⟩
  refine .looked (.ok (w.local? name)) rfl rfl fun l _ => ?_
  cases l with
  | some l => exact .pure _
  | none =>
    refine .read rfl ?_
    cases Γ.scope.param? name with
    | some p => exact .pure _
    | none =>
      refine .read rfl (.looked (.ok (w.symbols.fieldAlong Γ.scope.roles.object Γ.scope.owner name)) rfl rfl fun r _ => ?_)
      cases r with
      | ok f => exact .pure _
      | error e => exact .pure _

theorem callOwn_refuses (hargs : Γ.Given args) (h : Γ.Sound w S) : Γ.Refuses (Lower.callOwn name args) w := by
  refine .read rfl (.bind (isDelegateVariable_follows hΓ h) fun b w₁ hb => ?_)
  obtain rfl := isDelegateVariable_still hb
  refine .ite (fun _ => ?_) fun _ => .symbols (.ite (fun _ => .fail _) fun _ => ?_)
  · have yields : ∀ {v : Pushed} {w₂ : Work}, Lower.ident name none false Γ.scope w₁ = .ok (v, w₂) →
        Γ.Yields w₁ S false v w₂ :=
      fun hv => ident_yields hΓ.ok (no_hint Γ) h hv
    refine .bind (.of_refuses hΓ (ident_refuses hΓ (no_hint Γ) h) (Lower.Lists.stepwise.ident ..) fun v w₂ hv => ?_)
        fun v w₂ hv => ?_
    · exact ⟨_, (yields hv).value (yields hv).notVoid⟩
    have hY := yields hv
    cases ht : v.type with
    | none => exact .fail _
    | some t =>
      have hslot : v = { type := some t, isAddress := v.isAddress } := by rw [← ht]
      have hT : Γ.Holds t := ⟨hY.admits ht, by have := hY.notVoid; rw [ht] at this; exact this⟩
      refine callInstance_refuses hΓ hT (fun ha => nomatch (hY.address ha).1) hargs (S := S) ?_
      rw [← hslot]
      exact hY.value hY.notVoid
  · have own : ∀ m ∈ w₁.symbols.methodsOf Γ.scope.owner name, ∀ p ∈ m.params, ∃ t, p = some t ∧ Γ.Holds t :=
      fun m hm => (MethodOn.own hΓ.ok h hm).params hΓ.ok
    have inst : ∀ {b : Bool}, ¬(Γ.scope.isStatic || b) = true → Γ.scope.isStatic = false := by
      intro b hb
      simp only [Bool.or_eq_true, not_or, Bool.not_eq_true] at hb
      exact hb.1
    refine .ite (fun _ => .fail _) fun _ => .ite (fun _ => ?_) fun hi => .ite (fun _ => ?_) fun _ =>
      callMixed_refuses hΓ (inst hi) hargs h
    · refine callStatic_refuses hΓ hΓ.ok.owner.admits hargs (hints_admitted fun m hm => ?_) h
      exact own m (List.mem_filter.mp (List.mem_filter.mp hm).1).1
    · refine .bind (emitThis_follows hΓ h (inst hi)) fun _ w₂ he => ?_
      exact callInstance_refuses hΓ hΓ.ok.owner (fun ha => (by cases ha)) hargs (h.loadThis (inst hi) he).2

/-! ### Operators, elements and members -/

theorem negate_firm : Γ.Firm Lower.negate := .bind (hΓ.emit trivial rfl) fun _ => hΓ.emit rfl rfl

theorem emitComparison_firm (op : BinaryOp) : Γ.Firm (Lower.emitComparison op) := by
  cases op
  case ne | le | ge => exact .bind (hΓ.emit rfl rfl) fun _ => negate_firm hΓ
  all_goals exact hΓ.emit rfl rfl

theorem compare_refuses (op : BinaryOp) (lt rt : Option Ty) : Γ.Refuses (Lower.compare op lt rt) w := by
  have comparison : ∀ t : Ty, Γ.Refuses (do
      Lower.emitComparison op
      return { type := some t : Pushed }) w := fun t => .of_firm (.bind (emitComparison_firm hΓ op) fun _ => .pure _)
  exact .read rfl (.ite (fun _ => .ite (fun _ => comparison _) fun _ => .fail _) fun _ =>
    .ite (fun _ => comparison _) fun _ => .fail _)

theorem applyBinary_refuses (op : BinaryOp) (lt rt : Option Ty) (h : Γ.Sound w S) :
    Γ.Refuses (Lower.applyBinary op lt rt) w := by
  have arithmetic : Γ.Refuses (do
      Lower.emit (.plain (Lower.arithmetic op))
      return { type := lt : Pushed }) w := .before (.emit hΓ.dynamic (by cases op <;> rfl)) fun _ => .pure _
  refine .read rfl (.ite (fun _ => .fail _) fun _ => .ite (fun _ => compare_refuses hΓ op lt rt) fun _ =>
    .ite (fun _ => .fail _) fun _ =>
    .ite (fun _ => .ite (fun _ => arithmetic) fun _ => .fail _) fun _ => .ite (fun _ => ?_) fun _ =>
      .ite (fun _ => arithmetic) fun _ => .fail _)
  refine .symbols (.looked _ rfl rfl fun m hm => .before (.emit hΓ.dynamic ⟨?_, by simp⟩) fun _ => .pure _)
  obtain ⟨hmem, -⟩ := Symbols.findMethod_mem (Lower.ofExcept_ok.mp hm).1
  rw [h.reads.grown.allMethods] at hmem
  exact hΓ.method hmem

theorem applyUnary_refuses (op : UnaryOp) (o : Option Ty) : Γ.Refuses (Lower.applyUnary op o) w := by
  refine .read rfl (.ite (fun _ => ?_) fun _ => .ite (fun _ => ?_) fun _ => .ite (fun _ => ?_) fun _ => .fail _)
  · exact .of_firm (.bind (hΓ.emit rfl rfl) fun _ => .pure _)
  · exact .of_firm (.bind (negate_firm hΓ) fun _ => .pure _)
  · exact .of_firm (.bind (hΓ.emit rfl rfl) fun _ => .pure _)

theorem element_follows {array : Lower Pushed} {position : Option Ty → Lower Pushed} (ha : Γ.Operand false array)
    (hl : ∀ hint, (position hint).Lists)
    (hp : ∀ {hint}, (∀ t, hint = some t → Γ.Admits t) → Γ.Operand false (position hint))
    (h : Γ.Sound w S) : Γ.Follows (Lower.element array position) w := by
  refine .of_refuses hΓ (.bind (ha.follows h) fun a w₁ hr => ?_)
      (Lower.Lists.stepwise.element ha.lists hl) fun e w₁ he => ?_
  · obtain ⟨S₁, h⟩ := (ha.pushes h hr).sound hΓ.voidless
    cases a.type.bind Ty.elem? with
    | none => exact .fail _
    | some e =>
      refine .read rfl (.bind ((hp fun t ht => by cases ht; exact hΓ.ok.roles.1).follows h) fun i w₂ _ => ?_)
      exact .ite (fun _ => .pure _) fun _ => .fail _
  · obtain ⟨-, -, n, -, h⟩ := element_sound hΓ.ok (fun h hp => ha.pushes h hp) (fun hh h h' => (hp hh).pushes h h') h he
    exact ⟨_, h⟩

theorem loadElement_refuses (e : Ty) (called : Bool) : Γ.Refuses (Lower.loadElement e called) w :=
  .ite (fun _ => .before (.emit hΓ.dynamic rfl) fun _ => .pure _) fun _ => .before (.emit hΓ.dynamic rfl) fun _ => .pure _

theorem staticMember_refuses {hint : Option Ty} (ht : Γ.Admits t) (h : Γ.Sound w S) :
    Γ.Refuses (Lower.staticMember t name hint called) w := by
  refine .looked (.ok (w.symbols.fieldAlong Γ.scope.roles.object t name)) rfl rfl fun r hr => ?_
  obtain ⟨hr, -⟩ := Lower.fieldAlong_ok.mp hr
  cases r with
  | ok f => exact .ite (fun _ => loadField_refuses hΓ (.of_fieldAlong ht h hr)) fun _ => .fail _
  | error e =>
    refine .symbols ?_
    cases hint with
    | none => exact .fail _
    | some dt =>
      cases hd : w.symbols.delegate? (some dt) with
      | none =>
        exact .fail _
      | some d =>
        rw [h.reads.grown.delegate?] at hd
        exact .symbols (.read rfl (.ite (fun _ => .fail _) fun _ => typeReference_refuses hΓ ht hd h))

theorem property_refuses (hT : Γ.Holds t) {a : Bool} (ha : a = true → t.isValue = true)
    (h : Γ.Sound w (Pushed.slot { type := some t, isAddress := a } :: S)) :
    Γ.Refuses (Lower.instanceMember.property Γ.scope.roles t a name) w := by
  refine .symbols ?_
  cases hr : w.symbols.resolve Γ.scope.roles.object t ("get_" ++ name) [] false with
  | error e =>
    exact .fail _
  | ok m =>
    obtain ⟨hon, hst, -⟩ := MethodOn.of_resolve hΓ.ok hT.admits h hr
    exact callGetter_refuses hΓ hT ha hon hst h

theorem instanceMember_refuses (hT : Γ.Holds t) {a : Bool} {hint : Option Ty} (ha : a = true → t.isValue = true)
    (h : Γ.Sound w (Pushed.slot { type := some t, isAddress := a } :: S)) :
    Γ.Refuses (Lower.instanceMember t a name hint called) w := by
  refine .read rfl (.ite (fun _ => .before (.emit hΓ.dynamic rfl) fun _ => .pure _) fun _ => ?_)
  refine .looked (.ok (w.symbols.fieldAlong Γ.scope.roles.object t name)) rfl rfl fun r hr => ?_
  obtain ⟨hr, -⟩ := Lower.fieldAlong_ok.mp hr
  cases r with
  | ok f => exact .ite (fun _ => .fail _) fun _ => loadField_refuses hΓ (.of_fieldAlong hT.admits h hr)
  | error e =>
    refine .symbols ?_
    have property : Γ.Refuses (Lower.instanceMember.property Γ.scope.roles t a name) w := property_refuses hΓ hT ha h
    cases hint with
    | none => exact property
    | some dt =>
      cases hd : w.symbols.delegate? (some dt) with
      | none =>
        exact property
      | some d =>
        rw [h.reads.grown.delegate?] at hd
        exact .symbols (.ite (fun _ => property) fun _ => boundReference_refuses hΓ hT.admits hd h)

theorem construct_refuses (hargs : Γ.Given args) (h : Γ.Sound w S) : Γ.Refuses (Lower.construct t args) w := by
  have hh : ∀ u, some u ∈ Ty.hints (Γ.scope.ctorsOf t) args.count → Γ.Admits u :=
    hints_admitted fun m hm => hΓ.ok.params (.inr (.inr hm))
  refine .ite (fun _ => .fail _) fun _ => .read rfl (.bind (hargs.follows hh h) fun types w₁ hp => .symbols ?_)
  obtain ⟨-, h, -⟩ := hargs.supplies hh h hp
  refine .looked _ rfl rfl fun c hc => .before (.emit hΓ.dynamic ?_) fun _ => .pure _
  obtain ⟨hmem, -⟩ := Symbols.findConstructor_mem (Lower.ofExcept_ok.mp hc).1
  rw [h.reads.grown.ctorsOf] at hmem
  exact hΓ.ctor hmem

theorem constructArray_refuses {elem : Text} {size : Option Ty → Lower Pushed} (hn : Γ.Named (TypeName.array elem))
    (hs : ∀ {hint}, (∀ t, hint = some t → Γ.Admits t) → Γ.Operand false (size hint)) (h : Γ.Sound w S) :
    Γ.Refuses (Lower.constructArray elem size) w := by
  refine .bind (.lookupType _) fun array w₁ hl => .read rfl ?_
  obtain ⟨s, hlookup, -⟩ := Lower.lookupType_ok.mp hl
  have helem : array.elem?.isSome = true := by
    rw [Ty.isSome_elem?]
    exact h.reads.grown.lookup_array hΓ.arrays hlookup
  obtain ⟨-, -, h⟩ := h.lookupType hn hl
  refine .bind ((hs fun t ht => by cases ht; exact hΓ.ok.roles.1).follows h) fun n w₂ _ =>
    .ite (fun _ => ?_) fun _ => .fail _
  exact .before (.emit hΓ.dynamic helem) fun _ => .pure _

/-! ### Expressions -/

theorem Operand.of_refuses {e : Expr} {hint : Option Ty} (hn : ∀ n ∈ e.typeNames, Γ.Named n)
    (hh : ∀ t, hint = some t → Γ.Admits t)
    (h : ∀ {w : Work} {S : List Slot}, Γ.Sound w S → Γ.Refuses (Lower.expr e hint called) w) :
    Γ.Operand called (Lower.expr e hint called) where
  lists := Lower.Lists.stepwise.expr hint called e
  pushes hs hp := expr_pushes hΓ.ok e hn hh hs hp
  follows hs := .of_refuses hΓ (h hs) (Lower.Lists.stepwise.expr hint called e) fun _ _ hp =>
    (expr_pushes hΓ.ok e hn hh hs hp).sound hΓ.voidless

theorem Given.of_refuses {es : List Expr} (hn : ∀ n ∈ Expr.typeNamesAll es, Γ.Named n)
    (h : ∀ {hints : List (Option Ty)} {w : Work} {S : List Slot}, (∀ t, some t ∈ hints → Γ.Admits t) → Γ.Sound w S →
      Γ.Refuses (Lower.arguments 1 hints es) w) :
    Γ.Given { count := es.length, push := fun hints => Lower.arguments 1 hints es } where
  lists hints := Lower.Lists.stepwise.arguments 1 hints es
  supplies hh hs ha := arguments_supply hΓ.ok es hn hh hs ha
  follows hh hs := .of_refuses hΓ (h hh hs) (Lower.Lists.stepwise.arguments 1 _ es) fun _ _ ha =>
    ⟨_, (arguments_supply hΓ.ok es hn hh hs ha).2.1⟩

end Parts

mutual

/-- Lowering an expression fails in a listing where it fails. -/
theorem expr_refuses (hΓ : Γ.Listable) {hint : Option Ty} {called : Bool} {w : Work} {S : List Slot} : ∀ e : Expr,
    (∀ n ∈ e.typeNames, Γ.Named n) → (∀ t, hint = some t → Γ.Admits t) → Γ.Sound w S →
      Γ.Refuses (Lower.expr e hint called) w
  | .missing, _, _, _ => by
    rw [Lower.expr]
    exact .fail _
  | .int v, _, _, h => by
    rw [Lower.expr]
    exact .of_firm (.bind (hΓ.emit trivial rfl) fun _ => .bind .read fun _ => .pure _)
  | .bool b, _, _, h => by
    rw [Lower.expr]
    exact .of_firm (.bind (hΓ.emit trivial rfl) fun _ => .bind .read fun _ => .pure _)
  | .string s, _, _, h => by
    rw [Lower.expr]
    exact .of_firm (.bind (hΓ.emit trivial rfl) fun _ => .bind .read fun _ => .pure _)
  | .null, _, _, h => by
    rw [Lower.expr]
    exact .of_firm (.bind (hΓ.emit rfl rfl) fun _ => .pure _)
  | .this, _, _, h => by
    rw [Lower.expr]
    exact .requireInstance fun hi => .before (.emit hΓ.dynamic rfl) fun _ => .bind .read fun _ => .pure _
  | .ident name, _, hh, h => by
    rw [Lower.expr]
    exact ident_refuses hΓ hh h
  | .member target name, hn, hh, h => by
    rw [Lower.expr]
    refine .typeTarget h fun o hadm => ?_
    cases o with
    | some t => exact staticMember_refuses hΓ (hadm t rfl) h
    | none =>
      have ht : ∀ n ∈ target.typeNames, Γ.Named n := fun n h => hn n (by rw [Expr.typeNames]; exact h)
      have ho : ∀ called, Γ.Operand called (Lower.expr target none called) := fun _ =>
        .of_refuses hΓ ht (no_hint Γ) fun h => expr_refuses hΓ target ht (no_hint Γ) h
      refine .symbols (.bind (receiver_follows hΓ (ho _) h) fun r w₁ hr => ?_)
      obtain ⟨-, hT, ha, h⟩ := receiver_pushes (fun hp => (ho _).pushes h hp) hr
      exact instanceMember_refuses hΓ hT (fun h => (ha h).2) h
  | .index array position, hn, _, h => by
    rw [Lower.expr]
    simp only [Expr.typeNames, List.mem_append] at hn
    have ha : ∀ n ∈ array.typeNames, Γ.Named n := fun n h => hn n (.inl h)
    have hp : ∀ n ∈ position.typeNames, Γ.Named n := fun n h => hn n (.inr h)
    have array : Γ.Operand false (Lower.expr array none false) :=
      .of_refuses hΓ ha (no_hint Γ) fun h => expr_refuses hΓ array ha (no_hint Γ) h
    exact .bind (element_follows hΓ array (fun hint => Lower.Lists.stepwise.expr hint false position)
      (fun hh => .of_refuses hΓ hp hh fun h => expr_refuses hΓ position hp hh h) h) fun e w₁ _ =>
        loadElement_refuses hΓ e called
  | .binary op left right, hn, _, h => by
    rw [Lower.expr]
    simp only [Expr.typeNames, List.mem_append] at hn
    have hl : ∀ n ∈ left.typeNames, Γ.Named n := fun n h => hn n (.inl h)
    have hr : ∀ n ∈ right.typeNames, Γ.Named n := fun n h => hn n (.inr h)
    have hL : Γ.Operand false (Lower.expr left none false) :=
      .of_refuses hΓ hl (no_hint Γ) fun h => expr_refuses hΓ left hl (no_hint Γ) h
    refine .bind (hL.follows h) fun l w₁ h1 => ?_
    have hP := hL.pushes h h1
    obtain ⟨S₁, h⟩ := hP.sound hΓ.voidless
    have hR : Γ.Operand false (Lower.expr right l.type false) :=
      .of_refuses hΓ hr (fun t ht => hP.admits ht) fun h => expr_refuses hΓ right hr (fun t ht => hP.admits ht) h
    refine .bind (hR.follows h) fun r w₂ h2 => ?_
    obtain ⟨S₂, h⟩ := (hR.pushes h h2).sound hΓ.voidless
    exact applyBinary_refuses hΓ op _ _ h
  | .unary op operand, hn, _, h => by
    rw [Lower.expr]
    have ho : ∀ n ∈ operand.typeNames, Γ.Named n := fun n h => hn n (by rw [Expr.typeNames]; exact h)
    have hO : Γ.Operand false (Lower.expr operand none false) :=
      .of_refuses hΓ ho (no_hint Γ) fun h => expr_refuses hΓ operand ho (no_hint Γ) h
    exact .bind (hO.follows h) fun v w₁ _ => applyUnary_refuses hΓ op _
  | .call target name args, hn, _, h => by
    rw [Lower.expr]
    simp only [Expr.typeNames, List.mem_append] at hn
    have ht : ∀ n ∈ target.typeNames, Γ.Named n := fun n h => hn n (.inl h)
    have ha : ∀ n ∈ Expr.typeNamesAll args, Γ.Named n := fun n h => hn n (.inr h)
    have hargs : Γ.Given { count := args.length, push := fun hints => Lower.arguments 1 hints args } :=
      .of_refuses hΓ ha fun hh h => arguments_refuses hΓ args ha hh h
    refine .ite (fun _ => callOwn_refuses hΓ hargs h) fun _ => .typeTarget h fun o hadm => ?_
    cases o with
    | some t =>
      refine .looked (.ok _) rfl rfl fun hints hh => ?_
      exact callStatic_refuses hΓ (hadm t rfl) hargs (candidates_params hΓ.ok h hh).2 h
    | none =>
      have ho : Γ.Operand true (Lower.expr target none true) :=
        .of_refuses hΓ ht (no_hint Γ) fun h => expr_refuses hΓ target ht (no_hint Γ) h
      refine .bind (receiver_follows hΓ ho h) fun r w₁ hr => ?_
      obtain ⟨-, hT, ha, h⟩ := receiver_pushes (fun hp => ho.pushes h hp) hr
      exact callInstance_refuses hΓ hT (fun h => (ha h).2) hargs h
  | .new type args, hn, _, h => by
    rw [Lower.expr]
    simp only [Expr.typeNames, List.mem_cons] at hn
    have ha : ∀ n ∈ Expr.typeNamesAll args, Γ.Named n := fun n h => hn n (.inr h)
    refine .bind (.lookupType _) fun t w₁ hl => .symbols ?_
    obtain ⟨ht, -, h⟩ := h.lookupType (hn type (.inl rfl)) hl
    cases w₁.symbols.delegate? (some t) with
    | some d => exact delegateOf_refuses hΓ args ha ht h
    | none => exact construct_refuses hΓ (.of_refuses hΓ ha fun hh h => arguments_refuses hΓ args ha hh h) h
  | .newArray elem size, hn, _, h => by
    rw [Lower.expr]
    simp only [Expr.typeNames, List.mem_cons] at hn
    have hs : ∀ n ∈ size.typeNames, Γ.Named n := fun n h => hn n (.inr h)
    exact constructArray_refuses hΓ (hn _ (.inl rfl))
        (fun hh => .of_refuses hΓ hs hh fun h => expr_refuses hΓ size hs hh h) h
  | .methodRef target name spelling, hn, hh, h => by
    rw [Lower.expr]
    simp only [Expr.typeNames, List.mem_append] at hn
    have ht : ∀ n ∈ target.typeNames, Γ.Named n := fun n h => hn n (.inr h)
    exact reference_refuses hΓ (fun _ => .of_refuses hΓ ht (no_hint Γ) fun h => expr_refuses hΓ target ht (no_hint Γ) h) hh
      (fun hs => hn spelling (.inl (by simp [hs]))) h

/-- Lowering arguments. -/
theorem arguments_refuses (hΓ : Γ.Listable) {position : Nat} {hints : List (Option Ty)} {w : Work} {S : List Slot} :
    ∀ es : List Expr, (∀ n ∈ Expr.typeNamesAll es, Γ.Named n) → (∀ t, some t ∈ hints → Γ.Admits t) → Γ.Sound w S →
    Γ.Refuses (Lower.arguments position hints es) w
  | [], _, _, _ => by
    rw [Lower.arguments]
    exact .pure _
  | e :: es, hn, hh, h => by
    rw [Lower.arguments]
    simp only [Expr.typeNamesAll, List.mem_append] at hn
    have he : ∀ n ∈ e.typeNames, Γ.Named n := fun n h => hn n (.inl h)
    have hO : Γ.Operand false (Lower.expr e hints.head?.join false) :=
      .of_refuses hΓ he (head_admits hh) fun h => expr_refuses hΓ e he (head_admits hh) h
    refine .bind (hO.follows h) fun v w₁ hv => .ite (fun _ => .fail _) fun hvoid => ?_
    have h := (hO.pushes h hv).plain (by simpa using hvoid)
    exact .before (arguments_refuses hΓ es (fun n h => hn n (.inr h)) (fun t ht => hh t (List.mem_of_mem_tail ht)) h)
        fun _ => .pure _

/-- Lowering what a delegate is made from. -/
theorem delegateOf_refuses (hΓ : Γ.Listable) {dt : Ty} {w : Work} {S : List Slot} : ∀ es : List Expr,
    (∀ n ∈ Expr.typeNamesAll es, Γ.Named n) → Γ.Admits dt → Γ.Sound w S → Γ.Refuses (Lower.delegateOf dt es) w
  | [e], hn, ht, h => by
    rw [Lower.delegateOf]
    exact methodGroup_refuses hΓ e (fun n h => hn n (by simp [Expr.typeNamesAll, h])) ht h
  | [], _, _, _ => .fail _
  | _ :: _ :: _, _, _, _ => .fail _

/-- Lowering the name of a method. -/
theorem methodGroup_refuses (hΓ : Γ.Listable) {dt : Ty} {w : Work} {S : List Slot} : ∀ e : Expr,
    (∀ n ∈ e.typeNames, Γ.Named n) → Γ.Admits dt → Γ.Sound w S → Γ.Refuses (Lower.methodGroup dt e) w
  | .methodRef target name spelling, hn, ht, h => by
    rw [Lower.methodGroup]
    simp only [Expr.typeNames, List.mem_append] at hn
    have hm : ∀ n ∈ target.typeNames, Γ.Named n := fun n h => hn n (.inr h)
    exact reference_refuses hΓ (fun _ => .of_refuses hΓ hm (no_hint Γ) fun h => expr_refuses hΓ target hm (no_hint Γ) h)
      (fun t ht' => by cases ht'; exact ht) (fun hs => hn spelling (.inl (by simp [hs]))) h
  | .member target name, hn, ht, h => by
    rw [Lower.methodGroup]
    have hm : ∀ n ∈ target.typeNames, Γ.Named n := fun n h => hn n (by rw [Expr.typeNames]; exact h)
    exact reference_refuses hΓ (fun _ => .of_refuses hΓ hm (no_hint Γ) fun h => expr_refuses hΓ target hm (no_hint Γ) h)
      (fun t ht' => by cases ht'; exact ht) (fun hs => absurd hs (by decide)) h
  | .ident name, _, ht, h => by
    rw [Lower.methodGroup]
    exact reference_refuses hΓ (fun hm => nomatch hm) (fun t ht' => by cases ht'; exact ht)
        (fun hs => absurd hs (by decide)) h
  | .missing, _, _, _ | .int _, _, _, _ | .string _, _, _, _ | .bool _, _, _, _ | .null, _, _, _ | .this, _, _, _
  | .index .., _, _, _
  | .binary .., _, _, _ | .unary .., _, _, _ | .call .., _, _, _ | .new .., _, _, _ | .newArray .., _, _, _ => .fail _

end

section Statements

variable (hΓ : Γ.Listable) {e : Expr} {hint : Option Ty} {name : Text}
include hΓ

theorem expr_operand {called : Bool} (hn : ∀ n ∈ e.typeNames, Γ.Named n) (hh : ∀ t, hint = some t → Γ.Admits t) :
    Γ.Operand called (Lower.expr e hint called) :=
  .of_refuses hΓ hn hh fun h => expr_refuses hΓ e hn hh h

theorem value_follows (hn : ∀ n ∈ e.typeNames, Γ.Named n) (hh : ∀ t, hint = some t → Γ.Admits t) (h : Γ.Sound w S) :
    Γ.Follows (Lower.value e hint) w := by
  have ho : Γ.Operand false (Lower.expr e hint false) := expr_operand hΓ hn hh
  refine .of_refuses hΓ (.before (ho.follows h).refuses fun _ => .pure _)
      (Lower.Lists.stepwise.value e hint) fun o w₁ hv => ?_
  obtain ⟨p, _, hp, hv⟩ := Lower.bind_ok.mp hv
  obtain ⟨-, rfl⟩ := Lower.pure_ok.mp hv
  exact (ho.pushes h hp).sound hΓ.voidless

/-! ### Assignments -/

theorem identPlace_refuses (h : Γ.Sound w S) : Γ.Refuses (Lower.identPlace name) w := by
  refine .read rfl (.looked (.ok (w.local? name)) rfl rfl fun l _ => ?_)
  cases l with
  | some l => exact .pure _
  | none =>
    dsimp only
    cases Γ.scope.param? name with
    | some p => exact .pure _
    | none =>
      refine .looked (.ok (w.symbols.fieldAlong Γ.scope.roles.object Γ.scope.owner name)) rfl rfl fun r _ => ?_
      cases r with
      | error e => exact .fail _
      | ok f =>
        refine .ite (fun _ => .pure _) fun _ => .requireInstance fun hi => ?_
        exact .bind (emitThis_follows hΓ h hi) fun _ _ _ => .pure _

theorem memberPlace_refuses (hn : ∀ n ∈ e.typeNames, Γ.Named n) (h : Γ.Sound w S) :
    Γ.Refuses (Lower.memberPlace e name) w := by
  refine .typeTarget h fun o _ => ?_
  cases o with
  | some t =>
    refine .looked (.ok (w.symbols.fieldAlong Γ.scope.roles.object t name)) rfl rfl fun r _ =>
      .looked _ rfl rfl fun f _ => ?_
    exact .ite (fun _ => .pure _) fun _ => .fail _
  | none =>
    refine .bind (receiver_follows hΓ (expr_operand hΓ hn (no_hint Γ)) h) fun r w₁ _ => ?_
    refine .looked (.ok (w₁.symbols.fieldAlong Γ.scope.roles.object r.1 name)) rfl rfl fun f _ => ?_
    cases f with
    | error e => exact .ite (fun _ => .fail _) fun _ => .fail _
    | ok f => exact .ite (fun _ => .fail _) fun _ => .pure _

theorem place_follows (hn : ∀ n ∈ e.typeNames, Γ.Named n) (h : Γ.Sound w S) : Γ.Follows (Lower.place e) w := by
  refine .of_refuses hΓ ?_ (Lower.Lists.stepwise.place e) fun r w₁ hp => ?_
  · cases e with
    | ident name => exact identPlace_refuses hΓ h
    | member target name => exact memberPlace_refuses hΓ (fun n h => hn n (by rw [Expr.typeNames]; exact h)) h
    | index array position =>
      simp only [Expr.typeNames, List.mem_append] at hn
      have ha : ∀ n ∈ array.typeNames, Γ.Named n := fun n h => hn n (.inl h)
      have hp : ∀ n ∈ position.typeNames, Γ.Named n := fun n h => hn n (.inr h)
      exact .before (element_follows hΓ (expr_operand hΓ ha (no_hint Γ))
          (fun hint => Lower.Lists.stepwise.expr hint false position)
        (fun hh => expr_operand hΓ hp hh) h).refuses fun _ => .pure _
    | _ => exact .fail _
  · obtain ⟨-, -, s, -, h⟩ := place_sound hΓ.ok hn h hp
    exact ⟨_, h⟩

theorem store_refuses {p : Place} {o : Option Ty} {s : List Slot} (hp : Γ.Placed w p o s) {w₁ : Work} :
    Γ.Refuses (Lower.store p) w₁ := by
  cases hp with
  | «local» _ => exact .emit hΓ.dynamic rfl
  | arg _ => exact .emit hΓ.dynamic rfl
  | field hst hf => exact .emit hΓ.dynamic ⟨hf.owned hΓ, hst.symm⟩
  | staticField hst hf => exact .emit hΓ.dynamic ⟨hf.owned hΓ, hst.symm⟩
  | element _ _ => exact .emit hΓ.dynamic rfl

theorem assignStmt_refuses {target : Expr} (ht : ∀ n ∈ target.typeNames, Γ.Named n) (hn : ∀ n ∈ e.typeNames, Γ.Named n)
    (h : Γ.Sound w []) : Γ.Refuses (Lower.assignStmt target e) w := by
  refine .bind (place_follows hΓ ht h) fun r w₁ hp => ?_
  obtain ⟨p, o⟩ := r
  obtain ⟨-, hadm, s, hplaced, h⟩ := place_sound hΓ.ok ht h hp
  exact .bind (value_follows hΓ hn hadm h) fun v w₂ _ => .bind (.expect ..) fun _ _ _ => store_refuses hΓ hplaced

/-! ### Simple statements -/

theorem baseCall_refuses (h : Γ.Sound w S) : Γ.Refuses Lower.baseCall w := by
  refine .symbols (.read rfl (.looked _ rfl rfl fun c hc => .before (.emit hΓ.dynamic rfl) fun _ => hΓ.emit ?_ rfl))
  obtain ⟨hmem, -⟩ := Symbols.findConstructor_mem (Lower.ofExcept_ok.mp hc).1
  rw [h.reads.grown.ctorsOf] at hmem
  exact hΓ.ctor hmem

theorem returnStmt_refuses (hn : ∀ n ∈ e.typeNames, Γ.Named n) (h : Γ.Sound w []) : Γ.Refuses (Lower.returnStmt e) w := by
  have leaves : ∀ {w : Work}, Γ.Refuses (Lower.emit (.plain .ret)) w := fun {_} => .emit hΓ.dynamic rfl
  refine .read rfl (.ite (fun _ => .ite (fun _ => leaves) fun _ => .fail _) fun _ => .ite (fun _ => .fail _) fun _ => ?_)
  exact .bind (value_follows hΓ hn (fun t ht => by cases ht; exact hΓ.ok.ret) h) fun _ _ _ =>
    .bind (.expect ..) fun _ _ _ => leaves

theorem declaredType_follows {type : Text} (hn : type.isEmpty = false → Γ.Named type) (h : Γ.Sound w S) :
    Γ.Follows (Lower.declaredType name type) w := by
  refine .of_refuses hΓ ?_ (Lower.Lists.stepwise.declaredType name type) fun o w₁ hd =>
    ⟨S, (declaredType_sound hn h hd).2.1⟩
  exact .ite (fun _ => .pure _) fun _ => .bind (.lookupType _) fun _ _ _ => .ite (fun _ => .fail _) fun _ => .pure _

theorem localStmt_refuses {type : Text} (ht : type.isEmpty = false → Γ.Named type) (hn : ∀ n ∈ e.typeNames, Γ.Named n)
    (h : Γ.Sound w []) :
    Γ.Refuses (Lower.localStmt name type e) w := by
  refine .read rfl (.looked (.ok (w.local? name)) rfl rfl fun l _ => .ite (fun _ => .fail _) fun _ => ?_)
  refine .bind (declaredType_follows hΓ ht h) fun o w₁ hd => ?_
  obtain ⟨-, h, hT⟩ := declaredType_sound ht h hd
  refine .ite (fun _ => ?_) fun _ => ?_
  · cases o with
    | none => exact .fail _
    | some t => exact .before (Follows.declareLocal hΓ _ _).refuses fun _ => .pure _
  · refine .bind (value_follows hΓ hn (fun t ht => (hT t ht).admits) h) fun initial w₂ hv => ?_
    obtain ⟨-, hadm, hs⟩ := value_pushes hΓ.ok hn (fun t ht => (hT t ht).admits) h hv
    refine .bind (.initializedType ..) fun t w₃ _ => .bind (.declareLocal hΓ _ _) fun l w₄ _ => .emit hΓ.dynamic rfl

theorem exprStmt_refuses (hn : ∀ n ∈ e.typeNames, Γ.Named n) (h : Γ.Sound w []) : Γ.Refuses (Lower.exprStmt e) w :=
  .bind ((expr_operand hΓ hn (no_hint Γ)).follows h) fun _ _ _ => .ite (fun _ => .pure _) fun _ => .fail _

/-- A statement that is no loop and no choice. -/
theorem stmt_follows {s : Stmt} (hb : s.branches = false) (hn : ∀ n ∈ s.typeNames, Γ.Named n) (h : Γ.Sound w []) :
    Γ.Follows (Lower.stmt s) w := by
  refine .of_refuses hΓ ?_ (Lower.Lists.stepwise.stmt s hb) fun _ w₁ hs => ⟨[], (stmt_runs hΓ.ok s hn h hs).sound⟩
  cases s with
  | «return» e =>
    rw [Lower.stmt]
    exact returnStmt_refuses hΓ (fun n h => hn n (by rw [Stmt.typeNames]; exact h)) h
  | «local» name type init =>
    rw [Lower.stmt]
    simp only [Stmt.typeNames, List.mem_append] at hn
    exact localStmt_refuses hΓ (fun ht => hn type (.inl (by simp [ht]))) (fun n h => hn n (.inr h)) h
  | assign target e =>
    rw [Lower.stmt]
    simp only [Stmt.typeNames, List.mem_append] at hn
    exact assignStmt_refuses hΓ (fun n h => hn n (.inl h)) (fun n h => hn n (.inr h)) h
  | expr e =>
    rw [Lower.stmt]
    exact exprStmt_refuses hΓ (fun n h => hn n (by rw [Stmt.typeNames]; exact h)) h
  | baseCall =>
    rw [Lower.stmt]
    exact .read rfl (.ite (fun _ => baseCall_refuses hΓ h) fun _ => .fail _)
  | «while» cond body => cases hb
  | «if» cond yes no => cases hb

/-- Statements without loops and choices. -/
theorem block_follows {ss : List Stmt} (hb : ss.any Stmt.branches = false) (hn : ∀ n ∈ Stmt.typeNamesAll ss, Γ.Named n)
    (h : Γ.Sound w []) : Γ.Follows (Lower.block ss) w := by
  induction ss generalizing w with
  | nil =>
    rw [Lower.block]
    exact .pure _
  | cons s rest ih =>
    rw [Lower.block]
    rw [List.any_cons, Bool.or_eq_false_iff] at hb
    simp only [Stmt.typeNamesAll, List.mem_append] at hn
    have hs : ∀ n ∈ s.typeNames, Γ.Named n := fun n h => hn n (.inl h)
    exact .bind (stmt_follows hΓ hb.1 hs h) fun _ w₁ h1 =>
      ih hb.2 (fun n h => hn n (.inr h)) (stmt_runs hΓ.ok s hs h h1).sound

/-! ### Bodies -/

theorem statements_follows {ss : List Stmt} (hb : ss.any Stmt.branches = false) (hn : ∀ n ∈ Stmt.typeNamesAll ss, Γ.Named n)
    (h : Γ.Sound w []) : Γ.Follows (Lower.statements ss) w :=
  .bind (block_follows hΓ hb hn h) fun _ _ _ => .read rfl (.ite (.pure _) (.ite (.pure _) (.error rfl)))

theorem initField_refuses {f : Field} (hi : Γ.scope.isStatic = false) (hf : Γ.FieldOn Γ.scope.owner f)
    (hst : f.isStatic = false)
    (hn : ∀ n ∈ e.typeNames, Γ.Named n) (h : Γ.Sound w []) : Γ.Refuses (Lower.initField f e) w := by
  refine .bind (emitThis_follows hΓ h hi) fun _ w₁ he => ?_
  obtain ⟨-, h⟩ := h.loadThis hi he
  obtain ⟨r, hr, hR⟩ := hf.type hΓ.ok
  refine .bind (value_follows hΓ hn (fun t ht => by cases hr.symm.trans ht; exact hR.admits) h) fun _ _ _ =>
    .bind (.expect ..) fun _ _ _ => ?_
  exact .emit hΓ.dynamic ⟨hf.owned hΓ, hst.symm⟩

theorem initFields_follows {inits : List (Field × Expr)} (hi : Γ.scope.isStatic = false)
    (hf : ∀ x ∈ inits, Γ.FieldOn Γ.scope.owner x.1 ∧ x.1.isStatic = false ∧ ∀ n ∈ x.2.typeNames, Γ.Named n)
    (h : Γ.Sound w []) :
    Γ.Follows (forIn inits PUnit.unit fun x _ => do
      Lower.initField x.1 x.2
      pure (ForInStep.yield PUnit.unit) : Lower PUnit) w := by
  induction inits generalizing w with
  | nil =>
    rw [List.forIn_nil]
    exact .pure _
  | cons x inits ih =>
    rw [List.forIn_cons, bind_assoc]
    obtain ⟨hfx, hst, hn⟩ := hf x List.mem_cons_self
    have first : ∀ {u : Unit} {w₁ : Work}, Lower.initField x.1 x.2 Γ.scope w = .ok (u, w₁) → Γ.Sound w₁ [] := fun h1 =>
      (initField_runs hΓ.ok hi hfx hst hn h h1).sound
    have hfield := initField_refuses hΓ hi hfx hst hn h
    refine .bind (.of_refuses hΓ hfield (Lower.Lists.stepwise.initField x.1 x.2) fun _ w₁ h1 => ⟨[], first h1⟩)
        fun _ w₁ h1 => ?_
    rw [pure_bind]
    exact ih (fun y hy => hf y (List.mem_cons_of_mem _ hy)) (first h1)

theorem constructor_follows {inits : List (Field × Expr)} {ss : List Stmt} (hi : Γ.scope.isStatic = false)
    (hf : ∀ x ∈ inits, Γ.FieldOn Γ.scope.owner x.1 ∧ x.1.isStatic = false ∧ ∀ n ∈ x.2.typeNames, Γ.Named n)
    (hb : ss.any Stmt.branches = false) (hn : ∀ n ∈ Stmt.typeNamesAll ss, Γ.Named n) (h : Γ.Sound w []) :
    Γ.Follows (Lower.constructor inits ss) w := by
  have base : Γ.Follows Lower.baseCall w :=
    .of_refuses hΓ (baseCall_refuses hΓ h) Lower.Lists.stepwise.baseCall fun _ _ h1 => ⟨[], (baseCall_runs hi h h1).sound⟩
  have whole : ∀ {b : List Stmt}, b.any Stmt.branches = false → (∀ n ∈ Stmt.typeNamesAll b, Γ.Named n) → Γ.Follows (do
      Lower.baseCall
      for x in inits do Lower.initField x.1 x.2
      Lower.statements b) w := by
    intro b hb hn
    refine .bind base fun _ w₁ h1 => ?_
    have h := (baseCall_runs hi h h1).sound
    exact .bind (initFields_follows hΓ hi hf h) fun _ w₂ h2 =>
      statements_follows hΓ hb hn (initFields_runs hΓ.ok hi hf h h2).sound
  unfold Lower.constructor
  split
  · rw [List.any_cons, Bool.or_eq_false_iff] at hb
    simp only [Stmt.typeNamesAll, List.mem_append] at hn
    exact whole hb.2 fun n h => hn n (.inr h)
  · exact whole hb hn

end Statements
end Setting
end CilCompiler
