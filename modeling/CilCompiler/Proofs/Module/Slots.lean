import Mathlib.Logic.Relation
import CilCompiler.Proofs.Module.Unfinished

/-! The arguments and locals that bodies address. `Module.Recorded` are the modules that calls lead to, with what they
    recorded on the way; locals are named by slots that a declaration has given before (`Module.Issued`), which are
    slots of the body from then on (`Module.Issued.lt`). What one call makes of a member is said once for all calls
    that record no instruction (`Change.quiet`) and once for those that do (`emit_follows`). An instruction of a
    verified body addresses an argument or a local that is there, unless it is a form without operand that was
    recorded as such (`addressed_slots_exist`): nothing checks those (`undeclared_slot_verified`). -/

namespace CilCompiler

/-! ### Slots -/

/-- What an instruction reads, writes or takes the address of in its own frame. -/
inductive FrameSlot where
  | arg (n : Int)
  | local (n : Int)
deriving DecidableEq

/-- Whether a frame with so many arguments and locals has the slot. -/
def FrameSlot.IsIn (args locals : Nat) : FrameSlot → Prop
  | .arg n => 0 ≤ n ∧ n < args
  | .local n => 0 ≤ n ∧ n < locals

theorem FrameSlot.IsIn.mono {args locals locals' : Nat} {s : FrameSlot} (h : s.IsIn args locals) (hl : locals ≤ locals') :
    s.IsIn args locals' := by
  cases s with
  | arg n => exact h
  | «local» n => exact ⟨h.1, Int.lt_of_lt_of_le h.2 (Int.ofNat_le.mpr hl)⟩

/-- The slot that an instruction addresses, in whatever form. -/
def Instr.slot? (i : Instr) : Option FrameSlot :=
  match i.expanded.op with
  | .ldarg | .ldarga | .starg => some (.arg i.expanded.operand.number.toInt)
  | .ldloc | .ldloca | .stloc => some (.local i.expanded.operand.number.toInt)
  | _ => none

/-- A slot has been given by a declaration in a body, and the calls behind it have led to a module. -/
def Module.Issued (m : Module) (l : LocalSlot) : Prop :=
  ∃ id m₀ t m₁, Built id m₀ ∧ m₀.Has l.method ∧ m₀.declareLocal l.method t = .ok (l, m₁) ∧ Relation.ReflTransGen Change m₁ m

/-- A slot that an emission names has been given by a declaration. -/
def Emission.Given (m : Module) : Emission → Prop
  | .local _ (some l) => m.Issued l
  | _ => True

namespace Emission

theorem slot?_of_accepts {op : Opcode} {k : OperandKind} (h : op.accepts k = true) (hn : k ≠ .none)
    (ha : k ≠ .arg) (hl : k ≠ .local)
    (x : Operand) : Instr.slot? { op, operand := x } = none := by
  simp only [Opcode.accepts, Bool.and_eq_true, Bool.or_eq_true, decide_eq_true_eq] at h
  rcases h.2 with (⟨-, rfl⟩ | ⟨-, rfl⟩) | rfl
  · rfl
  · rfl
  · cases op <;> first | rfl | exact absurd rfl hn | exact absurd rfl ha | exact absurd rfl hl

/-- An instruction addresses a slot that is there, or nothing but its opcode was asked for. -/
theorem slot_of_encode {s : Site} {e : Emission} {i : Instr} (h : e.encode s = .ok i) {locals : Nat}
    (hl : ∀ op l, e = .local op (some l) → l.method = s.method → l.index < locals) {x : FrameSlot} (hx : i.slot? = some x) :
    x.IsIn s.method.argCount locals ∨ ∃ op, e = .plain op ∧ i = { op } := by
  -- An operand of another kind is no slot.
  have other : ∀ {op : Opcode} {k : OperandKind} {y : Operand}, op.accepts k = true → k ≠ .none → k ≠ .arg → k ≠ .local →
      i = { op, operand := y } → False := by
    rintro op k y ha h1 h2 h3 rfl
    rw [slot?_of_accepts ha h1 h2 h3] at hx
    cases hx
  cases e with
  | plain op =>
    refine .inr ⟨op, rfl, ?_⟩
    simp only [encode] at h
    split at h
    · cases h
    · cases (Draft.encode_checked h).2
      rfl
  | int op v =>
    have hlong := encode_long h
    rw [Instr.slot?, hlong] at hx
    cases hx
  | str op t =>
    cases (Draft.encode_checked h).2
    exact (other (Draft.encode_checked h).1 (by decide) (by decide) (by decide) rfl).elim
  | type op t =>
    obtain ⟨ha, h⟩ := Draft.encode_checked h
    cases t with
    | none => cases h
    | some t =>
      cases h
      exact (other ha (by decide) (by decide) (by decide) rfl).elim
  | field op f =>
    exact (other (Draft.encode_checked h).1 (by decide) (by decide) (by decide) (encodeField_ok h)).elim
  | method op m =>
    exact (other (Draft.encode_checked h).1 (by decide) (by decide) (by decide) (encodeMethod_ok h)).elim
  | ctor op c =>
    exact (other (Draft.encode_checked h).1 (by decide) (by decide) (by decide) (encodeCtor_ok h)).elim
  | label op l =>
    obtain ⟨y, rfl, hi⟩ := encodeLabel_ok h
    have h : encodeLabel s op (some y) = .ok i := h
    unfold encodeLabel at h
    split at h
    · cases h
    · exact (other (Draft.encode_checked h).1 (by decide) (by decide) (by decide) hi).elim
  | «local» op l =>
    obtain ⟨y, rfl, hy, h⟩ := encodeLocal_ok h
    obtain ⟨hlong, hle⟩ := ShortForm.ofLocal_expanded h
    have hn : (Int32.ofNat y.index).toInt = y.index := Int32.toInt_ofNat_of_lt (by omega)
    have hlt := hl op y rfl hy
    simp only [Instr.slot?, hlong, Operand.number, hn] at hx
    refine .inl ?_
    cases op <;> cases hx
    all_goals first | exact ⟨Int.natCast_nonneg _,
        Int.ofNat_lt.mpr hlt⟩ | (unfold ShortForm.ofLocal at h; split at h <;> cases h)
  | arg op n =>
    obtain ⟨k, rfl, hlt, h⟩ := encodeArg_ok h
    obtain ⟨hlong, hle⟩ := ShortForm.ofArg_expanded h
    have hn : (Int32.ofNat k).toInt = k := Int32.toInt_ofNat_of_lt (by omega)
    simp only [Instr.slot?, hlong, Operand.number, hn] at hx
    refine .inl ?_
    cases op <;> cases hx
    all_goals first | exact ⟨Int.natCast_nonneg _,
        Int.ofNat_lt.mpr hlt⟩ | (unfold ShortForm.ofArg at h; split at h <;> cases h)

end Emission

/-! ### What a call makes of members -/

/-- What a call that records no instruction makes of a member: its instructions stay, locals are added at most, and a
    body is the one it had or has just been verified. -/
structure Routine.Keeps (x x' : Routine) : Prop where
  method : x'.method = x.method
  code : x'.draft.code = x.draft.code
  locals : x.draft.locals.size ≤ x'.draft.locals.size
  body : x'.body = x.body ∨ ∃ b, x.draft.verify x.method.ret = .ok b ∧ x'.body = some b

theorem Routine.Keeps.refl (x : Routine) : x.Keeps x := ⟨rfl, rfl, Nat.le_refl _, .inl rfl⟩

/-- What an emission makes of a member: only the one it is for has another draft. -/
def Routine.Takes (m : Module) (r : Method) (e : Emission) (x x' : Routine) : Prop :=
  x' = x ∨ m.routine? r = some x ∧ x.method = r ∧ x' = { x with draft := (x.draft.emit (m.site r) e).2 }

/-- The members of a type are those that were there, up to `R`, and new ones. -/
structure TypeDef.Follows (R : Routine → Routine → Prop) (d d' : TypeDef) : Prop where
  found : ∀ {r x'}, d'.routine? r = some x' → (∃ x, d.routine? r = some x ∧ R x x') ∨ d.routine? r = none ∧ x'.IsNew

/-- The members of a module are those that were there, up to `R`, and new ones. -/
structure Module.Follows (R : Routine → Routine → Prop) (m m' : Module) : Prop where
  found : ∀ {r x'}, m'.routine? r = some x' → (∃ x, m.routine? r = some x ∧ R x x') ∨ m.routine? r = none ∧ x'.IsNew

variable {R : Routine → Routine → Prop} {m m' : Module} {d d' : TypeDef}

theorem TypeDef.Follows.of_routines (hR : ∀ x, R x x) (h : ∀ r, d'.routine? r = d.routine? r) : d.Follows R d' := by
  exact ⟨fun {r x} hx => .inl ⟨x, by rw [← h]; exact hx, hR x⟩⟩

theorem Routine.IsNew.pushed (hR : ∀ x, R x x) {xs : Array Routine} {x x' : Routine} {k : Nat} (hx : x.IsNew)
    (h : (xs.push x)[k]? = some x') : (∃ y, xs[k]? = some y ∧ R y x') ∨ xs[k]? = none ∧ x'.IsNew := by
  rw [Array.getElem?_push] at h
  split at h
  · rename_i hk
    cases h
    exact .inr ⟨by simp [hk], hx⟩
  · exact .inl ⟨x', h, hR x'⟩

theorem TypeDef.Follows.pushCtor (hR : ∀ x, R x x) {x : Routine} (hx : x.IsNew) :
    d.Follows R { d with ctors := d.ctors.push x } := by
  refine ⟨fun {r x'} hx' => ?_⟩
  cases hr : r.isCtor with
  | true =>
    simp only [TypeDef.routine?, hr, if_true] at hx' ⊢
    exact hx.pushed hR hx'
  | false =>
    simp only [TypeDef.routine?, hr, Bool.false_eq_true, if_false] at hx' ⊢
    exact .inl ⟨x', hx', hR x'⟩

theorem TypeDef.Follows.pushMethod (hR : ∀ x, R x x) {x : Routine} (hx : x.IsNew) :
    d.Follows R { d with methods := d.methods.push x } := by
  refine ⟨fun {r x'} hx' => ?_⟩
  cases hr : r.isCtor with
  | true =>
    simp only [TypeDef.routine?, hr, if_true] at hx' ⊢
    exact .inl ⟨x', hx', hR x'⟩
  | false =>
    simp only [TypeDef.routine?, hr, Bool.false_eq_true, if_false] at hx' ⊢
    exact hx.pushed hR hx'

theorem TypeDef.Follows.modifyRoutine (hR : ∀ x, R x x) {r : Method} {f : Routine → Routine}
    (hf : ∀ x, d.routine? r = some x → R x (f x)) :
    d.Follows R (d.modifyRoutine r f) := by
  have modified : ∀ {xs : Array Routine} {k : Nat} {x' : Routine}, (∀ x, xs[r.index]? = some x → R x (f x)) →
      (xs.modify r.index f)[k]? = some x' → ∃ y, xs[k]? = some y ∧ R y x' := by
    intro xs k x' hf h
    rw [Array.getElem?_modify] at h
    split at h
    · rename_i hk
      subst hk
      obtain ⟨y, hy, rfl⟩ := Option.map_eq_some_iff.mp h
      exact ⟨y, hy, hf y hy⟩
    · exact ⟨x', h, hR x'⟩
  refine ⟨fun {q x'} hx' => .inl ?_⟩
  cases hr : r.isCtor with
  | true =>
    simp only [TypeDef.modifyRoutine, hr, if_true] at hx'
    cases hq : q.isCtor with
    | true =>
      simp only [TypeDef.routine?, hr, hq, if_true] at hx' hf ⊢
      exact modified hf hx'
    | false =>
      simp only [TypeDef.routine?, hq, Bool.false_eq_true, if_false] at hx' ⊢
      exact ⟨x', hx', hR x'⟩
  | false =>
    simp only [TypeDef.modifyRoutine, hr, Bool.false_eq_true, if_false] at hx'
    cases hq : q.isCtor with
    | true =>
      simp only [TypeDef.routine?, hq, if_true] at hx' ⊢
      exact ⟨x', hx', hR x'⟩
    | false =>
      simp only [TypeDef.routine?, hr, hq, Bool.false_eq_true, if_false] at hx' hf ⊢
      exact modified hf hx'

theorem Module.Follows.modifyDef (hR : ∀ x, R x x) {t : Ty} {f : TypeDef → TypeDef}
    (hf : ∀ d, m.types[t.declared.index]? = some d → d.Follows R (f d)) : m.Follows R (m.modifyDef t f) := by
  refine ⟨fun {r x'} hx' => ?_⟩
  obtain ⟨d', hd', hx'⟩ := Option.bind_eq_some_iff.mp hx'
  have hr := (def?_some hd').2.1
  rw [def?_modifyDef_of m hr] at hd'
  split at hd'
  · rename_i hi
    obtain ⟨d, hd, rfl⟩ := Option.map_eq_some_iff.mp hd'
    rw [Module.routine?, hd]
    exact (hf d (hi ▸ (def?_some hd).1)).found hx'
  · rw [Module.routine?, hd']
    exact .inl ⟨x', hx', hR x'⟩

theorem Module.Follows.of_types (hR : ∀ x, R x x) (ht : m'.types = m.types) (hi : m'.id = m.id) : m.Follows R m' := by
  refine ⟨fun {r x'} hx' => ?_⟩
  have hdef : m'.def? r.owner = m.def? r.owner := by
    unfold Module.def?
    rw [ht, hi]
  exact .inl ⟨x', by rw [Module.routine?, ← hdef]; exact hx', hR x'⟩

/-! ### Calls that record no instruction -/

theorem Routine.Keeps.of_finishRoutine {x x' : Routine} (h : Module.finishRoutine x = .ok x') : x.Keeps x' := by
  unfold Module.finishRoutine at h
  split at h
  · cases h
    exact .refl x
  · split at h
    · cases h
      exact ⟨rfl, rfl, Nat.le_refl _, .inr ⟨_, ‹_›, rfl⟩⟩
    · cases h

theorem Module.finishRoutines_keeps (xs : List Routine) {k : Nat} {x' : Routine} (h : (finishRoutines xs).2[k]? = some x') :
    ∃ x, xs[k]? = some x ∧ x.Keeps x' := by
  induction xs generalizing k with
  | nil => cases h
  | cons x rest ih =>
    unfold finishRoutines at h
    split at h
    · exact ⟨x', h, .refl x'⟩
    · rename_i y hy
      cases k with
      | zero =>
        cases h
        exact ⟨x, rfl, .of_finishRoutine hy⟩
      | succ k => exact ih h

theorem Module.finishMembers_follows (d : TypeDef) : d.Follows Routine.Keeps (finishMembers d).2 := by
  have hctors := @finishRoutines_keeps d.ctors.toList
  have hmethods := @finishRoutines_keeps d.methods.toList
  refine ⟨fun {r x'} hx' => .inl ?_⟩
  unfold finishMembers at hx'
  cases hc : finishRoutines d.ctors.toList with
  | mk result ctors =>
  rw [hc] at hx' hctors
  cases hr : r.isCtor with
  | true =>
    refine (hctors (k := r.index) ?_).imp fun x hx => ⟨by simpa [TypeDef.routine?, hr] using hx.1, hx.2⟩
    cases result <;> simpa [TypeDef.routine?, hr] using hx'
  | false =>
    cases result with
    | error f =>
      refine ⟨x', ?_, .refl x'⟩
      simpa [TypeDef.routine?, hr] using hx'
    | ok u =>
      refine (hmethods (k := r.index) ?_).imp fun x hx => ⟨by simpa [TypeDef.routine?, hr] using hx.1, hx.2⟩
      simpa [TypeDef.routine?, hr] using hx'

theorem Module.finishDef_follows (d : TypeDef) : d.Follows Routine.Keeps (finishDef d).2 := by
  have hmembers := finishMembers_follows d
  unfold finishDef
  split
  · exact .of_routines .refl fun _ => rfl
  · split
    · rename_i hm
      rw [hm] at hmembers
      exact hmembers
    · rename_i hm
      rw [hm] at hmembers
      exact ⟨fun hx => hmembers.found hx⟩

theorem Module.Follows.setDraft {r : Method} (hr : m.Has r) {D : Draft} (hc : D.code = (m.draft r).code)
    (hl : (m.draft r).locals.size ≤ D.locals.size) : m.Follows Routine.Keeps (m.setDraft r D) := by
  obtain ⟨x, hx, rfl⟩ := hr
  obtain ⟨d, hd, hdx⟩ := Option.bind_eq_some_iff.mp hx
  rw [draft_of_routine hx] at hc hl
  refine .modifyDef .refl fun e he => .modifyRoutine .refl fun y hy => ?_
  rw [(def?_some hd).1] at he
  cases he
  rw [hdx] at hy
  cases hy
  exact ⟨rfl, hc, hl, .inl rfl⟩

theorem Module.defineType_follows {name : Text} {attrs : TypeAttributes} {base : Option Ty} {t : Ty}
    (h : m.defineType name attrs base = .ok (t, m')) : m.Follows Routine.Keeps m' := by
  obtain ⟨-, -, -, -, -, -, rfl⟩ := defineType_ok h
  refine ⟨fun {r x'} hx' => ?_⟩
  obtain ⟨d', hd', hx'⟩ := Option.bind_eq_some_iff.mp hx'
  obtain ⟨hat, harray, hmodule⟩ := def?_some hd'
  rw [Array.getElem?_push] at hat
  split at hat
  · cases hat
    simp [TypeDef.routine?] at hx'
  · refine .inl ⟨x', ?_, .refl x'⟩
    rw [Module.routine?, def?_eq harray, if_pos hmodule, hat]
    exact hx'

theorem Module.defineMethod_follows {t : Ty} {name : Text} {attrs : MethodAttributes} {ret : Option Ty}
    {params : List (Option Ty)}
    {r : Method} (h : m.defineMethod t name attrs ret params = .ok (r, m')) : m.Follows Routine.Keeps m' := by
  obtain ⟨d, -, h⟩ := bind_eq_ok.mp h
  cases h
  exact .modifyDef .refl fun e _ => .pushMethod .refl ⟨rfl, rfl⟩

theorem Module.createType_follows (hm : m.backend = .dynamic) (t : Ty) : m.Follows Routine.Keeps (m.createType t).2 := by
  rcases createType_eq hm with h | ⟨d, hd, h⟩
  · rw [h]
    exact ⟨fun hx => .inl ⟨_, hx, .refl _⟩⟩
  · rw [h]
    refine .modifyDef .refl fun e he => ?_
    rw [(def?_some (open?_ok hd).1).1] at he
    cases he
    exact finishDef_follows d

/-- A call that is no emission keeps what has been recorded. -/
theorem Module.Change.follows (hm : m.backend = .dynamic) (h : m.Change m') :
    m.Follows Routine.Keeps m' ∨ ∃ r e, m.Has r ∧ e.Known m ∧ m' = (m.emit r e).2 := by
  cases h with
  | emit e hr he => exact .inr ⟨_, e, hr, he, rfl⟩
  | defineType h => exact .inl (defineType_follows h)
  | defineField _ h =>
    obtain ⟨d, -, h⟩ := bind_eq_ok.mp h
    cases h
    exact .inl (.modifyDef .refl fun d _ => .of_routines .refl fun r => rfl)
  | defineMethod _ h => exact .inl (defineMethod_follows h)
  | defineConstructor _ h =>
    obtain ⟨d, -, h⟩ := bind_eq_ok.mp h
    cases h
    exact .inl (.modifyDef .refl fun e _ => .pushCtor .refl ⟨rfl, rfl⟩)
  | defineParameter _ h =>
    unfold Module.defineParameter at h
    split at h
    · cases h
    · cases h
      exact .inl (.modifyDef .refl fun _ _ => .modifyRoutine .refl fun _ _ => ⟨rfl, rfl, Nat.le_refl _, .inl rfl⟩)
  | setImplementation _ h =>
    obtain ⟨d, -, h⟩ := bind_eq_ok.mp h
    cases h
    exact .inl (.modifyDef .refl fun _ _ => .modifyRoutine .refl fun _ _ => ⟨rfl, rfl, Nat.le_refl _, .inl rfl⟩)
  | setEntryPoint h =>
    unfold Module.setEntryPoint at h
    repeat' split at h
    all_goals cases h
    all_goals exact .inl (.of_types .refl rfl rfl)
  | declareLocal hr h =>
    obtain ⟨⟨l, D⟩, hD, h⟩ := bind_eq_ok.mp h
    cases h
    obtain ⟨_, -, hD⟩ := bind_eq_ok.mp hD
    split at hD
    · cases hD
      exact .inl (.setDraft hr rfl (by simp))
    · cases hD
  | defineLabel hr h =>
    obtain ⟨⟨l, D⟩, hD, h⟩ := bind_eq_ok.mp h
    cases h
    unfold Draft.defineLabel at hD
    split at hD
    · cases hD
    · obtain ⟨_, -, hD⟩ := bind_eq_ok.mp hD
      cases hD
      exact .inl (.setDraft hr rfl (Nat.le_refl _))
  | markLabel hr h =>
    obtain ⟨D, hD, h⟩ := bind_eq_ok.mp h
    cases h
    unfold Draft.mark at hD
    repeat' split at hD
    all_goals cases hD
    exact .inl (.setDraft hr rfl (Nat.le_refl _))
  | createType _ => exact .inl (createType_follows hm _)

/-! ### Emissions -/

theorem Module.emit_follows {r : Method} (hr : m.Has r) (e : Emission) :
    m.Follows (Routine.Takes m r e) (m.emit r e).2 := by
  obtain ⟨x, hx, hxr⟩ := hr
  obtain ⟨d, hd, hdx⟩ := Option.bind_eq_some_iff.mp hx
  refine .modifyDef (fun _ => .inl rfl) fun c hc => .modifyRoutine (fun _ => .inl rfl) fun y hy => ?_
  rw [(def?_some hd).1] at hc
  cases hc
  rw [hdx] at hy
  cases hy
  rw [draft_of_routine hx]
  exact .inr ⟨hx, hxr, rfl⟩

theorem Draft.locals_emit (s : Site) (hs : s.backend = .dynamic) (d : Draft) (e : Emission) :
    (d.emit s e).2.locals = d.locals := by
  unfold Draft.emit
  split
  · simp only [record, hs, push]
  · rfl

theorem Module.routine?_modifyRoutine {r : Method} {x : Routine} (h : m.routine? r = some x) (f : Routine → Routine) :
    (m.modifyRoutine r f).routine? r = some (f x) := by
  obtain ⟨d, hd, hx⟩ := Option.bind_eq_some_iff.mp h
  obtain ⟨hat, harray, hmodule⟩ := def?_some hd
  have hdef : (m.modifyRoutine r f).def? r.owner = some (d.modifyRoutine r f) := by
    have hmodified : (m.types.modify r.owner.declared.index fun d => d.modifyRoutine r f)[r.owner.declared.index]? =
        some (d.modifyRoutine r f) := by
      rw [Array.getElem?_modify, if_pos rfl, hat]
      rfl
    rw [def?_eq harray]
    exact (if_pos hmodule).trans hmodified
  rw [routine?, hdef, Option.bind_some]
  unfold TypeDef.routine? TypeDef.modifyRoutine at *
  split at hx <;> rename_i hc <;> simp [hc, Array.getElem?_modify, hx]

/-- A call takes no locals away from a body. -/
theorem Module.Change.locals (hm : m.backend = .dynamic) (h : m.Change m') {r : Method} (hr : m.Has r) :
    (m.draft r).locals.size ≤ (m'.draft r).locals.size := by
  obtain ⟨x, hx, -⟩ := hr
  obtain ⟨x', hx', -⟩ := (h.grows hm).routine? hx
  rw [draft_of_routine hx, draft_of_routine hx']
  rcases h.follows hm with hf | ⟨q, e, hq, -, rfl⟩
  · rcases hf.found hx' with ⟨y, hy, hk⟩ | ⟨hnone, -⟩
    · cases hx.symm.trans hy
      exact hk.locals
    · cases hx.symm.trans hnone
  · rcases (emit_follows hq e).found hx' with ⟨y, hy, rfl | ⟨-, -, rfl⟩⟩ | ⟨hnone, -⟩
    · cases hx.symm.trans hy
      exact Nat.le_refl _
    · cases hx.symm.trans hy
      exact Nat.le_of_eq (congrArg Array.size (Draft.locals_emit _ hm _ e).symm)
    · cases hx.symm.trans hnone

/-- A slot that a declaration has given is one of the body's locals from then on. -/
theorem Module.Issued.lt {l : LocalSlot} (h : m.Issued l) : l.index < (m.draft l.method).locals.size := by
  obtain ⟨id, m₀, t, m₁, hbuilt, hr, hd, hcalls⟩ := h
  have hnow : l.index < (m₁.draft l.method).locals.size := by
    obtain ⟨x, hx, -⟩ := hr
    obtain ⟨⟨l', D⟩, hD, h⟩ := bind_eq_ok.mp hd
    obtain ⟨rfl, rfl⟩ := Prod.mk.inj (Except.ok.inj h)
    obtain ⟨_, -, hD⟩ := bind_eq_ok.mp hD
    split at hD
    · obtain ⟨hl, rfl⟩ := Prod.mk.inj (Except.ok.inj hD)
      have hindex : (m₀.draft l'.method).locals.size = l'.index := congrArg LocalSlot.index hl
      rw [setDraft, draft_of_routine (routine?_modifyRoutine hx _), ← hindex]
      simp
    · cases hD
  have kept : Built id m ∧ m.Has l.method ∧ l.index < (m.draft l.method).locals.size := by
    induction hcalls with
    | refl =>
      have hchange : m₀.Change m₁ := .declareLocal hr hd
      exact ⟨.change hbuilt hchange, (hchange.grows hbuilt.checked.dynamic).has hr, hnow⟩
    | tail _ hchange ih =>
      obtain ⟨hb, hhas, hlt⟩ := ih
      exact ⟨.change hb hchange, (hchange.grows hb.checked.dynamic).has hhas,
        Nat.lt_of_lt_of_le hlt (hchange.locals hb.checked.dynamic hhas)⟩
  exact kept.2.2

/-- A call keeps what has been recorded if it adds no instruction, an emission that fails included. -/
theorem Module.Change.quiet (hm : m.backend = .dynamic) (h : m.Change m') (hc : ∀ r, (m'.draft r).code = (m.draft r).code) :
    m.Follows Routine.Keeps m' := by
  rcases h.follows hm with h | ⟨r, e, hr, -, rfl⟩
  · exact h
  · refine ⟨fun {q x'} hx' => ?_⟩
    rcases (emit_follows hr e).found hx' with ⟨x, hx, ht⟩ | hnew
    · refine .inl ⟨x, hx, ?_⟩
      rcases ht with rfl | ⟨-, -, he⟩
      · exact .refl _
      · have hsame := hc q
        rw [draft_of_routine hx', draft_of_routine hx] at hsame
        have hlocals : x'.draft.locals = x.draft.locals := by rw [he, Draft.locals_emit _ hm]
        exact ⟨by rw [he], hsame, Nat.le_of_eq (congrArg Array.size hlocals.symm), .inl (by rw [he])⟩
    · exact .inr hnew

/-! ### Modules and what was recorded -/

/-- The modules that calls lead to, and the instructions that members were asked to record, the last one first. -/
inductive Module.Recorded (id : Nat) : List (Method × Emission) → Module → Prop
  | new (name runtime : Text) : Recorded id [] (.new id .dynamic name runtime)
  | emit {es : List (Method × Emission)} {m : Module} {r : Method} (e : Emission) :
      Recorded id es m → m.Has r → e.Known m → e.Given m →
      Recorded id ((r, e) :: es) (m.emit r e).2
  | quiet {es : List (Method × Emission)} {m m' : Module} : Recorded id es m → m.Change m' →
      (∀ r, (m'.draft r).code = (m.draft r).code) → Recorded id es m'

variable {id : Nat} {es : List (Method × Emission)}

theorem Module.Recorded.built (h : m.Recorded id es) : m.Built id := by
  induction h with
  | new name runtime => exact .new name runtime
  | emit e _ hr he _ ih => exact .change ih (.emit e hr he)
  | quiet _ hc _ ih => exact .change ih hc

/-- A call that keeps what has been recorded. -/
theorem Module.Recorded.keeps (h : m.Recorded id es) (hc : m.Change m') (hf : m.Follows Routine.Keeps m') :
    m'.Recorded id es := by
  refine .quiet h hc fun r => ?_
  cases hx' : m'.routine? r with
  | none =>
    have hx : m.routine? r = none := by
      cases hx : m.routine? r with
      | none => rfl
      | some x =>
        obtain ⟨x', hx'', -⟩ := (hc.grows h.built.checked.dynamic).routine? hx
        cases hx'.symm.trans hx''
    simp only [draft, hx, hx']
  | some x' =>
    rcases hf.found hx' with ⟨x, hx, hk⟩ | ⟨hx, hnew⟩
    · rw [draft_of_routine hx', draft_of_routine hx, hk.code]
    · simp only [draft, hx, hx', hnew.1]

/-- However a module goes on, the call adds no instruction or is an emission. -/
theorem Module.Recorded.change (h : m.Recorded id es) (hc : m.Change m') :
    m'.Recorded id es ∨ ∃ r e, m.Has r ∧ e.Known m ∧ m' = (m.emit r e).2 :=
  (hc.follows h.built.checked.dynamic).imp_left (h.keeps hc)

/-- An instruction of a member addresses a slot that is there, or was recorded as it is. -/
def Instr.Fits (es : List (Method × Emission)) (r : Method) (locals : Nat) (i : Instr) : Prop :=
  ∀ s, i.slot? = some s → s.IsIn r.argCount locals ∨ ∃ op, i = { op } ∧ (r, .plain op) ∈ es

/-- All instructions of a member do. -/
structure Routine.Fitted (es : List (Method × Emission)) (x : Routine) : Prop where
  draft : ∀ i ∈ x.draft.code, i.Fits es x.method x.draft.locals.size
  body : ∀ b, x.body = some b → ∀ i ∈ b.code, i.Fits es x.method b.locals.size

theorem Instr.Fits.mono {es' : List (Method × Emission)} {r : Method} {locals locals' : Nat} {i : Instr}
    (h : i.Fits es r locals)
    (he : es ⊆ es') (hl : locals ≤ locals') : i.Fits es' r locals' := by
  intro s hs
  rcases h s hs with hin | ⟨op, hi, hmem⟩
  · exact .inl (hin.mono hl)
  · exact .inr ⟨op, hi, he hmem⟩

/-- Labels become positions, and neither are numbers of slots. -/
theorem Instr.slot?_resolve {d : Draft} {pc : Nat} {i j : Instr} (h : d.resolve pc i = .ok j) : j.slot? = i.slot? := by
  unfold Draft.resolve at h
  split at h
  · rename_i l hl
    split at h
    · split at h
      · cases h
        obtain ⟨op, x⟩ := i
        cases hl
        cases op <;> rfl
      · cases h
    · cases h
  · cases h
    rfl

theorem Instr.Fits.resolve {d : Draft} {pc : Nat} {r : Method} {locals : Nat} {i j : Instr} (h : i.Fits es r locals)
    (hj : d.resolve pc i = .ok j) : j.Fits es r locals := by
  intro s hs
  rw [slot?_resolve hj] at hs
  rcases h s hs with hin | ⟨op, rfl, hmem⟩
  · exact .inl hin
  · cases hj
    exact .inr ⟨op, rfl, hmem⟩

theorem Routine.IsNew.fitted {x : Routine} (h : x.IsNew) : x.Fitted es where
  draft i hi := by simp [h.1] at hi
  body b hb := by simp [h.2] at hb

theorem Routine.Fitted.keeps {x x' : Routine} (h : x.Fitted es) (hk : x.Keeps x') : x'.Fitted es where
  draft i hi := by
    rw [hk.code] at hi
    rw [hk.method]
    exact (h.draft i hi).mono (fun _ => id) hk.locals
  body b hb i hi := by
    rw [hk.method]
    rcases hk.body with hsame | ⟨b', hv, hb'⟩
    · exact h.body b (hsame ▸ hb) i hi
    · cases hb.symm.trans hb'
      obtain ⟨hlocals, hcode⟩ := Draft.verify_parts hv
      obtain ⟨pc, j, hj, hr⟩ := hcode i hi
      rw [hlocals]
      exact (h.draft j hj).resolve hr

/-- An emission for a member of a dynamic module adds the instruction that it becomes. -/
theorem Routine.Fitted.takes {x x' : Routine} {r : Method} {e : Emission} (h : x.Fitted es) (hm : m.backend = .dynamic)
    (hg : e.Given m) (ht : Routine.Takes m r e x x') : x'.Fitted ((r, e) :: es) := by
  have old : ∀ {i : Instr} {locals : Nat}, i.Fits es x.method locals → i.Fits ((r, e) :: es) x.method locals := fun hi =>
    hi.mono (List.subset_cons_self _ _) (Nat.le_refl _)
  rcases ht with rfl | ⟨hx, rfl, rfl⟩
  · exact ⟨fun i hi => old (h.draft i hi), fun b hb i hi => old (h.body b hb i hi)⟩
  · refine ⟨fun i hi => ?_, fun b hb i hi => old (h.body b hb i hi)⟩
    change i ∈ (x.draft.emit (m.site x.method) e).2.code at hi
    show i.Fits _ x.method (x.draft.emit (m.site x.method) e).2.locals.size
    rw [Draft.locals_emit _ hm]
    unfold Draft.emit at hi
    split at hi
    · rename_i j hj
      simp only [Draft.record, show (m.site x.method).backend = .dynamic from hm, Draft.push, Array.mem_push] at hi
      rcases hi with hi | rfl
      · exact old (h.draft i hi)
      · intro s hs
        have inside : ∀ op l, e = .local op (some l) → l.method = x.method → l.index < x.draft.locals.size := by
          rintro op l rfl hl
          have hlt := Module.Issued.lt hg
          rwa [hl, Module.draft_of_routine hx] at hlt
        rcases Emission.slot_of_encode hj inside hs with hin | ⟨op, he, hi⟩
        · exact .inl hin
        · exact .inr ⟨op, hi, by simp [he]⟩
    · exact old (h.draft i hi)

/-- The members of the catalog have no code. -/
theorem Module.isNew_of_new {name runtime : Text} {r : Method} {x : Routine}
    (h : (Module.new id .dynamic name runtime).routine? r = some x) : x.IsNew := by
  obtain ⟨d, hd, hx⟩ := Option.bind_eq_some_iff.mp h
  obtain ⟨p, -, rfl⟩ := List.mem_map.mp (List.mem_toArray.mp (Array.mem_of_getElem? (def?_some hd).1))
  obtain ⟨hctors, hmethods⟩ := TypeDef.ofEntry_new (Host.types id Host.defaultAssembly) p.1 p.2
  unfold TypeDef.routine? at hx
  split at hx
  · exact hctors x (Array.mem_of_getElem? hx)
  · exact hmethods x (Array.mem_of_getElem? hx)

theorem Module.Recorded.fitted (h : m.Recorded id es) {r : Method} {x : Routine}
    (hx : m.routine? r = some x) : x.Fitted es := by
  induction h generalizing r x with
  | new name runtime => exact (isNew_of_new hx).fitted
  | emit e h hr he hg ih =>
    rcases (emit_follows hr e).found hx with ⟨y, hy, ht⟩ | ⟨-, hnew⟩
    · exact (ih hy).takes h.built.checked.dynamic hg ht
    · exact hnew.fitted
  | quiet h hc hcode ih =>
    rcases (hc.quiet h.built.checked.dynamic hcode).found hx with ⟨y, hy, hk⟩ | ⟨-, hnew⟩
    · exact (ih hy).keeps hk
    · exact hnew.fitted

/-- An instruction of a verified body addresses an argument or a local that is there, or is a form without operand
    that the member was asked to record. -/
theorem Module.addressed_slots_exist {r : Method} {x : Routine} {b : Body} {i : Instr} {s : FrameSlot}
    (h : m.Recorded id es)
    (hx : m.routine? r = some x) (hb : x.body = some b) (hi : i ∈ b.code) (hs : i.slot? = some s) :
    s.IsIn x.method.argCount b.locals.size ∨ ∃ op, i = { op } ∧ (x.method, .plain op) ∈ es :=
  (h.fitted hx).body b hb i hi s hs

instance (m : Module) (t : Ty) : Decidable (m.Declares t) :=
  decidable_of_iff ((m.def? t).any fun d => d.type = t) (by simp [Module.Declares, Option.any_eq_true])

instance (m : Module) (r : Method) : Decidable (m.Has r) :=
  decidable_of_iff ((m.routine? r).any fun x => x.method = r) (by simp [Module.Has, Option.any_eq_true])

/-! A static method with one argument and no locals. -/

namespace OneArgument

def type : Ty := .root { module := 0, index := Module.hostCount, assembly := "M", name := "A", isValue := false }

def method : Method :=
  { owner := type, isCtor := false, index := 0, name := "F", attrs := .statics, params := [some type], ret := none }

/-- The method before it has any code. -/
def opened : Option Module := do
  let (t, m) ← ((Module.new 0 .dynamic "M" "").defineType "A" .classes none).toOption
  let (_, m') ← (m.defineMethod t "F" .statics none [some t]).toOption
  if m.Declares t ∧ m'.Has method then some m' else none

/-- The method with some instructions. -/
def recorded (m : Module) (es : List Emission) : Module := es.foldl (fun m e => (m.emit method e).2) m

/-- The module once the type has been finished. -/
def finished (es : List Emission) : Option Module := do
  let m ← opened
  if (recorded m es).Declares type then some ((recorded m es).createType type).2 else none

theorem opened_recorded (h : opened = some m) : m.Recorded 0 [] ∧ m.Has method := by
  obtain ⟨⟨t, m₁⟩, h1, h⟩ := Option.bind_eq_some_iff.mp h
  obtain ⟨⟨r, m₂⟩, h2, h⟩ := Option.bind_eq_some_iff.mp h
  have ok : ∀ {α : Type} {y : Except Fault α} {a : α}, y.toOption = some a → y = .ok a := by
    intro α y a ha
    cases y with
    | error f => cases ha
    | ok b =>
      cases ha
      rfl
  have h1 := ok h1
  have h2 := ok h2
  have h : (if m₁.Declares t ∧ m₂.Has method then some m₂ else none) = some m := h
  split at h
  · rename_i hknown
    cases h
    exact ⟨((Module.Recorded.new "M" "").keeps (.defineType h1) (Module.defineType_follows h1)).keeps
        (.defineMethod hknown.1 h2)
      (Module.defineMethod_follows h2), hknown.2⟩
  · cases h

/-- An emission that names no slot by a declaration. -/
def IsFree (e : Emission) : Prop := (∃ op, e = .plain op) ∨ ∃ op n, e = .arg op n

theorem recorded_recorded (h : m.Recorded 0 es) (hr : m.Has method) (more : List Emission) (hmore : ∀ e ∈ more, IsFree e) :
    (recorded m more).Recorded 0 ((more.map fun e => (method, e)).reverse ++ es) := by
  induction more generalizing m es with
  | nil => exact h
  | cons e more ih =>
    have hfree : e.Known m ∧ e.Given m := by
      rcases hmore e List.mem_cons_self with ⟨op, rfl⟩ | ⟨op, n, rfl⟩
      · exact ⟨trivial, trivial⟩
      · exact ⟨trivial, trivial⟩
    have hnext :=
      ih (.emit e h hr hfree.1 hfree.2) ((Module.Grows.emit h.built.checked.dynamic hr hfree.1).has hr) fun e' he =>
      hmore e' (List.mem_cons_of_mem _ he)
    rw [List.map_cons, List.reverse_cons, List.append_assoc]
    exact hnext

theorem finished_recorded {es : List Emission} (h : finished es = some m) (hes : ∀ e ∈ es, IsFree e) :
    m.Recorded 0 (es.map fun e => (method, e)).reverse := by
  obtain ⟨m₁, h1, h⟩ := Option.bind_eq_some_iff.mp h
  split at h
  · cases h
    obtain ⟨h1, hr⟩ := opened_recorded h1
    have hrec := recorded_recorded h1 hr es hes
    rw [List.append_nil] at hrec
    exact hrec.keeps (.createType ‹_›) (Module.createType_follows hrec.built.checked.dynamic type)
  · cases h

end OneArgument

open OneArgument in
/-- The method's argument is addressed where it is. -/
theorem Module.addressed_slots_exist_argument : ∃ (m : Module) (es : _) (x : Routine) (b : Body), m.Recorded 0 es ∧
    m.routine? method = some x ∧ x.body = some b ∧ { op := .ldarg0 } ∈ b.code ∧
    (FrameSlot.arg 0).IsIn x.method.argCount b.locals.size := by
  have hmade : (finished [.arg .ldarg 0, .plain .pop, .plain .ret]).any (fun m => (m.routine? method).any fun x =>
      x.body.any fun b => decide ({ op := .ldarg0 } ∈ b.code ∧ x.method = method)) = true := by decide +kernel
  obtain ⟨m, hm, h⟩ := (Option.any_eq_true _ _).mp hmade
  obtain ⟨x, hx, h⟩ := (Option.any_eq_true _ _).mp h
  obtain ⟨b, hb, h⟩ := (Option.any_eq_true _ _).mp h
  obtain ⟨hi, hxr⟩ := of_decide_eq_true h
  have hrec := finished_recorded hm (by simp [IsFree])
  rcases addressed_slots_exist hrec hx hb hi (s := .arg 0) rfl with hin | ⟨op, hop, hes⟩
  · exact ⟨m, _, x, b, hrec, hx, hb, hi, hin⟩
  · cases hop
    simp at hes

open OneArgument in
/-- A form without operand is recorded and verified though there is no second argument. -/
theorem Module.undeclared_slot_verified : ∃ (m : Module) (es : _) (x : Routine) (b : Body), m.Recorded 0 es ∧
    m.isCreated type = true ∧
    m.routine? method = some x ∧ x.body = some b ∧ { op := .ldarg1 } ∈ b.code ∧
      Instr.slot? { op := .ldarg1 } = some (.arg 1) ∧
    ¬(FrameSlot.arg 1).IsIn x.method.argCount b.locals.size := by
  have hmade : (finished [.plain .ldarg1, .plain .pop, .plain .ret]).any
      (fun m => m.isCreated type && (m.routine? method).any fun x =>
      x.body.any fun b => decide ({ op := .ldarg1 } ∈ b.code ∧ x.method.argCount = 1)) = true := by decide +kernel
  obtain ⟨m, hm, h⟩ := (Option.any_eq_true _ _).mp hmade
  obtain ⟨hcreated, h⟩ := Bool.and_eq_true_iff.mp h
  obtain ⟨x, hx, h⟩ := (Option.any_eq_true _ _).mp h
  obtain ⟨b, hb, h⟩ := (Option.any_eq_true _ _).mp h
  obtain ⟨hi, hargs⟩ := of_decide_eq_true h
  refine ⟨m, _, x, b, finished_recorded hm (by simp [IsFree]), hcreated, hx, hb, hi, rfl, fun hin => ?_⟩
  rw [hargs] at hin
  exact absurd hin.2 (by decide)

end CilCompiler
