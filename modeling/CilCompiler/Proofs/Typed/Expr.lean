import CilCompiler.Proofs.Identifiers
import CilCompiler.Proofs.Typed.Reference

/-!
Typed expressions. Lowering an expression leaves one value of the type that lowering says on the stack, and
nothing where that type is void; lowering arguments leaves one value for each. The types that an expression
names are to be admitted.
-/

namespace CilCompiler

/-- A name that does not end like an array's is no array's. -/
theorem TypeName.array_ne {n m : Text} (h : m.endsWith TypeName.arrayEnding = false) : TypeName.array n ≠ m := by
  rintro rfl
  have : (TypeName.array n).endsWith TypeName.arrayEnding = true :=
    List.isSuffixOf_iff_suffix.mpr ⟨n.bytes, rfl⟩
  rw [this] at h
  cases h

theorem Ty.isVoid_array (e : Ty) : (Ty.array e).isVoid = false := by
  have : TypeName.array e.name ≠ TypeName.void := TypeName.array_ne (by decide)
  exact decide_eq_false this

namespace Setting
variable {Γ : Setting} {w w₁ w' : Work} {S : List Slot} {called : Bool} {t : Ty} {m : Method} {u : Unit} {p : Pushed}

/-- A value that is not asked for by its address. -/
theorem Pushes.plain (h : Γ.Pushes w S false p w') (hv : Ty.isVoidOpt p.type = false) :
    Γ.Sound w' (.value p.type :: S) := by
  have ha : p.isAddress = false := by
    by_contra ha
    cases (h.address (by simpa using ha)).1
  have hslot : p.slot = .value p.type := by
    unfold Pushed.slot
    rw [ha]
    cases p.type <;> rfl
  rw [← hslot]
  exact h.value hv

/-! ### Operators -/

theorem same_name {o : Option Ty} (h : Ty.same o (some t) = true) : ∃ x, o = some x ∧ x.name = t.name := by
  cases o with
  | none => simp [Ty.same] at h
  | some x => exact ⟨x, rfl, by simpa [Ty.same] using h⟩

theorem notVoid_of_name {n : Text} (hn : t.name = n) (h : n ≠ TypeName.void) : t.isVoid = false := by
  simp [Ty.isVoid, hn, h]

theorem Ok.holdsInt32 (hΓ : Γ.Ok) : Γ.Holds Γ.scope.roles.int32 := ⟨hΓ.roles.1, notVoid_of_name hΓ.int32 (by decide)⟩

theorem Ok.holdsBoolean (hΓ : Γ.Ok) : Γ.Holds Γ.scope.roles.boolean :=
  ⟨hΓ.roles.2.1, notVoid_of_name hΓ.boolean (by decide)⟩

theorem Ok.holdsString (hΓ : Γ.Ok) : Γ.Holds Γ.scope.roles.string :=
  ⟨hΓ.roles.2.2, notVoid_of_name hΓ.string (by decide)⟩

theorem negate_sound {a : Option Ty} (ht : t.name = TypeName.boolean) (h : Γ.Sound w (.value a :: S))
    (hn : Lower.negate Γ.scope w = .ok (u, w')) : w.Kept w' ∧ Γ.Sound w' (.value (some t) :: S) := by
  simp only [Lower.negate, Lower.bind_ok] at hn
  obtain ⟨_, w₁, h1, h2⟩ := hn
  obtain ⟨k1, h⟩ := h.emit h1 fun _ => .int (.inl rfl)
  obtain ⟨k2, h⟩ := h.emit h2 fun _ => .equal ht
  exact ⟨k1.trans k2, h⟩

/-- A comparison leaves a boolean; one for order takes numbers. -/
theorem emitComparison_sound (hΓ : Γ.Ok) {op : BinaryOp} {a b : Option Ty} (h : Γ.Sound w (.value b :: .value a :: S))
    (hn : Lower.isEquality op = false → ∃ x y, a = some x ∧ b = some y ∧ x.IsNumber ∧ y.IsNumber)
    (hc : Lower.emitComparison op Γ.scope w = .ok (u, w')) :
    w.Kept w' ∧ Γ.Sound w' (.value (some Γ.scope.roles.boolean) :: S) := by
  have ordered : ∀ {o : Opcode} {w₁ : Work}, Lower.isEquality op = false → o = .cgt ∨ o = .clt →
      Lower.emit (.plain o) Γ.scope w = .ok (u, w₁) →
      w.Kept w₁ ∧ Γ.Sound w₁ (.value (some Γ.scope.roles.boolean) :: S) := by
    intro o w₁ ho hor he
    obtain ⟨x, y, rfl, rfl, hx, hy⟩ := hn ho
    rcases hor with rfl | rfl
    · exact h.emit he fun _ => .order (by decide) hx hy
    · exact h.emit he fun _ => .order (by decide) hx hy
  have negated : ∀ {w₁ : Work}, w.Kept w₁ ∧ Γ.Sound w₁ (.value (some Γ.scope.roles.boolean) :: S) →
      Lower.negate Γ.scope w₁ = .ok (u, w') → w.Kept w' ∧ Γ.Sound w' (.value (some Γ.scope.roles.boolean) :: S) := by
    intro w₁ ⟨k1, h⟩ hn
    obtain ⟨k2, h⟩ := negate_sound hΓ.boolean h hn
    exact ⟨k1.trans k2, h⟩
  cases op with
  | lt => exact ordered rfl (.inr rfl) hc
  | gt => exact ordered rfl (.inl rfl) hc
  | ne =>
    obtain ⟨_, w₁, h1, h2⟩ := Lower.bind_ok.mp hc
    exact negated (h.emit h1 fun _ => .equal hΓ.boolean) h2
  | le =>
    obtain ⟨_, w₁, h1, h2⟩ := Lower.bind_ok.mp hc
    exact negated (ordered rfl (.inl rfl) h1) h2
  | ge =>
    obtain ⟨_, w₁, h1, h2⟩ := Lower.bind_ok.mp hc
    exact negated (ordered rfl (.inr rfl) h1) h2
  | _ => exact h.emit hc fun _ => .equal hΓ.boolean

theorem compare_yields (hΓ : Γ.Ok) {op : BinaryOp} {lt rt : Option Ty} (h : Γ.Sound w (.value rt :: .value lt :: S))
    (hc : Lower.compare op lt rt Γ.scope w = .ok (p, w')) : Γ.Yields w S called p w' := by
  have checked : (Lower.isEquality op = false → Ty.same lt (some Γ.scope.roles.int32) = true ∧
      Ty.same rt (some Γ.scope.roles.int32) = true) ∧
      Lower.emitComparison op Γ.scope w = .ok ((), w') ∧ p = { type := some Γ.scope.roles.boolean } := by
    simp only [Lower.compare, Lower.bind_ok, Lower.read_ok, Lower.ite_ok, Lower.pure_ok, Lower.fail_ok, and_false,
      exists_false, or_false, false_and, Bool.and_eq_true] at hc
    obtain ⟨_, _, ⟨rfl, rfl⟩, ⟨hq, -, _, _, he, rfl, rfl⟩ | ⟨-, hs, _, _, he, rfl, rfl⟩⟩ := hc
    · exact ⟨fun hf => (by rw [hq] at hf; cases hf), he, rfl⟩
    · exact ⟨fun _ => hs, he, rfl⟩
  obtain ⟨hs, he, rfl⟩ := checked
  obtain ⟨hk, h⟩ := emitComparison_sound hΓ h (fun hq => by
    obtain ⟨x, rfl, hx⟩ := same_name (hs hq).1
    obtain ⟨y, rfl, hy⟩ := same_name (hs hq).2
    exact ⟨x, y, rfl, rfl, .inl (hx.trans hΓ.int32), .inl (hy.trans hΓ.int32)⟩) he
  exact .of_value hk hΓ.holdsBoolean h

/-- An operator refuses operands without a value. -/
theorem applyBinary_notVoid {op : BinaryOp} {lt rt : Option Ty} {c : Scope}
    (hb : Lower.applyBinary op lt rt c w = .ok (p, w')) : Ty.isVoidOpt lt = false ∧ Ty.isVoidOpt rt = false := by
  simp only [Lower.applyBinary, Lower.bind_ok, Lower.read_ok, Lower.ite_ok, Lower.fail_ok, and_false, false_or,
    Bool.or_eq_true, not_or, Bool.not_eq_true] at hb
  obtain ⟨_, _, -, hv, -⟩ := hb
  exact hv

theorem arithmetic_long {op : BinaryOp} : (Emission.plain (Lower.arithmetic op)).long = { op := Lower.arithmetic op } := by
  cases op <;> rfl

theorem applyBinary_yields (hΓ : Γ.Ok) {op : BinaryOp} {lt rt : Option Ty} (h : Γ.Sound w (.value rt :: .value lt :: S))
    (hadm : ∀ t, lt = some t → Γ.Admits t) (hb : Lower.applyBinary op lt rt Γ.scope w = .ok (p, w')) :
    Γ.Yields w S called p w' := by
  have hv := applyBinary_notVoid hb
  -- Operands of one type that is a number's.
  have number : Lower.arithmetic op ∈ [Opcode.add, .sub, .mul, .div, .rem, .and, .or] → Ty.same lt rt = true →
      Ty.same lt (some Γ.scope.roles.int32) = true ∨ Ty.same lt (some Γ.scope.roles.boolean) = true →
      Lower.emit (.plain (Lower.arithmetic op)) Γ.scope w = .ok ((), w') → Γ.Yields w S called { type := lt } w' := by
    intro hop hsame hn he
    have hname : ∃ x, lt = some x ∧ x.IsNumber := by
      rcases hn with hn | hn
      · obtain ⟨x, rfl, hx⟩ := same_name hn
        exact ⟨x, rfl, .inl (hx.trans hΓ.int32)⟩
      · obtain ⟨x, rfl, hx⟩ := same_name hn
        exact ⟨x, rfl, .inr (hx.trans hΓ.boolean)⟩
    obtain ⟨x, rfl, hx⟩ := hname
    have hy : ∃ y, rt = some y ∧ y.name = x.name := by
      cases rt with
      | none => simp [Ty.same] at hsame
      | some y => exact ⟨y, rfl, (Option.some_inj.mp (Ty.same_iff.mp hsame)).symm⟩
    obtain ⟨y, rfl, hy⟩ := hy
    obtain ⟨hk, h⟩ := h.emit he fun _ => by
      rw [arithmetic_long]
      exact .arithmetic hop hx (by rwa [Ty.IsNumber, hy])
    exact .of_value hk ⟨hadm x rfl, hv.1⟩ h
  simp only [Lower.applyBinary, Lower.bind_ok, Lower.read_ok, Lower.ite_ok, Lower.fail_ok, and_false, false_or, or_false,
    Lower.pure_ok, Lower.symbols_ok, Lower.ofExcept_ok, Bool.or_eq_true, Bool.not_eq_true', Bool.not_eq_false] at hb
  obtain ⟨_, _, ⟨rfl, rfl⟩, -, ⟨-, hc⟩ | ⟨hcmp, hsame, hb⟩⟩ := hb
  · exact compare_yields hΓ h hc
  · rcases hb with ⟨hop, hn, _, w₁, he, rfl, rfl⟩ |
      ⟨hop, ⟨⟨rfl, hstr⟩, _, _, ⟨rfl, rfl⟩, m, _, ⟨hm, rfl⟩, _, w₁, he, rfl, rfl⟩ | ⟨-, hn, _, w₁, he, rfl, rfl⟩⟩
    · refine number ?_ hsame hn he
      rcases hop with rfl | rfl <;> decide
    · obtain ⟨hmem, hname, hst, hp⟩ := Symbols.findMethod_mem hm
      rw [h.reads.grown.allMethods] at hmem
      have hself : Γ.scope.roles.string ∈ Ty.lineage Γ.scope.roles.object Γ.scope.roles.string := by
        have : Γ.scope.roles.string ∈ Γ.scope.roles.string.chain := by cases Γ.scope.roles.string <;> simp [Ty.chain]
        unfold Ty.lineage
        split
        · exact this
        · exact List.mem_append_left _ this
      have hon : Γ.MethodOn Γ.scope.roles.string m := ⟨hΓ.roles.2.2, _, hself, hmem⟩
      have hfits := Ty.fits_of_sameList (fun p hp => (hon.params hΓ p hp).imp fun _ h => h.1) hp
      obtain ⟨hk, h⟩ := h.emit he fun _ => (.callStatic hst hon hfits : Γ.Types _ _ _ (Slot.arguments [lt, rt] ++ S) _)
      have hret := hΓ.concat hmem hname
      have hres : m.result = [.value (some Γ.scope.roles.string)] := by
        have hvoid : m.returnsVoid = false := by
          simp only [Method.returnsVoid, hret]
          exact hΓ.holdsString.notVoid
        rw [Method.result, hvoid, hret]
        rfl
      rw [hres] at h
      exact .of_value hk hΓ.holdsString h
    · refine number ?_ hsame (.inl hn) he
      cases op <;> first | decide | (simp [BinaryOp.isComparison] at hcmp)

theorem applyUnary_yields (hΓ : Γ.Ok) {op : UnaryOp} {o : Option Ty}
    (h : Ty.isVoidOpt o = false → Γ.Sound w (.value o :: S))
    (hadm : ∀ t, o = some t → Γ.Admits t) (hu : Lower.applyUnary op o Γ.scope w = .ok (p, w')) :
    Γ.Yields w S called p w' := by
  simp only [Lower.applyUnary, Lower.bind_ok, Lower.read_ok, Lower.ite_ok, Lower.fail_ok, and_false, exists_false, or_false,
    false_and, Lower.pure_ok] at hu
  obtain ⟨_, _, ⟨rfl, rfl⟩, ⟨⟨-, hs⟩, _, w₁, he, rfl, rfl⟩ |
    ⟨-, ⟨⟨-, hs⟩, _, w₁, he, rfl, rfl⟩ | ⟨-, ⟨-, hs⟩, _, w₁, he, rfl, rfl⟩⟩⟩ := hu
  · obtain ⟨x, rfl, hx⟩ := same_name hs
    have hT : Γ.Holds x := ⟨hadm x rfl, notVoid_of_name (hx.trans hΓ.int32) (by decide)⟩
    obtain ⟨hk, h⟩ := (h hT.notVoid).emit he fun _ => .unary (by decide) (.inl (hx.trans hΓ.int32))
    exact .of_value hk hT h
  · obtain ⟨x, rfl, hx⟩ := same_name hs
    have hT : Γ.Holds x := ⟨hadm x rfl, notVoid_of_name (hx.trans hΓ.boolean) (by decide)⟩
    obtain ⟨hk, h⟩ := negate_sound (hx.trans hΓ.boolean) (h hT.notVoid) he
    exact .of_value hk hT h
  · obtain ⟨x, rfl, hx⟩ := same_name hs
    have hT : Γ.Holds x := ⟨hadm x rfl, notVoid_of_name (hx.trans hΓ.int32) (by decide)⟩
    obtain ⟨hk, h⟩ := (h hT.notVoid).emit he fun _ => .unary (by decide) (.inl (hx.trans hΓ.int32))
    exact .of_value hk hT h

/-! ### Elements and members -/

/-- An array and a position are on the stack. -/
theorem element_sound (hΓ : Γ.Ok) {array : Lower Pushed} {position : Option Ty → Lower Pushed} {e : Ty}
    (ha : ∀ {w S p w'}, Γ.Sound w S → array Γ.scope w = .ok (p, w') → Γ.Pushes w S false p w')
    (hi : ∀ {hint w S p w'}, (∀ t, hint = some t → Γ.Admits t) → Γ.Sound w S → position hint Γ.scope w = .ok (p, w') →
      Γ.Pushes w S false p w')
    (h : Γ.Sound w S) (he : Lower.element array position Γ.scope w = .ok (e, w')) :
    w.Kept w' ∧ Γ.Admits (.array e) ∧
      ∃ n, n.name = TypeName.int32 ∧ Γ.Sound w' (.value (some n) :: .value (some (.array e)) :: S) := by
  simp only [Lower.element, Lower.bind_ok] at he
  obtain ⟨a, w₁, harr, he⟩ := he
  have hp := ha h harr
  cases ht : a.type.bind Ty.elem? with
  | none =>
    rw [ht] at he
    cases he
  | some x =>
    have hty : a.type = some (.array x) := by
      obtain ⟨y, hy, hx⟩ := Option.bind_eq_some_iff.mp ht
      cases y with
      | array z => rw [hy, show z = x by simpa [Ty.elem?] using hx]
      | root d => cases hx
      | derived d b => cases hx
    have h1 := hp.plain (by rw [hty]; exact Ty.isVoid_array x)
    simp only [ht, Lower.bind_ok, Lower.read_ok, Lower.ite_ok, Lower.pure_ok, Lower.fail_ok, and_false, or_false] at he
    obtain ⟨_, _, ⟨rfl, rfl⟩, i, w₂, hpos, hs, rfl, rfl⟩ := he
    have hp2 := hi (fun t ht => by cases ht; exact hΓ.roles.1) h1 hpos
    obtain ⟨n, hn, hname⟩ := same_name hs
    have h2 := hp2.plain (by rw [hn]; exact notVoid_of_name (hname.trans hΓ.int32) (by decide))
    rw [hn, hty] at h2
    exact ⟨hp.kept.trans hp2.kept, hp.admits hty, n, hname.trans hΓ.int32, h2⟩

theorem loadElement_pushes (hΓ : Γ.Ok) {e n : Ty} (ha : Γ.Admits (.array e)) (hn : n.name = TypeName.int32)
    (h : Γ.Sound w (.value (some n) :: .value (some (.array e)) :: S))
    (hl : Lower.loadElement e called Γ.scope w = .ok (p, w')) : Γ.Pushes w S called p w' := by
  simp only [Lower.loadElement, Lower.ite_ok, Lower.bind_ok, Lower.pure_ok, Bool.and_eq_true] at hl
  cases hv : e.isVoid with
  | false =>
    rcases hl with ⟨⟨rfl, hval⟩, _, w₁, he, rfl, rfl⟩ | ⟨-, _, w₁, he, rfl, rfl⟩
    · obtain ⟨hk, h⟩ := h.emit he fun _ => .elementAddress hv ha hval hn
      exact (Yields.of_address hk ⟨hΓ.element ha, hv⟩ hval h).toPushes
    · obtain ⟨hk, h⟩ := h.emit he fun _ => .element hv ha hn
      exact (Yields.of_value hk ⟨hΓ.element ha, hv⟩ h).toPushes
  | true =>
    have nothing : ∀ {b : Bool}, Ty.isVoidOpt (Pushed.type { type := some e, isAddress := b }) = false → False := by
      intro b hb
      rw [show Ty.isVoidOpt (some e) = e.isVoid from rfl, hv] at hb
      cases hb
    have hvl : ¬Γ.Voidless := fun hvl => absurd (hv.symm.trans (hvl ha)) (by decide)
    rcases hl with ⟨⟨rfl, hval⟩, _, w₁, he, rfl, rfl⟩ | ⟨-, _, w₁, he, rfl, rfl⟩
    · exact ⟨Lower.emit_kept he, fun h => by cases h; exact hΓ.element ha, fun _ => ⟨rfl, e, rfl, hval⟩,
        fun hb => (nothing hb).elim, fun _ hS => hS.elim (fun hc => nomatch hc.1) fun h => (hvl h).elim⟩
    · refine ⟨Lower.emit_kept he, fun h => by cases h; exact hΓ.element ha, fun h => (by cases h),
        fun hb => (nothing hb).elim, fun _ hS => ?_⟩
      rcases hS with ⟨-, rfl⟩ | h
      · exact (h.emit he fun _ => .voidElement hv ha hn).2
      · exact (hvl h).elim

theorem staticMember_yields (hΓ : Γ.Ok) {name : Text} {hint : Option Ty} (hh : ∀ t, hint = some t → Γ.Admits t)
    (ht : Γ.Admits t) (h : Γ.Sound w S) (hm : Lower.staticMember t name hint called Γ.scope w = .ok (p, w')) :
    Γ.Yields w S called p w' := by
  simp only [Lower.staticMember, Lower.bind_ok, Lower.fieldAlong_ok] at hm
  obtain ⟨_, _, ⟨rfl, rfl⟩, hm⟩ := hm
  cases hfield : w.symbols.fieldAlong Γ.scope.roles.object t name with
  | ok f =>
    simp only [hfield, Lower.ite_ok, Lower.fail_ok, and_false, or_false] at hm
    exact loadField_yields hΓ (.of_fieldAlong ht h hfield) (.inl ⟨hm.1, rfl⟩) h hm.2
  | error e =>
    simp only [hfield, Lower.bind_ok, Lower.symbols_ok] at hm
    obtain ⟨_, _, ⟨rfl, rfl⟩, hm⟩ := hm
    cases hint with
    | none => cases hm
    | some dt =>
      cases hd : w.symbols.delegate? (some dt) with
      | none =>
        rw [hd] at hm
        cases hm
      | some d =>
        simp only [hd, Lower.bind_ok, Lower.symbols_ok, Lower.read_ok, Lower.ite_ok, Lower.fail_ok, and_false,
          false_or] at hm
        obtain ⟨_, _, ⟨rfl, rfl⟩, _, _, ⟨rfl, rfl⟩, -, hm⟩ := hm
        rw [h.reads.grown.delegate?] at hd
        exact typeReference_yields hΓ ht (hh dt rfl) hd h hm

theorem property_pushes (hΓ : Γ.Ok) (hT : Γ.Holds t) {a : Bool} {name : Text} (ha : a = true → t.isValue = true)
    (h : Γ.Sound w (Pushed.slot { type := some t, isAddress := a } :: S))
    (hp : Lower.instanceMember.property Γ.scope.roles t a name Γ.scope w = .ok (p, w')) : Γ.Pushes w S called p w' := by
  simp only [Lower.instanceMember.property, Lower.bind_ok, Lower.symbols_ok] at hp
  obtain ⟨_, _, ⟨rfl, rfl⟩, hp⟩ := hp
  cases hr : w.symbols.resolve Γ.scope.roles.object t ("get_" ++ name) [] false with
  | error e =>
    rw [hr] at hp
    cases hp
  | ok m =>
    rw [hr] at hp
    obtain ⟨hon, hst, hfits⟩ := MethodOn.of_resolve hΓ hT.admits h hr
    exact callGetter_pushes hΓ hT ha hon hst hfits h hp

/-- A member of what is on the stack. Where a delegate is wanted it is not there by its address. -/
theorem instanceMember_pushes (hΓ : Γ.Ok) (hT : Γ.Holds t) {a : Bool} {name : Text} {hint : Option Ty}
    (hh : ∀ t, hint = some t → Γ.Admits t) (ha : a = true → (Γ.symbols.delegate? hint).isSome = false ∧ t.isValue = true)
    (h : Γ.Sound w (Pushed.slot { type := some t, isAddress := a } :: S))
    (hm : Lower.instanceMember t a name hint called Γ.scope w = .ok (p, w')) : Γ.Pushes w S called p w' := by
  have hval : a = true → t.isValue = true := fun h => (ha h).2
  simp only [Lower.instanceMember, Lower.bind_ok, Lower.read_ok, Lower.ite_ok, Lower.pure_ok, Bool.and_eq_true] at hm
  obtain ⟨_, _, ⟨rfl, rfl⟩, ⟨⟨harr, -⟩, _, w₁, he, rfl, rfl⟩ | ⟨-, _, _, hf, hm⟩⟩ := hm
  · cases t with
    | root d => cases harr
    | derived d b => cases harr
    | array e =>
      cases a with
      | true => exact nomatch hval rfl
      | false =>
        obtain ⟨hk, h⟩ := h.emit he fun _ => .length
        exact (Yields.of_value hk hΓ.holdsInt32 h).toPushes
  · obtain ⟨rfl, rfl⟩ := Lower.fieldAlong_ok.mp hf
    cases hfield : w.symbols.fieldAlong Γ.scope.roles.object t name with
    | ok f =>
      simp only [hfield, Lower.ite_ok, Lower.fail_ok, and_false, false_or, Bool.not_eq_true] at hm
      refine (loadField_yields hΓ (.of_fieldAlong hT.admits h hfield)
          (s := [Pushed.slot { type := some t, isAddress := a }])
        (.inr ⟨hm.1, ?_⟩) h hm.2).toPushes
      cases a with
      | true => exact .inr rfl
      | false => exact .inl rfl
    | error e =>
      simp only [hfield, Lower.bind_ok, Lower.symbols_ok] at hm
      obtain ⟨_, _, ⟨rfl, rfl⟩, hm⟩ := hm
      cases hint with
      | none => exact property_pushes hΓ hT hval h hm
      | some dt =>
        cases hd : w.symbols.delegate? (some dt) with
        | none =>
          rw [hd] at hm
          exact property_pushes hΓ hT hval h hm
        | some d =>
          simp only [hd, Lower.bind_ok, Lower.symbols_ok, Lower.ite_ok] at hm
          obtain ⟨_, _, ⟨rfl, rfl⟩, ⟨-, hm⟩ | ⟨-, hm⟩⟩ := hm
          · exact property_pushes hΓ hT hval h hm
          · rw [h.reads.grown.delegate?] at hd
            cases a with
            | true =>
              have := (ha rfl).1
              rw [hd] at this
              cases this
            | false => exact (boundReference_yields hΓ hT.admits (hh dt rfl) hd h hm).toPushes

/-! ### Making objects -/

theorem construct_yields (hΓ : Γ.Ok) (ht : Γ.Admits t) (hd : Γ.symbols.delegate? (some t) = none)
    {args : Lower.Arguments} (hargs : Γ.Supplies args) (h : Γ.Sound w S)
    (hc : Lower.construct t args Γ.scope w = .ok (p, w')) : Γ.Yields w S called p w' := by
  simp only [Lower.construct, Lower.ite_ok, Lower.fail_ok, and_false, false_or, Lower.bind_ok, Lower.read_ok,
    Lower.symbols_ok, Lower.ofExcept_ok, Lower.pure_ok, Bool.not_eq_true] at hc
  obtain ⟨hv, _, _, ⟨rfl, rfl⟩, types, w₁, hp, _, _, ⟨rfl, rfl⟩, c, _, ⟨hc, rfl⟩, _, w₂, he, rfl, rfl⟩ := hc
  obtain ⟨k1, h, -⟩ := hargs (hints_admitted fun m hm => hΓ.params (.inr (.inr hm))) h hp
  obtain ⟨hmem, hsame⟩ := Symbols.findConstructor_mem hc
  rw [h.reads.grown.ctorsOf] at hmem
  have hfits := Ty.fits_of_sameList (fun p hp => (hΓ.params (.inr (.inl hmem)) p hp).imp fun _ h => h.1) hsame
  obtain ⟨k2, h⟩ := h.emit he fun _ => .construct ht hv hd hmem hfits
  exact .of_value (k1.trans k2) ⟨ht, hΓ.constructed hmem⟩ h

theorem constructArray_yields (hΓ : Γ.Ok) {elem : Text} {size : Option Ty → Lower Pushed}
    (hn : Γ.Named (TypeName.array elem))
    (hs : ∀ {hint w S p w'}, (∀ t, hint = some t → Γ.Admits t) → Γ.Sound w S → size hint Γ.scope w = .ok (p, w') →
      Γ.Pushes w S false p w')
    (h : Γ.Sound w S) (hc : Lower.constructArray elem size Γ.scope w = .ok (p, w')) : Γ.Yields w S called p w' := by
  simp only [Lower.constructArray, Lower.bind_ok, Lower.read_ok, Lower.ite_ok, Lower.fail_ok, and_false, or_false,
    Lower.pure_ok] at hc
  obtain ⟨array, w₁, hl, _, _, ⟨rfl, rfl⟩, n, w₂, hsize, hsame, _, w₃, he, rfl, rfl⟩ := hc
  obtain ⟨harr, k1, h⟩ := h.lookupType hn hl
  have hp := hs (fun t ht => by cases ht; exact hΓ.roles.1) h hsize
  obtain ⟨x, hx, hname⟩ := same_name hsame
  have hname := hname.trans hΓ.int32
  have h := hp.plain (by rw [hx]; exact notVoid_of_name hname (by decide))
  rw [hx] at h
  cases array with
  | array e =>
    obtain ⟨k2, h⟩ := h.emit he fun _ => .array harr hname
    exact .of_value ((k1.trans hp.kept).trans k2) ⟨harr, Ty.isVoid_array e⟩ h
  | root d =>
    obtain ⟨i, hi, -⟩ := Lower.emit_pushes he
    obtain ⟨_, -, hi⟩ := bind_eq_ok.mp hi
    cases hi
  | derived d b =>
    obtain ⟨i, hi, -⟩ := Lower.emit_pushes he
    obtain ⟨_, -, hi⟩ := bind_eq_ok.mp hi
    cases hi

/-! ### Expressions -/

theorem no_hint (Γ : Setting) : ∀ t, (none : Option Ty) = some t → Γ.Admits t := fun _ h => by cases h

mutual

/-- Lowering an expression pushes its value, if it has one. -/
theorem expr_pushes (hΓ : Γ.Ok) {hint : Option Ty} {called : Bool} {w w' : Work} {S : List Slot} {p : Pushed} : ∀ e : Expr,
    (∀ n ∈ e.typeNames, Γ.Named n) → (∀ t, hint = some t → Γ.Admits t) → Γ.Sound w S →
    Lower.expr e hint called Γ.scope w = .ok (p, w') → Γ.Pushes w S called p w'
  | .missing, _, _, _, he => by cases he
  | .int v, _, _, h, he => by
    simp only [Lower.expr, Lower.bind_ok, Lower.read_ok, Lower.pure_ok] at he
    obtain ⟨_, w₁, he, _, _, ⟨rfl, rfl⟩, rfl, rfl⟩ := he
    obtain ⟨hk, h⟩ := h.emit he fun _ => .int (.inl rfl)
    exact (Yields.of_value hk hΓ.holdsInt32 h).toPushes
  | .bool b, _, _, h, he => by
    simp only [Lower.expr, Lower.bind_ok, Lower.read_ok, Lower.pure_ok] at he
    obtain ⟨_, w₁, he, _, _, ⟨rfl, rfl⟩, rfl, rfl⟩ := he
    obtain ⟨hk, h⟩ := h.emit he fun _ => .int (.inr rfl)
    exact (Yields.of_value hk hΓ.holdsBoolean h).toPushes
  | .string s, _, _, h, he => by
    simp only [Lower.expr, Lower.bind_ok, Lower.read_ok, Lower.pure_ok] at he
    obtain ⟨_, w₁, he, _, _, ⟨rfl, rfl⟩, rfl, rfl⟩ := he
    obtain ⟨hk, h⟩ := h.emit he fun _ => .str
    exact (Yields.of_value hk hΓ.holdsString h).toPushes
  | .null, _, _, h, he => by
    simp only [Lower.expr, Lower.bind_ok, Lower.pure_ok] at he
    obtain ⟨_, w₁, he, rfl, rfl⟩ := he
    obtain ⟨hk, h⟩ := h.emit he fun _ => .null
    exact (Yields.of_null hk h).toPushes
  | .this, _, _, h, he => by
    simp only [Lower.expr, Lower.bind_ok, Lower.requireInstance_ok, Lower.read_ok, Lower.pure_ok] at he
    obtain ⟨_, _, ⟨hi, rfl⟩, _, w₁, he, _, _, ⟨rfl, rfl⟩, rfl, rfl⟩ := he
    obtain ⟨hk, h⟩ := h.loadThis hi he
    exact (Yields.of_value hk hΓ.owner h).toPushes
  | .ident name, _, hh, h, he => by
    rw [Lower.expr] at he
    exact (ident_yields hΓ hh h he).toPushes
  | .member target name, hn, hh, h, he => by
    simp only [Lower.expr, Lower.bind_ok] at he
    obtain ⟨o, w₁, ht, he⟩ := he
    obtain ⟨rfl, hadm⟩ := typeTarget_admits h ht
    cases o with
    | some t => exact (staticMember_yields hΓ hh (hadm t rfl) h he).toPushes
    | none =>
      simp only [Lower.bind_ok, Lower.symbols_ok] at he
      obtain ⟨_, _, ⟨rfl, rfl⟩, ⟨t, a⟩, w₂, hr, he⟩ := he
      obtain ⟨hk, hT, ha, h2⟩ := receiver_pushes (fun hp =>
        expr_pushes hΓ target (fun n h => hn n (by rw [Expr.typeNames]; exact h)) (no_hint Γ) h hp) hr
      refine .after hk (instanceMember_pushes hΓ hT hh (fun h' => ⟨?_, (ha h').2⟩) h2 he)
      rw [← h.reads.grown.delegate?]
      simpa using (ha h').1
  | .index array position, hn, _, h, he => by
    simp only [Lower.expr, Lower.bind_ok] at he
    obtain ⟨elem, w₁, he, hl⟩ := he
    simp only [Expr.typeNames, List.mem_append] at hn
    obtain ⟨hk, hadm, n, hname, h⟩ := element_sound hΓ
      (fun h hp => expr_pushes hΓ array (fun n h => hn n (.inl h)) (no_hint Γ) h hp)
      (fun hh h hp => expr_pushes hΓ position (fun n h => hn n (.inr h)) hh h hp) h he
    exact .after hk (loadElement_pushes hΓ hadm hname h hl)
  | .binary op left right, hn, _, h, he => by
    simp only [Lower.expr, Lower.bind_ok] at he
    obtain ⟨l, w₁, hl, r, w₂, hr, he⟩ := he
    simp only [Expr.typeNames, List.mem_append] at hn
    obtain ⟨hlv, hrv⟩ := applyBinary_notVoid he
    have hL := expr_pushes hΓ left (fun n h => hn n (.inl h)) (no_hint Γ) h hl
    have hR := expr_pushes hΓ right (fun n h => hn n (.inr h)) (fun t ht => hL.admits ht) (hL.plain hlv) hr
    exact .after (hL.kept.trans hR.kept) (applyBinary_yields hΓ (hR.plain hrv) (fun t ht => hL.admits ht) he).toPushes
  | .unary op operand, hn, _, h, he => by
    simp only [Lower.expr, Lower.bind_ok] at he
    obtain ⟨v, w₁, hv, he⟩ := he
    have hV := expr_pushes hΓ operand (fun n h => hn n (by rw [Expr.typeNames]; exact h)) (no_hint Γ) h hv
    exact .after hV.kept (applyUnary_yields hΓ hV.plain (fun t ht => hV.admits ht) he).toPushes
  | .call target name args, hn, _, h, he => by
    simp only [Expr.typeNames, List.mem_append] at hn
    have hargs : Γ.Supplies { count := args.length, push := fun hints => Lower.arguments 1 hints args } :=
      fun hh h ha => arguments_supply hΓ args (fun n h => hn n (.inr h)) hh h ha
    simp only [Lower.expr, Lower.ite_ok, Lower.bind_ok] at he
    rcases he with ⟨-, he⟩ | ⟨-, o, w₁, ht, he⟩
    · exact callOwn_pushes hΓ hargs h he
    · obtain ⟨rfl, hadm⟩ := typeTarget_admits h ht
      cases o with
      | some t =>
        simp only [Lower.bind_ok] at he
        obtain ⟨hints, w₂, hhints, he⟩ := he
        obtain ⟨rfl, hh⟩ := candidates_params hΓ h hhints
        exact callStatic_pushes hΓ (hadm t rfl) hargs hh h he
      | none =>
        simp only [Lower.bind_ok] at he
        obtain ⟨⟨t, a⟩, w₂, hr, he⟩ := he
        obtain ⟨hk, hT, ha, h⟩ := receiver_pushes
          (fun hp => expr_pushes hΓ target (fun n h => hn n (.inl h)) (no_hint Γ) h hp) hr
        exact .after hk (callInstance_pushes hΓ hT (fun h => (ha h).2) hargs h he)
  | .new type args, hn, _, h, he => by
    simp only [Expr.typeNames, List.mem_cons] at hn
    have hnames : ∀ n ∈ Expr.typeNamesAll args, Γ.Named n := fun n h => hn n (.inr h)
    simp only [Lower.expr, Lower.bind_ok, Lower.symbols_ok] at he
    obtain ⟨t, w₁, hl, _, _, ⟨rfl, rfl⟩, he⟩ := he
    obtain ⟨ht, hk, h⟩ := h.lookupType (hn type (.inl rfl)) hl
    cases hd : w₁.symbols.delegate? (some t) with
    | some d =>
      rw [hd] at he
      exact .after hk (delegateOf_yields hΓ args hnames ht h he).toPushes
    | none =>
      rw [hd] at he
      rw [h.reads.grown.delegate?] at hd
      exact .after hk
        (construct_yields hΓ ht hd (fun hh h ha => arguments_supply hΓ args hnames hh h ha) h he).toPushes
  | .newArray elem size, hn, _, h, he => by
    rw [Lower.expr] at he
    simp only [Expr.typeNames, List.mem_cons] at hn
    exact (constructArray_yields hΓ (hn _ (.inl rfl))
      (fun hh h hp => expr_pushes hΓ size (fun n h => hn n (.inr h)) hh h hp) h he).toPushes
  | .methodRef target name spelling, hn, hh, h, he => by
    rw [Lower.expr] at he
    simp only [Expr.typeNames, List.mem_append] at hn
    exact (reference_yields hΓ
      (fun _ _ _ _ _ h hp => expr_pushes hΓ target (fun n h => hn n (.inr h)) (no_hint Γ) h hp) hh
      (fun hs => hn spelling (.inl (by simp [hs]))) h he).toPushes

/-- Lowering arguments pushes one value for each, the last one on top. -/
theorem arguments_supply (hΓ : Γ.Ok) {position : Nat} {hints types : List (Option Ty)} {w w' : Work} {S : List Slot} :
    ∀ es : List Expr, (∀ n ∈ Expr.typeNamesAll es, Γ.Named n) → (∀ t, some t ∈ hints → Γ.Admits t) → Γ.Sound w S →
    Lower.arguments position hints es Γ.scope w = .ok (types, w') →
    w.Kept w' ∧ Γ.Sound w' (Slot.arguments types ++ S) ∧ ∀ t, some t ∈ types → Γ.Holds t
  | [], _, _, h, ha => by
    simp only [Lower.arguments, Lower.pure_ok] at ha
    obtain ⟨rfl, rfl⟩ := ha
    exact ⟨.refl _, h, fun t ht => (by cases ht)⟩
  | e :: es, hn, hh, h, ha => by
    simp only [Expr.typeNamesAll, List.mem_append] at hn
    simp only [Lower.arguments, Lower.bind_ok, Lower.ite_ok, Lower.fail_ok, and_false, false_or, Lower.pure_ok,
      Bool.not_eq_true] at ha
    obtain ⟨v, w₁, hv, hvoid, ts, w₂, hr, rfl, rfl⟩ := ha
    have hV := expr_pushes hΓ e (fun n h => hn n (.inl h)) (fun t ht => hh t (by
      cases hints with
      | nil => cases ht
      | cons x xs =>
        rw [show x = some t from ht]
        exact List.mem_cons_self)) h hv
    obtain ⟨hk, h, hT⟩ := arguments_supply hΓ es (fun n h => hn n (.inr h))
      (fun t ht => hh t (List.mem_of_mem_tail ht)) (hV.plain hvoid) hr
    refine ⟨hV.kept.trans hk, by simpa [Slot.arguments] using h, fun t ht => ?_⟩
    rcases List.mem_cons.mp ht with ht | ht
    · exact ⟨hV.admits ht.symm, by rw [← ht] at hvoid; exact hvoid⟩
    · exact hT t ht

/-- A delegate is made from one argument. -/
theorem delegateOf_yields (hΓ : Γ.Ok) {called : Bool} {dt : Ty} {w w' : Work} {S : List Slot} {p : Pushed} :
    ∀ es : List Expr, (∀ n ∈ Expr.typeNamesAll es, Γ.Named n) → Γ.Admits dt → Γ.Sound w S →
    Lower.delegateOf dt es Γ.scope w = .ok (p, w') → Γ.Yields w S called p w'
  | [e], hn, ht, h, hd => by
    rw [Lower.delegateOf] at hd
    exact methodGroup_yields hΓ e (fun n h => hn n (by simp [Expr.typeNamesAll, h])) ht h hd
  | [], _, _, _, hd => by cases hd
  | _ :: _ :: _, _, _, _, hd => by cases hd

theorem methodGroup_yields (hΓ : Γ.Ok) {called : Bool} {dt : Ty} {w w' : Work} {S : List Slot} {p : Pushed} :
    ∀ e : Expr, (∀ n ∈ e.typeNames, Γ.Named n) → Γ.Admits dt → Γ.Sound w S →
    Lower.methodGroup dt e Γ.scope w = .ok (p, w') → Γ.Yields w S called p w'
  | .methodRef target name spelling, hn, ht, h, hm => by
    rw [Lower.methodGroup] at hm
    simp only [Expr.typeNames, List.mem_append] at hn
    exact reference_yields hΓ
      (fun _ _ _ _ _ h hp => expr_pushes hΓ target (fun n h => hn n (.inr h)) (no_hint Γ) h hp)
      (fun t ht' => by cases ht'; exact ht) (fun hs => hn spelling (.inl (by simp [hs]))) h hm
  | .member target name, hn, ht, h, hm => by
    rw [Lower.methodGroup] at hm
    exact reference_yields hΓ (fun _ _ _ _ _ h hp =>
        expr_pushes hΓ target (fun n h => hn n (by rw [Expr.typeNames]; exact h)) (no_hint Γ) h hp)
      (fun t ht' => by cases ht'; exact ht) (fun hs => absurd hs (by decide)) h hm
  | .ident name, _, ht, h, hm => by
    rw [Lower.methodGroup] at hm
    exact reference_yields hΓ (fun hm => absurd hm (by decide)) (fun t ht' => by cases ht'; exact ht)
      (fun hs => absurd hs (by decide)) h hm
  | .missing, _, _, _, hm => by cases hm
  | .int _, _, _, _, hm => by cases hm
  | .string _, _, _, _, hm => by cases hm
  | .bool _, _, _, _, hm => by cases hm
  | .null, _, _, _, hm => by cases hm
  | .this, _, _, _, hm => by cases hm
  | .index .., _, _, _, hm => by cases hm
  | .binary .., _, _, _, hm => by cases hm
  | .unary .., _, _, _, hm => by cases hm
  | .call .., _, _, _, hm => by cases hm
  | .new .., _, _, _, hm => by cases hm
  | .newArray .., _, _, _, hm => by cases hm

end

end Setting
end CilCompiler
