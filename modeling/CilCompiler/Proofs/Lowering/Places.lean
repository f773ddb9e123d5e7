import CilCompiler.Lowering.Stmt
import CilCompiler.Proofs.Typed.Work

/-! Reading what an assignment writes. An assignment resolves its target to a place, and `place_reads` says that
    lowering the target as an expression goes through the same work and ends in one load of that place. The two lower
    the operand in front of a dot under different flags, which is all the same for an operand that is no value
    (`expr_called`), and they part where the length of an array is asked for (`length_reads`). -/

namespace CilCompiler

theorem Emission.open_of_encode {s : Site} {e : Emission} {i : Instr} (h : e.encode s = .ok i) : s.isSealed = false := by
  by_contra hs
  rw [Bool.not_eq_false] at hs
  have hopen : ∀ what, s.requireOpen what = .error (.shape (.typeFinalized what s.method.owner.name)) := fun what => by
    simp [Site.requireOpen, hs]
  have hcheck : ∀ op k, s.check op k = .error (.shape (.typeFinalized "instructions" s.method.owner.name)) := fun op k => by
    simp [Site.check, hopen, bind, Except.bind]
  cases e <;> simp [encode, encodeField, encodeMethod, encodeCtor, encodeLocal, encodeArg, encodeLabel, hcheck, hopen, bind,
    Except.bind] at h
  all_goals
    split at h <;> cases h

/-- In a listing any field is taken, and in a module that is run its own ones, of instances or static as the opcode says. -/
theorem Emission.encodeField_iff {s : Site} {op : Opcode} {f : Field} {i : Instr} (hcheck : s.check op .field = .ok ()) :
    encodeField s op f = .ok i ↔
      (s.backend = .dynamic → s.owns f.owner = true ∧ op.isStaticField = f.isStatic) ∧ i = { op, operand := .field f } := by
  simp only [encodeField, hcheck, bind, Except.bind]
  cases s.backend <;> cases s.owns f.owner <;> cases op.isStaticField <;> cases f.isStatic <;> simp [eq_comm]

namespace Place

/-- The load of what a store to the place writes. -/
def read : Place → Emission
  | .local l => .local .ldloc (some l)
  | .arg index => .arg .ldarg index
  | .field f => .field .ldfld f
  | .staticField f => .field .ldsfld f
  | .element elem => .type .ldelem (some elem)

/-- The store to the place. -/
def write : Place → Emission
  | .local l => .local .stloc (some l)
  | .arg index => .arg .starg index
  | .field f => .field .stfld f
  | .staticField f => .field .stsfld f
  | .element elem => .type .stelem (some elem)

theorem store_eq (q : Place) : Lower.store q = Lower.emit q.write := by cases q <;> rfl

/-- A place is loaded and stored to under the same number, field or type. -/
theorem operand_read (q : Place) : q.read.long.operand = q.write.long.operand := by cases q <;> rfl

variable {q : Place} {s : Site} {i : Instr}

/-- What can be stored to can be loaded. -/
theorem encode_read (h : q.write.encode s = .ok i) : ∃ j, q.read.encode s = .ok j := by
  have hopen : s.requireOpen "instructions" = .ok () := by simp [Site.requireOpen, Emission.open_of_encode h]
  have hcheck : ∀ {op : Opcode} {k : OperandKind}, op.accepts k = true → s.check op k = .ok () := fun {op k} ha => by
    simp [Site.check, hopen, ha, bind, Except.bind]
  cases q with
  | «local» l =>
    obtain ⟨x, hx, hm, hl⟩ := Emission.encodeLocal_ok (show Emission.encodeLocal s .stloc (some l) = .ok i from h)
    cases hx
    have hrange : ¬((l.index : Int) < 0 ∨ ShortForm.maxIndex < l.index) := by
      intro hout
      simp [ShortForm.ofLocal, hout] at hl
    have hldloc := hcheck (show Opcode.ldloc.accepts Opcode.ldloc.operand = true from rfl)
    simp only [read, Emission.encode, Emission.encodeLocal, ShortForm.ofLocal, hopen, hldloc, hm, if_neg hrange, if_true]
    cases s.backend <;> exact ⟨_, rfl⟩
  | arg index =>
    obtain ⟨k, hk, hlt, hl⟩ := Emission.encodeArg_ok (show Emission.encodeArg s .starg index = .ok i from h)
    cases Int.ofNat_inj.mp hk
    have hrange : ¬((index : Int) < 0 ∨ ShortForm.maxIndex < index) := by
      intro hout
      simp [ShortForm.ofArg, hout] at hl
    have hin : ¬((index : Int) < 0 ∨ (s.method.argCount : Int) ≤ index) := by omega
    have hldarg := hcheck (show Opcode.ldarg.accepts Opcode.ldarg.operand = true from rfl)
    simp only [read, Emission.encode, Emission.encodeArg, ShortForm.ofArg, hopen, hldarg, if_neg hrange, if_neg hin]
    cases s.backend <;> exact ⟨_, rfl⟩
  | field f =>
    obtain ⟨hf, -⟩ := (Emission.encodeField_iff (hcheck rfl)).mp h
    exact ⟨_, (Emission.encodeField_iff (hcheck rfl)).mpr ⟨hf, rfl⟩⟩
  | staticField f =>
    obtain ⟨hf, -⟩ := (Emission.encodeField_iff (hcheck rfl)).mp h
    exact ⟨_, (Emission.encodeField_iff (hcheck rfl)).mpr ⟨hf, rfl⟩⟩
  | element e => exact ⟨_, bind_eq_ok.mpr ⟨_, hcheck rfl, rfl⟩⟩

end Place

namespace Lower
variable {c : Scope} {w w' : Work} {v : Pushed}

/-! ### Operands that are called on -/

theorem loadField_called {f : Field} (h : loadField f false c w = .ok (v, w')) (hv : v.type.any Ty.isValue = false) :
    loadField f true c w = .ok (v, w') := by
  have htype : v.type = f.type := by
    obtain ⟨_, _, -, h⟩ := bind_ok.mp h
    obtain ⟨rfl, -⟩ := pure_ok.mp h
    rfl
  rw [htype] at hv
  simpa only [loadField, hv, Bool.and_false] using h

theorem loadElement_called {e : Ty} (h : loadElement e false c w = .ok (v, w')) (hv : v.type.any Ty.isValue = false) :
    loadElement e true c w = .ok (v, w') := by
  have htype : v.type = some e := by
    obtain ⟨_, _, -, h⟩ := bind_ok.mp h
    obtain ⟨rfl, -⟩ := pure_ok.mp h
    rfl
  have hv : e.isValue = false := by rwa [htype] at hv
  simpa only [loadElement, hv, Bool.and_false] using h

theorem ident_called {name : Text} {hint : Option Ty} (h : ident name hint false c w = .ok (v, w'))
    (hv : v.type.any Ty.isValue = false) : ident name hint true c w = .ok (v, w') := by
  unfold ident at h ⊢
  rw [bind_of_ok read_run, bind_of_ok (local?_run name)] at h ⊢
  cases hl : w.local? name with
  | some l =>
    rw [hl] at h
    obtain ⟨_, _, he, hp⟩ := bind_ok.mp h
    obtain ⟨rfl, rfl⟩ := pure_ok.mp hp
    have hv : l.type.isValue = false := hv
    simpa only [hv, Bool.and_false] using h
  | none =>
    rw [hl] at h
    cases hpar : c.param? name with
    | some p =>
      rw [hpar] at h
      obtain ⟨_, _, he, hp⟩ := bind_ok.mp h
      obtain ⟨rfl, rfl⟩ := pure_ok.mp hp
      have hv : p.2.isValue = false := hv
      simpa only [hpar, hv, Bool.and_false] using h
    | none =>
      simp only [hpar] at h ⊢
      rw [bind_of_ok (fieldAlong_run c.owner name)] at h ⊢
      cases hf : w.symbols.fieldAlong c.roles.object c.owner name with
      | error f => simpa only [hf] using h
      | ok f =>
        simp only [hf, ite_ok, bind_ok] at h ⊢
        rcases h with ⟨hst, u, w₁, h1, u', w₂, h2, h⟩ | ⟨hst, h⟩
        · exact .inl ⟨hst, u, w₁, h1, u', w₂, h2, loadField_called h hv⟩
        · exact .inr ⟨hst, loadField_called h hv⟩

theorem staticMember_called {t : Ty} {name : Text} {hint : Option Ty} (h : staticMember t name hint false c w = .ok (v, w'))
    (hv : v.type.any Ty.isValue = false) : staticMember t name hint true c w = .ok (v, w') := by
  unfold staticMember at h ⊢
  rw [bind_of_ok (fieldAlong_run t name)] at h ⊢
  cases hf : w.symbols.fieldAlong c.roles.object t name with
  | error f => simpa only [hf] using h
  | ok f =>
    simp only [hf, ite_ok, fail_ok, and_false, or_false] at h ⊢
    exact ⟨h.1, loadField_called h.2 hv⟩

theorem instanceMember_called {t : Ty} {a : Bool} {name : Text} {hint : Option Ty}
    (h : instanceMember t a name hint false c w = .ok (v, w')) (hv : v.type.any Ty.isValue = false) :
    instanceMember t a name hint true c w = .ok (v, w') := by
  unfold instanceMember at h ⊢
  rw [bind_of_ok read_run] at h ⊢
  simp only [ite_ok] at h ⊢
  rcases h with h | ⟨hlen, h⟩
  · exact .inl h
  · refine .inr ⟨hlen, ?_⟩
    rw [bind_of_ok (fieldAlong_run t name)] at h ⊢
    cases hf : w.symbols.fieldAlong c.roles.object t name with
    | error f => simpa only [hf] using h
    | ok f =>
      simp only [hf, ite_ok, fail_ok, and_false, false_or] at h ⊢
      exact ⟨h.1, loadField_called h.2 hv⟩

/-- Code for an expression that is no value is the same where it is called on. -/
theorem expr_called {e : Expr} {hint : Option Ty} (h : expr e hint false c w = .ok (v, w'))
    (hv : v.type.any Ty.isValue = false) : expr e hint true c w = .ok (v, w') := by
  cases e with
  | ident name =>
    rw [expr] at h ⊢
    exact ident_called h hv
  | member target name =>
    rw [expr] at h ⊢
    obtain ⟨o, w₁, ht, h⟩ := bind_ok.mp h
    refine bind_ok.mpr ⟨o, w₁, ht, ?_⟩
    cases o with
    | some t => exact staticMember_called h hv
    | none =>
      obtain ⟨s, w₂, hs, h⟩ := bind_ok.mp h
      obtain ⟨r, w₃, hr, h⟩ := bind_ok.mp h
      exact bind_ok.mpr ⟨s, w₂, hs, bind_ok.mpr ⟨r, w₃, hr, instanceMember_called h hv⟩⟩
  | index array position =>
    rw [expr] at h ⊢
    obtain ⟨t, w₁, ht, h⟩ := bind_ok.mp h
    exact bind_ok.mpr ⟨t, w₁, ht, loadElement_called h hv⟩
  | _ =>
    rw [expr] at h ⊢
    exact h

/-! ### Places -/

theorem loadField_static {f : Field} (hf : f.isStatic = true) :
    loadField f false = (do emit (Place.staticField f).read; return { type := f.type } : Lower Pushed) := by
  simp only [loadField, hf, Bool.false_and]
  rfl

theorem loadField_instance {f : Field} (hf : f.isStatic = false) :
    loadField f false = (do emit (Place.field f).read; return { type := f.type } : Lower Pushed) := by
  simp only [loadField, hf, Bool.false_and]
  rfl

variable {q : Place} {o : Option Ty} {name : Text} {target e : Expr}

theorem identPlace_reads (h : identPlace name c w = .ok ((q, o), w')) :
    ident name none false c w = (do emit q.read; return { type := o } : Lower Pushed) c w' := by
  unfold identPlace at h
  unfold ident
  rw [bind_of_ok read_run, bind_of_ok (local?_run name)] at h ⊢
  cases hl : w.local? name with
  | some l =>
    rw [hl] at h
    obtain ⟨he, rfl⟩ := pure_ok.mp h
    cases he
    rfl
  | none =>
    simp only [hl] at h ⊢
    cases hpar : c.param? name with
    | some p =>
      rw [hpar] at h
      obtain ⟨he, rfl⟩ := pure_ok.mp h
      cases he
      rfl
    | none =>
      simp only [hpar] at h ⊢
      rw [bind_of_ok (fieldAlong_run c.owner name)] at h ⊢
      cases hf : w.symbols.fieldAlong c.roles.object c.owner name with
      | error f =>
        rw [hf] at h
        cases h
      | ok f =>
        simp only [hf] at h ⊢
        rcases ite_ok.mp h with ⟨hst, h⟩ | ⟨hst, h⟩
        · obtain ⟨he, rfl⟩ := pure_ok.mp h
          cases he
          rw [if_neg (by simp [hst]), loadField_static hst]
        · obtain ⟨_, w₁, hi, h⟩ := bind_ok.mp h
          obtain ⟨_, w₂, hthis, h⟩ := bind_ok.mp h
          obtain ⟨he, rfl⟩ := pure_ok.mp h
          cases he
          rw [Bool.not_eq_true] at hst
          rw [if_pos (by simp [hst]), bind_of_ok hi, bind_of_ok hthis, loadField_instance hst]

theorem receiver_of_ok {x : Lower Pushed} {t : Ty} (hx : x c w = .ok (v, w')) (ht : v.type = some t)
    (hv : t.isVoid = false) :
    receiver x name c w = .ok ((t, v.isAddress), w') := by
  unfold receiver
  rw [bind_of_ok hx, ht]
  simp only [hv, Bool.false_eq_true, if_false]
  rfl

/-- What stands in front of a dot when its member is assigned stands there when the member is read, if it is no value. -/
theorem memberPlace_receiver (ht : typeTarget target c w = .ok (none, w))
    (h : memberPlace target name c w = .ok ((q, o), w')) :
    ∃ v t f, expr target none false c w = .ok (v, w') ∧ v.type = some t ∧
      w'.symbols.fieldAlong c.roles.object t name = .ok f ∧ f.isStatic = false ∧ q = .field f ∧ o = f.type ∧
      (t.isValue = false →
        expr (.member target name) none false c w = instanceMember t v.isAddress name none false c w') := by
  unfold memberPlace at h
  rw [bind_of_ok ht] at h
  obtain ⟨⟨t, a⟩, w₁, hr, h⟩ := bind_ok.mp h
  dsimp only at h
  rw [bind_of_ok (fieldAlong_run t name)] at h
  cases hf : w₁.symbols.fieldAlong c.roles.object t name with
  | error f =>
    simp only [hf, ite_ok, fail_ok, and_false, or_false] at h
  | ok f =>
    simp only [hf, ite_ok, fail_ok, and_false, false_or] at h
    obtain ⟨hst, h⟩ := h
    obtain ⟨he, rfl⟩ := pure_ok.mp h
    cases he
    unfold receiver at hr
    obtain ⟨v, w₂, hv, hr⟩ := bind_ok.mp hr
    cases hty : v.type with
    | none =>
      rw [hty] at hr
      cases hr
    | some u =>
      simp only [hty, ite_ok, fail_ok, and_false, false_or, Bool.not_eq_true] at hr
      obtain ⟨hvoid, hr⟩ := hr
      obtain ⟨he, rfl⟩ := pure_ok.mp hr
      cases he
      refine ⟨v, t, f, hv, hty, hf, by simpa using hst, rfl, rfl, fun hval => ?_⟩
      have hcalled := expr_called hv (by rw [hty]; exact hval)
      rw [expr, bind_of_ok ht]
      dsimp only
      rw [bind_of_ok symbols_run]
      exact bind_of_ok (receiver_of_ok hcalled hty hvoid)

/-- An expression asks for the length of an array. -/
def AsksLength (c : Scope) (e : Expr) (w : Work) : Prop :=
  ∃ target v w', e = .member target "Length" ∧ typeTarget target c w = .ok (none, w) ∧
    expr target none false c w = .ok (v, w') ∧ v.type.any Ty.isArray = true

/-- Fields are taken of no value in front of the dot of an expression. -/
def Fieldless (c : Scope) (e : Expr) (w : Work) : Prop :=
  ∀ ⦃target name v w' t f⦄, e = .member target name → expr target none false c w = .ok (v, w') → v.type = some t →
    w'.symbols.fieldAlong c.roles.object t name = .ok f → t.isValue = false

theorem typeTarget_still {x : Option Ty} (h : typeTarget target c w = .ok (x, w')) : w' = w := by
  cases target with
  | ident name =>
    obtain ⟨s, w₁, hs, h⟩ := bind_ok.mp h
    obtain ⟨-, rfl⟩ := symbols_ok.mp hs
    exact (pure_ok.mp h).2.symm
  | _ => exact (pure_ok.mp h).2.symm

theorem memberPlace_reads (hv : Fieldless c (.member target name) w) (hlen : ¬AsksLength c (.member target name) w)
    (h : memberPlace target name c w = .ok ((q, o), w')) :
    expr (.member target name) none false c w = (do emit q.read; return { type := o } : Lower Pushed) c w' := by
  obtain ⟨x, w₁, ht, -⟩ := bind_ok.mp h
  obtain rfl := typeTarget_still ht
  cases x with
  | some t =>
    unfold memberPlace at h
    rw [bind_of_ok ht] at h
    dsimp only at h
    rw [bind_of_ok (fieldAlong_run t name)] at h
    obtain ⟨f, w₂, hf, h⟩ := bind_ok.mp h
    obtain ⟨hfield, rfl⟩ := ofExcept_ok.mp hf
    simp only [ite_ok, fail_ok, and_false, or_false] at h
    obtain ⟨hst, h⟩ := h
    obtain ⟨he, rfl⟩ := pure_ok.mp h
    cases he
    rw [expr, bind_of_ok ht]
    show staticMember t name none false c w₁ = _
    unfold staticMember
    rw [bind_of_ok (fieldAlong_run t name)]
    simp only [hfield, if_pos hst, loadField_static hst]
  | none =>
    obtain ⟨v, t, f, he, hty, hf, hst, rfl, rfl, hrun⟩ := memberPlace_receiver ht h
    have hplain : ¬(t.isArray && decide (name = "Length")) = true := by
      intro hask
      simp only [Bool.and_eq_true, decide_eq_true_eq] at hask
      obtain ⟨harray, rfl⟩ := hask
      exact hlen ⟨target, v, w', rfl, ht, he, by rw [hty]; exact harray⟩
    rw [hrun (hv rfl he hty hf)]
    unfold instanceMember
    rw [bind_of_ok read_run]
    dsimp only
    rw [if_neg hplain, bind_of_ok (fieldAlong_run t name)]
    simp only [hf, hst, Bool.false_eq_true, if_false, loadField_instance hst]

/-- Lowering what an assignment stores to as an expression does the same work, and then loads from the place. -/
theorem place_reads (hv : Fieldless c e w) (hlen : ¬AsksLength c e w) (h : place e c w = .ok ((q, o), w')) :
    expr e none false c w = (do emit q.read; return { type := o } : Lower Pushed) c w' := by
  cases e with
  | ident name =>
    rw [expr]
    exact identPlace_reads h
  | member target name => exact memberPlace_reads hv hlen h
  | index array position =>
    obtain ⟨t, w₁, ht, h⟩ := bind_ok.mp h
    obtain ⟨he, rfl⟩ := pure_ok.mp h
    cases he
    rw [expr, bind_of_ok ht]
    rfl
  | _ => cases h

/-- The length of an array is read as such, also where a field of that name would be assigned. -/
theorem length_reads (hlen : AsksLength c e w) (h : place e c w = .ok ((q, o), w')) :
    expr e none false c w = (do emit (.plain .ldlen); return { type := some c.roles.int32 } : Lower Pushed) c w' ∧
      ∃ f, q = .field f ∧ f.name = "Length" ∧ f.isStatic = false := by
  obtain ⟨target, v, w₁, rfl, ht, he, harray⟩ := hlen
  obtain ⟨v', t, f, he', hty, hf, hst, rfl, rfl, hrun⟩ := memberPlace_receiver ht h
  cases he.symm.trans he'
  rw [hty] at harray
  have harray : t.isArray = true := harray
  have hval : t.isValue = false := by
    cases t with
    | array e => rfl
    | root d => cases harray
    | derived d b => cases harray
  refine ⟨?_, f, rfl, ?_, hst⟩
  · rw [hrun hval]
    unfold instanceMember
    rw [bind_of_ok read_run, if_pos (by simp [harray])]
  · unfold Symbols.fieldAlong at hf
    split at hf
    · rename_i g hg
      cases hf
      obtain ⟨u, -, hfind⟩ := List.exists_of_findSome?_eq_some hg
      simpa using List.find?_some hfind
    · cases hf

end Lower
end CilCompiler
