import CilCompiler.Module.Balance
import CilCompiler.Proofs.Outcome
import CilCompiler.Proofs.Renaming.Type

/-!
Bodies under a renaming. A renamed emission is recorded as the renamed instruction at a renamed site, and a renamed
body is finished as the renamed one: neither the encoding nor the stack depends on more than the names of types.
-/

namespace CilCompiler

namespace Renaming

variable (ρ : Renaming)

/-! ### Instructions -/

@[simp] theorem op_instr (i : Instr) : (ρ.instr i).op = i.op := rfl

@[simp] theorem stackEffect_operand (op : Opcode) (x : Operand) : stackEffect op (ρ.operand x) = stackEffect op x := by
  unfold stackEffect
  split
  all_goals cases x <;> simp [operand]

@[simp] theorem effect_instr (ret : Option Ty) (i : Instr) : (ρ.instr i).effect (ρ.opt ret) = i.effect ret := by
  unfold Instr.effect
  rw [op_instr]
  split
  · cases ret <;> simp [stackEffect]
  · exact ρ.stackEffect_operand _ i.operand

theorem instr_ofInt (v : Int32) : ρ.instr (ShortForm.ofInt v) = ShortForm.ofInt v := by
  simp only [ShortForm.ofInt, apply_ite ρ.instr]
  rfl

theorem instr_ofLocal {op : Opcode} {n : Int} {i : Instr} (h : ShortForm.ofLocal op n = .ok i) : ρ.instr i = i := by
  unfold ShortForm.ofLocal at h
  repeat' split at h
  all_goals cases h
  all_goals rfl

theorem instr_ofArg {op : Opcode} {n : Int} {i : Instr} (h : ShortForm.ofArg op n = .ok i) : ρ.instr i = i := by
  unfold ShortForm.ofArg at h
  repeat' split at h
  all_goals cases h
  all_goals rfl

@[simp] theorem depth_draft (d : Draft) : (ρ.draft d).depth = d.depth := rfl

theorem isEmpty_map_instr (code : Array Instr) : (code.map ρ.instr).isEmpty = code.isEmpty := by simp [Array.isEmpty]

end Renaming

/-! ### Sites -/

/-- Places of matching bodies; their modules may have different names. -/
structure Site.Matched (μ : Matching) (s s' : Site) : Prop where
  distinct : Function.Injective μ.body
  backend : s'.backend = s.backend
  isSealed : s'.isSealed = s.isSealed
  method : s'.method = μ.body s.method
  owner : s'.method.owner = μ.ty s.method.owner
  isStatic : s'.method.isStatic = s.method.isStatic
  isCtor : s'.method.isCtor = s.method.isCtor
  ret : s'.method.ret = μ.opt s.method.ret
  args : ∀ n, μ.Args n → (s'.method.argCount ≤ n ↔ s.method.argCount ≤ n)

namespace Site.Matched

variable {μ : Matching} {s s' : Site} (h : s.Matched μ s')
include h

theorem requireOpen (what : Text) : Agree (fun _ _ => True) (s.requireOpen what) (s'.requireOpen what) := by
  simp only [Site.requireOpen, h.isSealed]
  exact .ite Iff.rfl (fun _ => .error rfl) fun _ => .ok trivial

theorem check (op : Opcode) (k : OperandKind) : Agree (fun _ _ => True) (s.check op k) (s'.check op k) :=
  (h.requireOpen _).bind fun _ _ _ => .ite Iff.rfl (fun _ => .ok trivial) fun _ => .error rfl

theorem owns (t : Ty) : s'.owns (μ.ty t) = s.owns t := by simp [Site.owns, h.owner]

/-- A renamed emission becomes the renamed instruction. -/
theorem encode (e : Emission) (he : μ.Suits e) :
    Agree (fun i i' => i' = μ.instr i) (e.encode s) ((μ.emission e).encode s') := by
  cases e with
  | plain op =>
    simp only [Matching.emission, Emission.encode, h.backend]
    exact .ite Iff.rfl (fun _ => .error rfl) fun _ => (h.check op .none).bind fun _ _ _ => .ok rfl
  | int op v =>
    simp only [Matching.emission, Emission.encode]
    exact .ite Iff.rfl (fun _ => (h.requireOpen _).bind fun _ _ _ => .ok (μ.instr_ofInt v).symm) fun _ => .error rfl
  | str op t => exact (h.check op .string).bind fun _ _ _ => .ok rfl
  | type op t =>
    refine (h.check op .type).bind fun _ _ _ => ?_
    cases t with
    | none =>
      refine .error ?_
      unfold Site.withoutType
      rw [h.backend]
      cases s.backend <;> rfl
    | some t => exact .ok rfl
  | field op f =>
    refine (h.check op .field).bind fun _ _ _ => ?_
    simp only [h.backend, Renaming.owner_field, h.owns, Renaming.isStatic_field]
    exact .ite Iff.rfl
      (fun _ => .ite Iff.rfl (fun _ => .error rfl) fun _ => .ite Iff.rfl (fun _ => .error rfl) fun _ => .ok rfl)
      fun _ => .ok rfl
  | method op m =>
    refine (h.check op .method).bind fun _ _ _ => ?_
    simp only [h.backend, Renaming.owner_method, h.owns, Renaming.isStatic_method]
    exact .ite Iff.rfl
      (fun _ => .ite Iff.rfl (fun _ => .error rfl) fun _ => .ite Iff.rfl (fun _ => .error rfl) fun _ => .ok rfl)
      fun _ => .ok rfl
  | ctor op c =>
    refine (h.check op .ctor).bind fun _ _ _ => ?_
    simp only [h.backend, Renaming.owner_method, h.owns]
    exact .ite Iff.rfl (fun _ => .error rfl) fun _ => .ok rfl
  | «local» op l =>
    have hslot : ∀ (l : LocalSlot) {f f' : Fault}, f.answer? = f'.answer? →
        Agree (fun i i' => i' = μ.instr i) (if l.method = s.method then ShortForm.ofLocal op l.index else .error f)
          (if (μ.localSlot l).method = s'.method then ShortForm.ofLocal op l.index else .error f') := by
      intro l f f' hf
      simp only [h.method, Matching.localSlot, h.distinct.eq_iff]
      refine .ite Iff.rfl (fun _ => ?_) fun _ => .error hf
      cases hi : ShortForm.ofLocal op l.index with
      | ok i => exact .ok (μ.instr_ofLocal hi).symm
      | error f => exact .error rfl
    simp only [Matching.emission, Emission.encode, Emission.encodeLocal, h.backend]
    cases s.backend with
    | textual =>
      refine (h.requireOpen _).bind fun _ _ _ => ?_
      cases l with
      | none => exact .error rfl
      | some l => exact hslot l rfl
    | dynamic =>
      refine (h.check op _).bind fun _ _ _ => ?_
      cases l with
      | none => exact .error rfl
      | some l => exact hslot l rfl
  | arg op n =>
    have harg : Agree (fun i i' => i' = μ.instr i)
        (if n < 0 ∨ s.method.argCount ≤ n then .error (.backend (.noSuchArgument n s.method.name))
          else ShortForm.ofArg op n)
        (if n < 0 ∨ s'.method.argCount ≤ n then .error (.backend (.noSuchArgument n s'.method.name))
          else ShortForm.ofArg op n) := by
      refine .ite (or_congr_right (h.args n he).symm) (fun _ => .error rfl) fun _ => ?_
      cases hi : ShortForm.ofArg op n with
      | ok i => exact .ok (μ.instr_ofArg hi).symm
      | error f => exact .error rfl
    simp only [Matching.emission, Emission.encode, Emission.encodeArg, h.backend]
    cases s.backend with
    | textual => exact (h.requireOpen _).bind fun _ _ _ => harg
    | dynamic => exact (h.check op _).bind fun _ _ _ => harg
  | label op l =>
    simp only [Matching.emission, Emission.encode, Emission.encodeLabel, h.backend]
    cases s.backend with
    | textual => exact .error rfl
    | dynamic =>
      refine (h.check op .label).bind fun _ _ _ => ?_
      cases l with
      | none => exact .error rfl
      | some l =>
        simp only [h.method, Option.map_some, Matching.label, h.distinct.eq_iff]
        exact .ite Iff.rfl (fun _ => .ok rfl) fun _ => .error rfl

/-- A renamed instruction is taken down in the renamed body as the instruction is in the body. -/
theorem record (d : Draft) (i : Instr) :
    Agree (fun _ _ => True) (d.record s i).1 ((μ.draft d).record s' (μ.instr i)).1 ∧
      ((μ.draft d).record s' (μ.instr i)).2 = μ.draft (d.record s i).2 := by
  unfold Draft.record
  rw [h.backend]
  cases s.backend with
  | dynamic => exact ⟨.ok trivial, by simp [Draft.push, Renaming.draft]⟩
  | textual =>
    simp only [h.ret, Renaming.effect_instr, Renaming.op_instr, Renaming.depth_draft]
    split
    · exact ⟨.error rfl, rfl⟩
    · split
      · exact ⟨.error rfl, rfl⟩
      · exact ⟨.ok trivial, by simp [Draft.push, Renaming.draft]⟩

/-- A renamed emission into a renamed body. -/
theorem emit (d : Draft) (e : Emission) (he : μ.Suits e) :
    Agree (fun _ _ => True) (d.emit s e).1 ((μ.draft d).emit s' (μ.emission e)).1 ∧
      ((μ.draft d).emit s' (μ.emission e)).2 = μ.draft (d.emit s e).2 := by
  have he := h.encode e he
  unfold Draft.emit
  generalize e.encode s = x at he ⊢
  generalize (μ.emission e).encode s' = y at he ⊢
  cases he with
  | ok hi =>
    subst hi
    exact h.record d _
  | error hc => exact ⟨.error hc, rfl⟩

theorem declareLocal (d : Draft) (t : Option Ty) :
    Agree (fun r r' => r' = (μ.localSlot r.1, μ.draft r.2)) (d.declareLocal s t)
      ((μ.draft d).declareLocal s' (μ.opt t)) := by
  refine Agree.bind (R := fun _ _ => True) ?_ fun _ _ _ => ?_
  · rw [h.backend]
    exact h.requireOpen _
  · cases t with
    | none => exact .error rfl
    | some t => exact .ok (by simp [h.method, Matching.localSlot, Renaming.draft])

theorem defineLabel (d : Draft) :
    Agree (fun r r' => r' = (μ.label r.1, μ.draft r.2)) (d.defineLabel s) ((μ.draft d).defineLabel s') := by
  unfold Draft.defineLabel
  rw [h.backend]
  cases s.backend with
  | textual => exact .error rfl
  | dynamic => exact (h.requireOpen _).bind fun _ _ _ => .ok (by rw [h.method]; rfl)

theorem mark (d : Draft) (l : Option Label) :
    Agree (fun r r' => r' = μ.draft r) (d.mark s l) ((μ.draft d).mark s' (l.map μ.label)) := by
  unfold Draft.mark
  rw [h.backend]
  cases s.backend with
  | textual => exact .error rfl
  | dynamic =>
    cases l with
    | none => exact .error rfl
    | some l =>
      simp only [h.method, Option.map_some, Matching.label, h.distinct.eq_iff]
      refine .ite Iff.rfl (fun _ => ?_) fun _ => .error rfl
      have hmarks : (μ.draft d).marks = d.marks := rfl
      rw [hmarks]
      split
      · exact .ok (by simp [Renaming.draft])
      · exact .error rfl

end Site.Matched

/-! ### Finished bodies -/

namespace Renaming

variable (ρ : Renaming)

def body (b : Body) : Body := { b with code := b.code.map ρ.instr, locals := b.locals.map ρ.ty }

theorem settle_draft (d : Draft) : (ρ.draft d).settle = d.settle.map ρ.body := by
  unfold Draft.settle
  change (if (d.code.map ρ.instr).isEmpty = true then _ else if d.depth ≠ 0 then _ else _) = _
  rw [isEmpty_map_instr]
  split
  · rfl
  · split <;> rfl

theorem resolve_draft (d : Draft) (pc : Nat) (i : Instr) :
    (ρ.draft d).resolve pc (ρ.instr i) = (d.resolve pc i).map ρ.instr := by
  obtain ⟨op, x⟩ := i
  cases x
  case label id =>
    simp only [Draft.resolve, instr, operand, draft, Array.size_map]
    split
    · split <;> rfl
    · rfl
  all_goals rfl

theorem resolveFrom_draft (d : Draft) (pc : Nat) (is : List Instr) :
    (ρ.draft d).resolveFrom pc (is.map ρ.instr) = (d.resolveFrom pc is).map (List.map ρ.instr) := by
  induction is generalizing pc with
  | nil => rfl
  | cons i is ih =>
    simp only [List.map_cons, Draft.resolveFrom, resolve_draft, ih]
    cases d.resolve pc i with
    | error f => rfl
    | ok i => cases d.resolveFrom (pc + 1) is <;> rfl

theorem successors_instr (size pc : Nat) (i : Instr) : Flow.successors size pc (ρ.instr i) = Flow.successors size pc i := by
  obtain ⟨op, x⟩ := i
  cases x <;> rfl

theorem visit_code (ret : Option Ty) (code : Array Instr) (f : Flow) (pc : Nat) :
    Flow.visit (ρ.opt ret) (code.map ρ.instr) f pc = Flow.visit ret code f pc := by
  unfold Flow.visit
  rw [Array.getElem?_map]
  cases code[pc]? with
  | none => rfl
  | some i =>
    rcases f.depths[pc]? with _ | _ | depth
    · rfl
    · rfl
    · simp only [Option.map_some, effect_instr, op_instr, successors_instr, Array.size_map]

theorem run_code (ret : Option Ty) (code : Array Instr) (fuel : Nat) (f : Flow) :
    Flow.run (ρ.opt ret) (code.map ρ.instr) fuel f = Flow.run ret code fuel f := by
  induction fuel generalizing f with
  | zero => rfl
  | succ fuel ih => simp only [Flow.run, visit_code, ih]

theorem verify_draft (d : Draft) (ret : Option Ty) : (ρ.draft d).verify (ρ.opt ret) = (d.verify ret).map ρ.body := by
  have hcode : (ρ.draft d).code.toList = d.code.toList.map ρ.instr := Array.toList_map
  unfold Draft.verify
  rw [hcode, resolveFrom_draft]
  cases d.resolveFrom 0 d.code.toList with
  | error f => rfl
  | ok code =>
    change (if (code.map ρ.instr).toArray.isEmpty = true then _ else Flow.ofCode _ (code.map ρ.instr).toArray >>= _) =
      (if code.toArray.isEmpty = true then _ else Flow.ofCode _ code.toArray >>= _).map ρ.body
    rw [← List.map_toArray, isEmpty_map_instr, Flow.ofCode, Flow.ofCode, run_code, Array.size_map]
    split
    · rfl
    · cases Flow.run ret code.toArray code.toArray.size (Flow.start code.toArray.size) <;> rfl

end Renaming
end CilCompiler
