import CilCompiler.Proofs.Compilation.Recorded

/-! Methods taken from objects. Lowering takes a method from an object only right after it has put the object on the
    stack twice, so the object is there still when the delegate is made (`Draft.Doubles`). -/

namespace CilCompiler

/-- A method is taken from an object only behind an instruction that puts the object on the stack twice. -/
def Draft.Doubles (d : Draft) : Prop :=
  ∀ {pc : Nat} {i : Instr}, d.code[pc]? = some i → i.op = .ldvirtftn → ∃ k j, pc = k + 1 ∧ d.code[k]? = some j ∧ j.op = .dup

/-- Stretches of code that take methods only from objects that they put on the stack twice. -/
inductive Doubled : List Instr → Prop
  | nil : Doubled []
  | other {i is} : i.op ≠ .ldvirtftn → Doubled is → Doubled (i :: is)
  | take {i j is} : i.op = .dup → j.op = .ldvirtftn → Doubled is → Doubled (i :: j :: is)

namespace Doubled
variable {is js : List Instr} {i j : Instr}

theorem append (hi : Doubled is) (hj : Doubled js) : Doubled (is ++ js) := by
  induction hi with
  | nil => exact hj
  | other h _ ih => exact .other h ih
  | take h h' _ ih => exact .take h h' ih

theorem get (h : Doubled is) {pc : Nat} (hi : is[pc]? = some i) (hop : i.op = .ldvirtftn) :
    ∃ k j, pc = k + 1 ∧ is[k]? = some j ∧ j.op = .dup := by
  -- What is found in the rest of the code is one or two places further on.
  have onward : ∀ {is : List Instr} {n : Nat}, (∃ k j, n = k + 1 ∧ is[k]? = some j ∧ j.op = .dup) → ∀ x : Instr,
      ∃ k j, n + 1 = k + 1 ∧ (x :: is)[k]? = some j ∧ j.op = .dup := by
    rintro is n ⟨k, j, rfl, hj, hdup⟩ x
    exact ⟨k + 1, j, rfl, hj, hdup⟩
  induction h generalizing pc with
  | nil => cases hi
  | other hne _ ih =>
    cases pc with
    | zero =>
      cases hi
      exact absurd hop hne
    | succ pc => exact onward (ih hi) _
  | take hdup _ _ ih =>
    match pc with
    | 0 =>
      cases hi
      rw [hdup] at hop
      cases hop
    | 1 => exact ⟨0, _, rfl, rfl, hdup⟩
    | pc + 2 => exact onward (onward (ih hi) _) _

end Doubled

/-- Lowering has added code that takes methods only from objects that it puts on the stack twice. -/
def Work.Doubles (w w' : Work) : Prop := ∃ is, w'.draft.code.toList = w.draft.code.toList ++ is ∧ Doubled is

/-- Taking a method of an object and copying a value have no short forms. -/
theorem Instr.op_of_expanded {i : Instr} {op : Opcode} (hop : op ∈ [Opcode.ldvirtftn, .dup])
    (h : i.expanded.op = op) : i.op = op := by
  obtain ⟨op', x⟩ := i
  simp only [List.mem_cons, List.not_mem_nil, or_false] at hop
  rcases hop with rfl | rfl <;> cases op' <;> first | rfl | cases h

namespace Work.Doubles
variable {w w' w'' : Work}

theorem of_code (h : w'.draft.code = w.draft.code) : w.Doubles w' := ⟨[], by simp [h], .nil⟩

theorem refl (w : Work) : w.Doubles w := of_code rfl

theorem trans (h : w.Doubles w') (h' : w'.Doubles w'') : w.Doubles w'' := by
  obtain ⟨is, hcode, hi⟩ := h
  obtain ⟨js, hcode', hj⟩ := h'
  exact ⟨is ++ js, by rw [hcode', hcode, List.append_assoc], hi.append hj⟩

theorem emit {e : Emission} (he : e.long.op ≠ .ldvirtftn) : (Lower.emit e).Keeps Work.Doubles := by
  intro c w w' u h
  obtain ⟨i, hi, hcode, -⟩ := Lower.emit_pushes h
  refine ⟨[i], by rw [hcode, Array.toList_push], .other (fun hop => he ?_) .nil⟩
  rw [← Emission.encode_long hi]
  obtain ⟨op, x⟩ := i
  cases hop
  rfl

theorem take (m : Method) : (Lower.take m).Keeps Work.Doubles := by
  intro c w w'' u h
  obtain ⟨_, w', h, h'⟩ := Lower.bind_ok.mp h
  obtain ⟨i, hi, hcode, -⟩ := Lower.emit_pushes h
  obtain ⟨j, hj, hcode', -⟩ := Lower.emit_pushes h'
  have hdup : i.op = .dup := Instr.op_of_expanded (by decide) (congrArg Instr.op (Emission.encode_long hi))
  have htake : j.op = .ldvirtftn := Instr.op_of_expanded (by decide) (congrArg Instr.op (Emission.encode_long hj))
  exact ⟨[i, j], by simp [hcode', hcode], .take hdup htake .nil⟩

/-- A label is no operand of an instruction that takes a method. -/
theorem branch (op : Opcode) (l : Option Label) : (Lower.emit (.label op l)).Keeps Work.Doubles := by
  intro c w w' u h
  by_cases hop : op = .ldvirtftn
  · obtain ⟨i, hi, -⟩ := Lower.emit_pushes h
    subst hop
    replace hi : Emission.encodeLabel c.site .ldvirtftn l = .ok i := hi
    unfold Emission.encodeLabel at hi
    split at hi
    · cases hi
    · obtain ⟨_, hcheck, -⟩ := bind_eq_ok.mp hi
      obtain ⟨_, -, hcheck⟩ := bind_eq_ok.mp hcheck
      cases hcheck
  · have hne : (Emission.long (.label op l)).op ≠ .ldvirtftn := fun he => hop (Instr.op_of_expanded (by decide) he)
    exact emit hne h

theorem labelwise : Labelwise (@Lower.Keeps Work.Doubles) where
  toOngoing := by
    refine Lower.Keeps.ongoing refl trans (fun name c w w' t h => ?_) (fun name t c w w' l h => ?_)
        (fun {e} he => emit ?_) take
    · obtain ⟨s, -, rfl⟩ := Lower.lookupType_ok.mp h
      exact of_code rfl
    · obtain ⟨-, rfl⟩ := Lower.declareLocal_ok h
      exact of_code rfl
    · simp only [Emission.goesOn, Bool.and_eq_true, bne_iff_ne] at he
      exact he.2
  leave := emit (by decide)
  defineLabel := by
    intro c w w' l h
    obtain ⟨⟨l', d⟩, hd, he⟩ := map_eq_ok.mp h
    cases he
    unfold Draft.defineLabel at hd
    split at hd
    · cases hd
    · obtain ⟨_, -, hd⟩ := bind_eq_ok.mp hd
      cases hd
      exact of_code rfl
  markLabel l := by
    intro c w w' u h
    obtain ⟨d, hd, he⟩ := map_eq_ok.mp h
    cases he
    unfold Draft.mark at hd
    repeat' split at hd
    all_goals cases hd
    exact of_code rfl
  branch := branch

end Work.Doubles

namespace Compilation
variable {scope : Scope} {d : DeclaredType} {x : Member} {s : Symbols} {D : Draft}

/-- What lowering a member leaves takes methods only from objects that are on the stack twice. -/
theorem Emits.doubles (h : Emits scope d x { symbols := s } D) : D.Doubles := by
  obtain ⟨b, w, w', hl, hret, rfl⟩ := h
  have lowered : Work.Doubles { symbols := s } w := by
    unfold lowering at hl
    split at hl
    · exact Work.Doubles.labelwise.constructor d.inits x.body hl
    · exact Work.Doubles.labelwise.statements x.body hl
  obtain ⟨is, hcode, his⟩ : Work.Doubles { symbols := s } w' := by
    rcases hret with ⟨-, rfl⟩ | ⟨-, hret⟩
    · exact lowered
    · exact lowered.trans (Work.Doubles.emit (by decide) hret)
  intro pc i hi hop
  have hcode : w'.draft.code.toList = is := hcode
  simp only [← Array.getElem?_toList, hcode] at hi ⊢
  exact his.get hi hop

end Compilation
end CilCompiler
