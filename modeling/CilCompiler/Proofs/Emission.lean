import CilCompiler.Machine.Effect
import CilCompiler.Proofs.Outcome

/-!
Emissions and the long forms of what they become. Whatever short form an emission is written in, its long
form is fixed by the emission alone, and the numbers of locals and arguments fit an instruction.
-/

namespace CilCompiler

/-- The long form of the instruction an emission becomes. -/
def Emission.long : Emission → Instr
  | .plain op => Instr.expanded { op }
  | .int _ v => { op := .ldc, operand := .int v }
  | .str op s => Instr.expanded { op, operand := .str s }
  | .type op t => Instr.expanded { op, operand := match t with | some t => .type t | none => .none }
  | .field op f => Instr.expanded { op, operand := .field f }
  | .method op m => Instr.expanded { op, operand := .method m }
  | .ctor op c => Instr.expanded { op, operand := .ctor c }
  | .local op l => { op, operand := match l with | some l => .int (Int32.ofNat l.index) | none => .none }
  | .arg op i => { op, operand := .int (Int32.ofInt i) }
  | .label op l => Instr.expanded { op, operand := match l with | some l => .label l.id | none => .none }

/-- No short form stands for a call. -/
theorem Instr.expanded_eq_call {i : Instr} {x : Operand} (h : i.expanded = { op := .call, operand := x }) :
    i = { op := .call, operand := x } := by
  obtain ⟨op, y⟩ := i
  cases op <;> first | exact h | exact nomatch congrArg Instr.op h

theorem Instr.isBranch_expanded (i : Instr) : i.expanded.op.isBranch = i.op.isBranch := by
  obtain ⟨op, x⟩ := i
  cases op <;> rfl

namespace ShortForm

theorem expanded_ite {c : Prop} [Decidable c] {i j k : Instr} (hi : c → i.expanded = k) (hj : ¬c → j.expanded = k) :
    (if c then i else j).expanded = k := by
  by_cases h : c
  · rw [if_pos h, hi h]
  · rw [if_neg h, hj h]

theorem ofInt_expanded (v : Int32) : (ofInt v).expanded = { op := .ldc, operand := .int v } := by
  unfold ofInt
  -- One form without operand for each of ten constants, then the form with a byte.
  iterate 10 refine expanded_ite (fun h => by rw [h]; rfl) fun _ => ?_
  exact expanded_ite (fun _ => rfl) fun _ => rfl

theorem ofLocal_expanded {op : Opcode} {n : Nat} {i : Instr} (h : ofLocal op n = .ok i) :
    i.expanded = { op, operand := .int (Int32.ofNat n) } ∧ n ≤ 65534 := by
  unfold ofLocal at h
  split at h
  · cases h
  · rename_i hr
    have hn : n ≤ 65534 := by
      simp only [maxIndex] at hr
      omega
    refine ⟨?_, hn⟩
    dsimp only at h
    split at h
    · injection h with h
      subst h
      iterate 4 refine expanded_ite (fun h => by rw [Int.ofNat_inj.mp h]; rfl) fun _ => ?_
      rfl
    · injection h with h
      subst h
      iterate 4 refine expanded_ite (fun h => by rw [Int.ofNat_inj.mp h]; rfl) fun _ => ?_
      rfl
    · cases h
      rfl
    · cases h

theorem ofArg_expanded {op : Opcode} {n : Nat} {i : Instr} (h : ofArg op n = .ok i) :
    i.expanded = { op, operand := .int (Int32.ofNat n) } ∧ n ≤ 65534 := by
  unfold ofArg at h
  split at h
  · cases h
  · rename_i hr
    have hn : n ≤ 65534 := by
      simp only [maxIndex] at hr
      omega
    refine ⟨?_, hn⟩
    dsimp only at h
    split at h
    · injection h with h
      subst h
      iterate 4 refine expanded_ite (fun h => by rw [Int.ofNat_inj.mp h]; rfl) fun _ => ?_
      split <;> rfl
    · cases h
      split <;> rfl
    · cases h
      split <;> rfl
    · cases h

end ShortForm

namespace Emission
variable {s : Site} {i : Instr}

theorem encodeLocal_ok {op : Opcode} {l : Option LocalSlot} (h : encodeLocal s op l = .ok i) :
    ∃ x, l = some x ∧ x.method = s.method ∧ ShortForm.ofLocal op x.index = .ok i := by
  unfold encodeLocal at h
  dsimp only at h
  cases l with
  | none =>
    split at h
    all_goals
      obtain ⟨_, -, h⟩ := bind_eq_ok.mp h
      cases h
  | some x =>
    split at h
    all_goals
      obtain ⟨_, -, h⟩ := bind_eq_ok.mp h
      dsimp only at h
      split at h
      · exact ⟨x, rfl, ‹_›, h⟩
      · cases h

theorem encodeArg_ok {op : Opcode} {n : Int} (h : encodeArg s op n = .ok i) :
    ∃ k : Nat, n = k ∧ k < s.method.argCount ∧ ShortForm.ofArg op k = .ok i := by
  unfold encodeArg at h
  dsimp only at h
  split at h
  all_goals
    obtain ⟨_, -, h⟩ := bind_eq_ok.mp h
    split at h
    · cases h
    · refine ⟨n.toNat, by omega, by omega, ?_⟩
      rw [Int.toNat_of_nonneg (by omega)]
      exact h

theorem encodeField_ok {op : Opcode} {f : Field} (h : encodeField s op f = .ok i) : i = { op, operand := .field f } := by
  unfold encodeField at h
  obtain ⟨_, -, h⟩ := bind_eq_ok.mp h
  repeat' split at h
  all_goals cases h
  all_goals rfl

theorem encodeMethod_ok {op : Opcode} {m : Method} (h : encodeMethod s op m = .ok i) :
    i = { op, operand := .method m } := by
  unfold encodeMethod at h
  obtain ⟨_, -, h⟩ := bind_eq_ok.mp h
  repeat' split at h
  all_goals cases h
  all_goals rfl

theorem encodeCtor_ok {op : Opcode} {c : Method} (h : encodeCtor s op c = .ok i) : i = { op, operand := .ctor c } := by
  unfold encodeCtor at h
  obtain ⟨_, -, h⟩ := bind_eq_ok.mp h
  split at h
  all_goals cases h
  rfl

theorem encodeLabel_ok {op : Opcode} {l : Option Label} (h : encodeLabel s op l = .ok i) :
    ∃ x, l = some x ∧ i = { op, operand := .label x.id } := by
  unfold encodeLabel at h
  split at h
  · cases h
  · obtain ⟨_, -, h⟩ := bind_eq_ok.mp h
    cases l with
    | none => cases h
    | some x =>
      dsimp only at h
      split at h
      · cases h
        exact ⟨x, rfl, rfl⟩
      · cases h

theorem encode_long {e : Emission} (h : e.encode s = .ok i) : i.expanded = e.long := by
  cases e with
  | plain op =>
    simp only [encode] at h
    split at h
    · cases h
    · obtain ⟨_, -, h⟩ := bind_eq_ok.mp h
      cases h
      rfl
  | int op v =>
    simp only [encode] at h
    split at h
    · obtain ⟨_, -, h⟩ := bind_eq_ok.mp h
      cases h
      exact ShortForm.ofInt_expanded v
    · cases h
  | str op t =>
    obtain ⟨_, -, h⟩ := bind_eq_ok.mp h
    cases h
    rfl
  | type op t =>
    obtain ⟨_, -, h⟩ := bind_eq_ok.mp h
    cases t with
    | none => cases h
    | some t =>
      cases h
      rfl
  | field op f =>
    rw [encodeField_ok h]
    rfl
  | method op m =>
    rw [encodeMethod_ok h]
    rfl
  | ctor op c =>
    rw [encodeCtor_ok h]
    rfl
  | «local» op l =>
    obtain ⟨x, rfl, -, h⟩ := encodeLocal_ok h
    exact (ShortForm.ofLocal_expanded h).1
  | arg op n =>
    obtain ⟨k, rfl, -, h⟩ := encodeArg_ok h
    exact (ShortForm.ofArg_expanded h).1
  | label op l =>
    obtain ⟨x, rfl, rfl⟩ := encodeLabel_ok h
    rfl

theorem local_le {op : Opcode} {l : LocalSlot} (h : (Emission.local op (some l)).encode s = .ok i) : l.index ≤ 65534 := by
  obtain ⟨x, hx, -, h⟩ := encodeLocal_ok (show encodeLocal s op (some l) = .ok i from h)
  cases hx
  exact (ShortForm.ofLocal_expanded h).2

theorem arg_le {op : Opcode} {n : Nat} (h : (Emission.arg op n).encode s = .ok i) : n ≤ 65534 := by
  obtain ⟨k, hk, -, h⟩ := encodeArg_ok (show encodeArg s op n = .ok i from h)
  cases Int.ofNat_inj.mp hk
  exact (ShortForm.ofArg_expanded h).2

end Emission
end CilCompiler
