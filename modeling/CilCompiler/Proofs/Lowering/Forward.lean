import CilCompiler.Proofs.Depths
import CilCompiler.Proofs.Lowering.Stepwise

/-! Where branches go. Without loops a label is marked behind every branch to it: `Draft.Forward` says so of a body in
    the making, and lowering keeps it, because a choice marks its labels once all its branches have been recorded
    (`Advances.choice`). -/

namespace CilCompiler

/-! ### Loops -/

mutual

/-- Whether a statement is or holds a loop. -/
def Stmt.loops : Stmt → Bool
  | .while .. => true
  | .if _ yes no => Stmt.anyLoops yes || Stmt.anyLoops no
  | .return _ | .local .. | .assign .. | .expr _ | .baseCall => false

/-- Whether there is a loop in statements. -/
def Stmt.anyLoops : List Stmt → Bool
  | [] => false
  | s :: rest => s.loops || Stmt.anyLoops rest

end

def ClassDecl.loops (d : ClassDecl) : Bool :=
  (d.ctors.any fun x => Stmt.anyLoops x.body) || d.methods.any fun x => Stmt.anyLoops x.body

/-- Whether there is a loop in a program. -/
def Program.loops (p : Program) : Bool := p.classes.any ClassDecl.loops

/-! ### Branches to places behind them -/

/-- Every branch whose label is marked goes to a place behind it. -/
def Draft.Forward (d : Draft) : Prop :=
  ∀ ⦃pc n : Nat⦄ ⦃i : Instr⦄, d.code[pc]? = some i → d.target? i = some n → pc < n

namespace Draft.Forward

variable {d d' : Draft}

theorem new : Draft.Forward {} := fun _ _ _ h => by simp at h

/-- An instruction that goes nowhere is recorded. -/
theorem push (h : d.Forward) {i : Instr} (hi : d.target? i = none) : (d.push i).Forward := by
  intro pc n j hj hn
  have hj : (d.code.push i)[pc]? = some j := hj
  have hn : d.target? j = some n := hn
  rw [Array.getElem?_push] at hj
  split at hj
  · cases hj
    rw [hi] at hn
    cases hn
  · exact h hj hn

/-- Labels that are added, or marked at the end, leave the branches there are forward. -/
theorem marks (h : d.Forward) (hcode : d'.code = d.code)
    (hm : ∀ {id n : Nat}, d'.marks[id]? = some (some n) → d.marks[id]? = some (some n) ∨ n = d.code.size) : d'.Forward := by
  intro pc n i hi hn
  rw [hcode] at hi
  have hpc := (Array.getElem?_eq_some_iff.mp hi).1
  unfold target? at hn
  split at hn
  · rename_i id hid
    rcases hm (Option.join_eq_some_iff.mp hn) with hold | rfl
    · refine h hi ?_
      simp only [target?, hid, hold, Option.join_some]
    · exact hpc
  · cases hn

/-- The finished body only jumps forward. -/
theorem jumps (h : d.Forward) {code : Array Instr} (hr : d.ResolvesTo code) {pc n : Nat} {j : Instr}
    (hj : code[pc]? = some j)
    (hn : j.offset? = some n) : pc < n := by
  have hpc := (Array.getElem?_eq_some_iff.mp hj).1
  rw [hr.size] at hpc
  have hi : d.code[pc]? = some d.code[pc] := Array.getElem?_eq_getElem hpc
  obtain ⟨j', hj', hres⟩ := hr.each hi
  rw [hj] at hj'
  cases hj'
  exact h hi (by rw [← hres.target, hn])

end Draft.Forward

/-! ### Emissions -/

namespace ShortForm

theorem ofInt_operand (v : Int32) (id : Nat) : (ofInt v).operand ≠ .label id := by
  intro hid
  have hb := (Draft.labelled_ofInt v).1.mpr ⟨id, hid⟩
  rw [← Instr.isBranch_expanded, ofInt_expanded] at hb
  cases hb

theorem ofLocal_operand {op : Opcode} {n : Int} {i : Instr} (h : ofLocal op n = .ok i) (id : Nat) :
    i.operand ≠ .label id := by
  unfold ofLocal at h
  dsimp only at h
  repeat' split at h
  all_goals cases h
  all_goals simp

theorem ofArg_operand {op : Opcode} {n : Int} {i : Instr} (h : ofArg op n = .ok i) (id : Nat) : i.operand ≠ .label id := by
  unfold ofArg at h
  dsimp only at h
  repeat' split at h
  all_goals cases h
  all_goals simp

end ShortForm

theorem Emission.operand_ne_label {s : Site} {e : Emission} {i : Instr} (hl : e.hasLabel = false)
    (h : e.encode s = .ok i) (id : Nat) :
    i.operand ≠ .label id := by
  cases e with
  | plain op =>
    simp only [encode] at h
    split at h
    · cases h
    · obtain ⟨_, -, h⟩ := bind_eq_ok.mp h
      cases h
      simp
  | int op v =>
    simp only [encode] at h
    split at h
    · obtain ⟨_, -, h⟩ := bind_eq_ok.mp h
      cases h
      exact ShortForm.ofInt_operand v id
    · cases h
  | str op t =>
    obtain ⟨_, -, h⟩ := bind_eq_ok.mp h
    cases h
    simp
  | type op t =>
    obtain ⟨_, -, h⟩ := bind_eq_ok.mp h
    cases t with
    | none => cases h
    | some t =>
      cases h
      simp
  | field op f =>
    rw [encodeField_ok h]
    simp
  | method op m =>
    rw [encodeMethod_ok h]
    simp
  | ctor op c =>
    rw [encodeCtor_ok h]
    simp
  | «local» op l =>
    obtain ⟨x, rfl, -, h⟩ := encodeLocal_ok h
    exact ShortForm.ofLocal_operand h id
  | arg op n =>
    obtain ⟨k, rfl, -, h⟩ := encodeArg_ok h
    exact ShortForm.ofArg_operand h id
  | label op l => cases hl

/-! ### Lowering -/

/-- Lowering has gone on: labels there were are marked where they were, and branches still go forward. -/
structure Work.Advances (w w' : Work) : Prop where
  marks : ∀ {id : Nat} {o : Option Nat}, w.draft.marks[id]? = some o → w'.draft.marks[id]? = some o
  forward : w.draft.Forward → w'.draft.Forward

namespace Lower

variable {c : Scope} {w w' : Work}

/-- An instruction is recorded whose label is marked nowhere, or that has none. -/
theorem emit_advances {e : Emission} {u : Unit} (h : emit e c w = .ok (u, w'))
    (hfree : ∀ {i : Instr}, e.encode c.site = .ok i → w.draft.target? i = none) : w.Advances w' := by
  obtain ⟨i, hi, hcode, hmarks⟩ := emit_pushes h
  refine ⟨fun hm => by rw [hmarks]; exact hm, fun hf => ?_⟩
  have hpush : (w.draft.push i).Forward := hf.push (hfree hi)
  refine hpush.marks hcode fun {id n} hm => .inl ?_
  rw [hmarks] at hm
  exact hm

theorem emitLabel_advances {op : Opcode} {l : Label} {u : Unit} (h : emit (.label op (some l)) c w = .ok (u, w'))
    (hl : w.draft.marks[l.id]? = some none) : w.Advances w' := by
  refine emit_advances h fun {i} hi => ?_
  have hi : Emission.encodeLabel c.site op (some l) = .ok i := hi
  obtain ⟨x, hx, rfl⟩ := Emission.encodeLabel_ok hi
  cases hx
  simp only [Draft.target?, hl, Option.join_some]

theorem defineLabel_advances {l : Label} (h : defineLabel c w = .ok (l, w')) :
    w.Advances w' ∧ l.id = w.draft.marks.size ∧ w'.draft.marks[l.id]? = some none := by
  cases hb : c.site.backend with
  | textual =>
    obtain ⟨_, hd, -⟩ := map_eq_ok.mp h
    rw [Draft.defineLabel, hb] at hd
    cases hd
  | dynamic =>
    obtain ⟨rfl, rfl⟩ := defineLabel_ok h
    refine ⟨⟨fun {id o} hm => ?_, fun hf => hf.marks rfl fun {id n} hm => ?_⟩, rfl, by simp⟩
    · have hlt := (Array.getElem?_eq_some_iff.mp hm).1
      show (w.draft.marks.push none)[id]? = some o
      rw [Array.getElem?_push, if_neg (by omega)]
      exact hm
    · have hm : (w.draft.marks.push none)[id]? = some (some n) := hm
      rw [Array.getElem?_push] at hm
      split at hm
      · cases hm
      · exact .inl hm

/-- Marking a label leaves branches forward, and other labels as they are. -/
theorem markLabel_forward {l : Label} {u : Unit} (h : markLabel l c w = .ok (u, w')) :
    (w.draft.Forward → w'.draft.Forward) ∧ ∀ {id : Nat}, id ≠ l.id → w'.draft.marks[id]? = w.draft.marks[id]? := by
  cases hb : c.site.backend with
  | textual =>
    obtain ⟨_, hd, -⟩ := map_eq_ok.mp h
    rw [Draft.mark, hb] at hd
    cases hd
  | dynamic =>
    obtain ⟨-, rfl⟩ := markLabel_ok h
    refine ⟨fun hf => hf.marks rfl fun {id n} hm => ?_, fun {id} hid => ?_⟩
    · have hm : (w.draft.marks.setIfInBounds l.id (some w.draft.code.size))[id]? = some (some n) := hm
      rw [Array.getElem?_setIfInBounds] at hm
      split at hm
      · split at hm
        · cases hm
          exact .inr rfl
        · cases hm
      · exact .inl hm
    · show (w.draft.marks.setIfInBounds l.id _)[id]? = _
      rw [Array.getElem?_setIfInBounds, if_neg (Ne.symm hid)]

end Lower

/-- Advancing is kept from one work to the next. -/
theorem Work.Advances.trans {w w₁ w₂ : Work} (h : w.Advances w₁) (h' : w₁.Advances w₂) : w.Advances w₂ :=
  ⟨fun hm => h'.marks (h.marks hm), fun hf => h'.forward (h.forward hf)⟩

theorem advances_stepwise : Stepwise (@Lower.Keeps Work.Advances) := by
  refine Lower.Keeps.stepwise (fun w => ⟨fun hm => hm, fun hf => hf⟩) Work.Advances.trans (fun name c w w' t h => ?_)
    (fun name t c w w' l h => ?_) fun {e} hl c w w' u h => Lower.emit_advances h fun {i} hi => ?_
  · obtain ⟨s, -, rfl⟩ := Lower.lookupType_ok.mp h
    exact ⟨fun hm => hm, fun hf => hf⟩
  · obtain ⟨-, rfl⟩ := Lower.declareLocal_ok h
    exact ⟨fun hm => hm, fun hf => hf⟩
  · unfold Draft.target?
    split
    · exact absurd ‹_› (Emission.operand_ne_label hl hi _)
    · rfl

namespace Work.Advances

/-- Both labels of a choice are new, and each is marked once all branches to it have been recorded. -/
theorem choice (cond : Expr) {yes no : Lower Unit} (hy : yes.Keeps Work.Advances) (hn : no.Keeps Work.Advances) :
    (Lower.choice cond yes no).Keeps Work.Advances := by
  intro c w w' u h
  simp only [Lower.choice, Lower.bind_ok] at h
  obtain ⟨other, w₁, h1, done, w₂, h2, _, w₃, h3, _, w₄, h4, _, w₅, h5, _, w₆, h6, _, w₇, h7, _, w₈, h8, h9⟩ := h
  obtain ⟨a1, hother, ho1⟩ := Lower.defineLabel_advances h1
  obtain ⟨a2, hdone, hd2⟩ := Lower.defineLabel_advances h2
  have a3 : w₂.Advances w₃ := advances_stepwise.condition cond h3
  have ho3 := a3.marks (a2.marks ho1)
  have a4 := Lower.emitLabel_advances h4 ho3
  have hd5 := (hy h5).marks (a4.marks (a3.marks hd2))
  have a6 := Lower.emitLabel_advances h6 hd5
  obtain ⟨f7, m7⟩ := Lower.markLabel_forward h7
  obtain ⟨f9, m9⟩ := Lower.markLabel_forward h9
  have start : w.Advances w₆ :=
    ((a1.trans a2).trans (a3.trans a4)).trans ((hy h5).trans a6)
  refine ⟨fun {id o} hm => ?_, fun hf => f9 ((hn h8).forward (f7 (start.forward hf)))⟩
  have hlt := (Array.getElem?_eq_some_iff.mp hm).1
  have hlt₁ := (Array.getElem?_eq_some_iff.mp (a1.marks hm)).1
  rw [m9 (by omega)]
  refine (hn h8).marks ?_
  rw [m7 (by omega)]
  exact start.marks hm

mutual

/-- Lowering a statement without loops. -/
theorem stmt : ∀ s : Stmt, s.loops = false → (Lower.stmt s).Keeps Work.Advances
  | .return _, _ | .local .., _ | .assign .., _ | .expr _, _ | .baseCall, _ => advances_stepwise.stmt _ rfl
  | .while cond body, h => by
    rw [Stmt.loops] at h
    cases h
  | .if cond yes no, h => by
    rw [Lower.stmt]
    rw [Stmt.loops, Bool.or_eq_false_iff] at h
    exact choice cond (block yes h.1) (block no h.2)

/-- Lowering statements without loops. -/
theorem block : ∀ ss : List Stmt, Stmt.anyLoops ss = false → (Lower.block ss).Keeps Work.Advances
  | [], _ => by
    rw [Lower.block]
    exact advances_stepwise.pure _
  | s :: rest, h => by
    rw [Lower.block]
    rw [Stmt.anyLoops, Bool.or_eq_false_iff] at h
    exact advances_stepwise.bind (stmt s h.1) fun _ => block rest h.2

end

theorem statements {body : List Stmt} (h : Stmt.anyLoops body = false) : (Lower.statements body).Keeps Work.Advances :=
  advances_stepwise.statements (block body h)

theorem constructor (inits : List (Field × Expr)) {body : List Stmt} (h : Stmt.anyLoops body = false) :
    (Lower.constructor inits body).Keeps Work.Advances := by
  refine advances_stepwise.constructor inits (block body h) fun rest hrest => block rest ?_
  rw [hrest, Stmt.anyLoops, Bool.or_eq_false_iff] at h
  exact h.2

end Work.Advances
end CilCompiler
