import CilCompiler.Proofs.Machine.Height

/-! Runs that come to an end. An instruction changes nothing of its frame but the stack and the place, and jumps only
    where its operand says (`Frame.exec_stays`); a call that begins has fewer levels below it than the call it is made
    in. Where bodies only jump forward, a frame therefore has its levels and then the instructions in front of it to
    use up: it returns or halts (`Forward.leads`), however deep its calls go. -/

namespace CilCompiler

/-- The arguments of a call have a receiver among them, if the method needs one. -/
def Method.Given (r : Method) (args : List Value) : Prop := r.isStatic = false → args ≠ []

/-- Where an instruction can jump: where the operand of a branch says. -/
def Instr.branchOperand (i : Instr) : Operand := if i.op.isBranch then i.operand else .none

namespace Effect

/-- What an instruction with operand `x` leaves of a frame: all but the stack. A jump is to the operand, and a call has its
    receiver. -/
def Stays (f : Frame) (x : Operand) : Effect → Prop
  | .next g => g = { f with stack := g.stack }
  | .call g _ r args => g = { f with stack := g.stack } ∧ r.Given args
  | .jump g n => g = { f with stack := g.stack } ∧ x = .offset n
  | .ret _ | .fail _ | .missing => True

end Effect

namespace Frame

variable {m : Machine} {f : Frame} {w : World} {x : Operand} {op : Opcode}

theorem stays_of_failure {e : Effect} (h : IsFailure e) : e.Stays f x := by
  rcases h with rfl | ⟨c, rfl, -⟩
  · trivial
  · trivial

theorem popN?_stays {n : Nat} {args : List Value} {g : Frame} (h : f.popN? n = some (args, g)) :
    g = { f with stack := g.stack } := by
  unfold popN? at h
  split at h
  · cases h
  · cases h
    rfl

theorem loadCell_stays (o : Option Nat) : (f.loadCell w.heap o).Stays f x := by
  cases o <;> trivial

theorem loadCellAddress_stays (o : Option Nat) : (f.loadCellAddress o).Stays f x := by
  cases o <;> trivial

theorem storeTo_stays (a : Address) : (f.storeTo w a).1.Stays f x := by
  unfold storeTo
  split <;> trivial

theorem storeCell_stays (o : Option Nat) : (f.storeCell w o).1.Stays f x := by
  cases o with
  | none => trivial
  | some c => exact storeTo_stays _

theorem execBranch_stays (taken : Value → Bool) : (f.execBranch x taken).Stays f x := by
  unfold execBranch
  split
  · split
    · exact ⟨rfl, rfl⟩
    · rfl
  · trivial

theorem execDup_stays : f.execDup.Stays f x := by
  unfold execDup
  split <;> trivial

theorem execPop_stays : f.execPop.Stays f x := by
  unfold execPop
  split <;> trivial

theorem execEqual_stays : (f.execEqual w.heap).Stays f x := by
  unfold execEqual
  split <;> trivial

theorem execBinary_stays : (f.execBinary w.heap op).Stays f x := by
  unfold execBinary
  split
  · split
    · split <;> trivial
    · trivial
  · trivial

theorem execUnary_stays (g : Int32 → Int32) : (f.execUnary w.heap op g).Stays f x := by
  unfold execUnary
  split
  · split <;> trivial
  · trivial

theorem execConvert_stays : (f.execConvert m w op).1.Stays f x := by
  unfold execConvert
  split
  · split <;> trivial
  · trivial

theorem execCall_stays (r : Method) : (f.execCall m w.heap op r).Stays f x := by
  unfold execCall
  split
  · trivial
  · rename_i args g hpop
    have hg := popN?_stays hpop
    dsimp only
    split
    · rename_i hst
      exact ⟨hg, fun hinst => by rw [hst] at hinst; cases hinst⟩
    · split
      · trivial
      · split
        · trivial
        · exact ⟨hg, fun _ => List.cons_ne_nil _ _⟩

theorem execCtorCall_stays (c : Method) : (f.execCtorCall w.heap c).Stays f x := by
  unfold execCtorCall
  split
  · rename_i hpop
    split
    · trivial
    · exact ⟨popN?_stays hpop, fun _ => List.cons_ne_nil _ _⟩
  · trivial

theorem execNew_stays (c : Method) : (f.execNew m w c).1.Stays f x := by
  unfold execNew
  split
  · rename_i args g d y hpop _ _
    have hg := popN?_stays hpop
    split
    · split
      · show (g.push _) = _
        rw [hg]
        rfl
      · trivial
    · exact ⟨hg, fun _ => List.cons_ne_nil _ _⟩
  · trivial

theorem execVirtualPointer_stays (r : Method) : (f.execVirtualPointer m w.heap r).Stays f x := by
  unfold execVirtualPointer
  split
  · split <;> trivial
  · trivial

section Found
variable {found : Except Effect Nat} (hf : ∀ {e : Effect}, found = .error e → IsFailure e)
include hf

theorem loadFound_stays (rest : List Value) (byAddress : Bool) : (f.loadFound w.heap rest byAddress found).Stays f x := by
  cases found with
  | ok c => rfl
  | error e => exact stays_of_failure (hf rfl)

theorem storeFound_stays (rest : List Value) (v : Value) : (f.storeFound w rest v found).1.Stays f x := by
  cases found with
  | ok c => rfl
  | error e => exact stays_of_failure (hf rfl)

end Found

theorem execField_stays (y : Field) : (f.execField w op y).1.Stays f x := by
  unfold execField
  split
  · exact loadFound_stays fieldCell_error ..
  · exact loadFound_stays fieldCell_error ..
  · exact storeFound_stays fieldCell_error ..
  · trivial

theorem execElement_stays : (f.execElement w op).1.Stays f x := by
  unfold execElement
  split
  · exact loadFound_stays elementCell_error ..
  · exact loadFound_stays elementCell_error ..
  · exact storeFound_stays elementCell_error ..
  · trivial

theorem execNewArray_stays (t : Ty) : (f.execNewArray w t).1.Stays f x := by
  unfold execNewArray
  split
  · split
    · split <;> trivial
    · trivial
  · trivial

theorem execLength_stays : (f.execLength w.heap).Stays f x := by
  unfold execLength
  split
  · split
    · split <;> trivial
    · trivial
  · trivial

theorem execBox_stays (t : Ty) : (f.execBox m w t).1.Stays f x := by
  unfold execBox
  split
  · split
    · split <;> trivial
    · rfl
  · trivial

/-- An instruction in its long form. -/
theorem execLong_stays (i : Instr) : (f.execLong m w i).1.Stays f i.branchOperand := by
  obtain ⟨op, x⟩ := i
  cases op
  case nop | ldnull | ldc => rfl
  case ret => trivial
  case ldarg | ldloc => exact loadCell_stays _
  case ldarga | ldloca => exact loadCellAddress_stays _
  case starg | stloc => exact storeCell_stays _
  case dup => exact execDup_stays
  case pop => exact execPop_stays
  case brtrue | brfalse => exact execBranch_stays _
  case ceq => exact execEqual_stays
  case neg | not => exact execUnary_stays _
  case convI4 => exact execConvert_stays
  case add | sub | mul | div | rem | and | or | xor | cgt | clt =>
    dsimp only [execLong]
    exact execBinary_stays
  case ldlen => exact execLength_stays
  case ldelem | ldelema | stelem => exact execElement_stays
  case br =>
    cases x with
    | offset n => exact ⟨rfl, rfl⟩
    | _ => trivial
  case ldstr =>
    cases x with
    | str s => rfl
    | _ => trivial
  case call =>
    cases x with
    | method r => exact execCall_stays r
    | ctor c => exact execCtorCall_stays c
    | _ => trivial
  case callvirt =>
    cases x with
    | method r => exact execCall_stays r
    | _ => trivial
  case newobj =>
    cases x with
    | ctor c => exact execNew_stays c
    | _ => trivial
  case ldftn =>
    cases x with
    | method r => rfl
    | _ => trivial
  case ldvirtftn =>
    cases x with
    | method r => exact execVirtualPointer_stays r
    | _ => trivial
  case ldfld | ldflda | stfld =>
    cases x with
    | field y => exact execField_stays y
    | _ => trivial
  case ldsfld | ldsflda =>
    cases x with
    | field y => rfl
    | _ => trivial
  case stsfld =>
    cases x with
    | field y => exact storeTo_stays _
    | _ => trivial
  case newarr =>
    cases x with
    | type t => exact execNewArray_stays t
    | _ => trivial
  case box =>
    cases x with
    | type t => exact execBox_stays t
    | _ => trivial
  -- What is left are the short forms, which are run as long ones, and numbers without an instruction.
  all_goals trivial

theorem branchOperand_of_expanded {i : Instr} {n : Nat} (h : i.expanded.branchOperand = .offset n) :
    i.op.isBranch = true ∧ i.operand = .offset n := by
  obtain ⟨op, x⟩ := i
  cases op <;> first | exact ⟨rfl, h⟩ | exact nomatch h

/-- Only branches jump, to where their operand says. -/
theorem exec_jump {i : Instr} {g : Frame} {n : Nat} (h : (f.exec m w i).1 = .jump g n) :
    i.op.isBranch = true ∧ i.operand = .offset n := by
  have stays : (f.exec m w i).1.Stays f i.expanded.branchOperand := execLong_stays i.expanded
  rw [h] at stays
  exact branchOperand_of_expanded stays.2

theorem exec_stays (i : Instr) : (f.exec m w i).1.Stays f i.operand := by
  have h : (f.exec m w i).1.Stays f i.expanded.branchOperand := execLong_stays i.expanded
  cases he : (f.exec m w i).1 with
  | jump g n =>
    rw [he] at h
    exact ⟨h.1, (exec_jump he).2⟩
  | next g | call g use r args =>
    rw [he] at h
    exact h
  | ret v | fail c | missing => trivial

end Frame

/-- Every jump of a body is to a place behind it. -/
def Body.Forward (b : Body) : Prop := ∀ ⦃pc n : Nat⦄ ⦃i : Instr⦄, b.code[pc]? = some i → i.offset? = some n → pc < n

/-- Whether a run has ended. -/
def Progress.isOver : Progress → Bool
  | .running _ => false
  | .done .. | .halted .. => true

namespace Machine

/-- Code that the machine runs jumps forward only. -/
def Forward (m : Machine) : Prop :=
  ∀ ⦃r : Method⦄ ⦃x : Routine⦄ ⦃b : Body⦄, m.routine? r = some x → x.impl ≠ .runtime → x.body = some b → b.Forward

variable {m : Machine}

/-- A call that runs code has fewer levels below it than it was given. -/
theorem enter_frame {use : ResultUse} {levels : Nat} {r : Method} {args : List Value} {w w' : World} {f : Frame}
    (hm : m.Forward) (h : m.enter use levels r args w = (.frame f, w')) : f.levels < levels ∧ f.body.Forward := by
  induction levels generalizing r args with
  | zero => cases h
  | succ levels ih =>
    unfold enter at h
    split at h
    · cases h
    rename_i x hx
    split at h
    · split at h <;> cases h
    split at h
    · split at h
      · cases h
      split at h
      · split at h
        · cases h
        split at h
        · unfold bindDelegate at h
          split at h <;> cases h
        split at h
        · split at h
          · cases h
          split at h
          · exact ⟨Nat.lt_succ_of_lt (ih h).1, (ih h).2⟩
          split at h
          · cases h
          · exact ⟨Nat.lt_succ_of_lt (ih h).1, (ih h).2⟩
        · cases h
      · cases h
    · rename_i hrecorded
      split at h
      · rename_i b hb
        cases h
        exact ⟨Nat.lt_succ_self _, hm hx hrecorded hb⟩
      · split at h <;> cases h

/-- A run ends, or gives a value to the frames. -/
def Leads (m : Machine) (frames : List Frame) (p : Progress) : Prop :=
  ∃ n, (m.run n p).isOver = true ∨ ∃ w steps use v, m.run n p = deliver frames w steps use v

namespace Leads

variable {frames : List Frame} {p : Progress} {s : Running}

theorem of_run {n : Nat} (h : m.Leads frames (m.run n p)) : m.Leads frames p := by
  obtain ⟨k, h⟩ := h
  exact ⟨n + k, by rwa [run_add]⟩

theorem of_step (h : m.Leads frames (m.step s)) : m.Leads frames (.running s) := of_run (n := 1) h

theorem of_over (h : p.isOver = true) : m.Leads frames p := ⟨0, .inl h⟩

theorem of_deliver (w : World) (steps : Nat) (use : ResultUse) (v : Value) :
    m.Leads frames (deliver frames w steps use v) :=
  ⟨0, .inr ⟨w, steps, use, v, rfl⟩⟩

/-- Where a value is given to frames, the run goes on from there. -/
theorem trans {frames' : List Frame} (h : m.Leads frames p)
    (h' : ∀ w steps use v, m.Leads frames' (deliver frames w steps use v)) : m.Leads frames' p := by
  obtain ⟨n, hover | ⟨w, steps, use, v, hn⟩⟩ := h
  · exact of_run (of_over hover)
  · refine of_run (n := n) ?_
    rw [hn]
    exact h' w steps use v

end Leads

/-- A frame comes to its end. The induction is on the levels below it, and then on the instructions in front of it. -/
theorem Forward.leads (hm : m.Forward) (levels left : Nat) : ∀ {f : Frame}, f.body.Forward → f.levels = levels →
    f.body.code.size - f.pc = left → ∀ rest w steps,
      m.Leads rest (.running { frames := f :: rest, world := w, steps }) := by
  induction levels using Nat.strongRecOn generalizing left with
  | ind levels deeper =>
    induction left using Nat.strongRecOn with
    | ind left further =>
      intro f hf hlevels hleft rest w steps
      refine .of_step ?_
      unfold step
      dsimp only
      split
      · exact .of_over rfl
      rename_i i hi
      have hpc := (Array.getElem?_eq_some_iff.mp hi).1
      split
      · exact .of_over rfl
      -- The frame at a later place, with any values on its stack.
      have later : ∀ {g : Frame} {pc : Nat}, g = { f with stack := g.stack } → f.pc < pc → ∀ w steps,
          m.Leads rest (.running { frames := { g with pc } :: rest, world := w, steps }) := by
        intro g pc hg hlt w steps
        rw [hg]
        exact further (f.body.code.size - pc) (by omega) (f := { f with stack := g.stack, pc }) hf hlevels rfl rest w steps
      have stays := Frame.exec_stays (m := m) (f := f) (w := w) i
      cases he : f.exec m w i with
      | mk e w' =>
      rw [he] at stays
      cases e with
      | next g =>
        have hg : g = { f with stack := g.stack } := stays
        exact later hg (by rw [hg]; exact Nat.lt_succ_self _) w' _
      | jump g n => exact later stays.1 (hf hi (by rw [Instr.offset?, stays.2])) w' _
      | ret v => exact .of_deliver ..
      | fail c => exact .of_over rfl
      | missing => exact .of_over rfl
      | call g use r args =>
        have hg : g = { f with stack := g.stack } := stays.1
        have hlt : f.pc < g.pc + 1 := by rw [hg]; exact Nat.lt_succ_self _
        have returned : ∀ w steps use v, m.Leads rest (deliver ({ g with pc := g.pc + 1 } :: rest) w steps use v) := by
          intro w steps use v
          cases use with
          | push => exact later (g := g.push v) (by rw [hg]; rfl) hlt w steps
          | drop => exact later hg hlt w steps
          | object o => exact later (g := g.push o) (by rw [hg]; rfl) hlt w steps
        dsimp only
        cases hcall : m.enter use g.levels r args w' with
        | mk called w'' =>
        cases called with
        | value v => exact returned ..
        | halt h => exact .of_over rfl
        | frame h =>
          obtain ⟨hfewer, hforward⟩ := enter_frame hm hcall
          have hglevels : g.levels = levels := by rw [hg]; exact hlevels
          exact (deeper h.levels (by omega) _ hforward rfl rfl _ w'' _).trans returned

end Machine
end CilCompiler
