import Mathlib.Data.List.Forall2
import CilCompiler.Proofs.Machine.Height

/-!
Calls and the levels below them. No instruction looks at how deep calls may go (`Frame.exec_withLevels`), so two runs that
differ only in that, with no fewer levels in the second, go on side by side until the first one has no level left
(`Machine.run_within`).
-/

namespace CilCompiler

/-- The frame with another number of levels below it. -/
def Frame.withLevels (l : Nat) (f : Frame) : Frame := { f with levels := l }

/-- The effect on a frame with another number of levels. -/
def Effect.withLevels (l : Nat) : Effect → Effect
  | .next f => .next (f.withLevels l)
  | .jump f n => .jump (f.withLevels l) n
  | .call f use r args => .call (f.withLevels l) use r args
  | .ret v => .ret v
  | .fail c => .fail c
  | .missing => .missing

/-! ### Instructions -/

namespace Frame

variable {m : Machine} {f : Frame} {w : World} {op : Opcode} {l : Nat}

theorem popN?_withLevels (n : Nat) : (f.withLevels l).popN? n = (f.popN? n).map fun r => (r.1, r.2.withLevels l) := by
  by_cases h : f.stack.length < n <;> simp [popN?, withLevels, h]

theorem loadCell_withLevels (h : Heap) (o : Option Nat) :
    (f.withLevels l).loadCell h o = (f.loadCell h o).withLevels l := by
  cases o <;> rfl

theorem loadCellAddress_withLevels (o : Option Nat) :
    (f.withLevels l).loadCellAddress o = (f.loadCellAddress o).withLevels l := by
  cases o <;> rfl

theorem storeTo_withLevels (a : Address) :
    (f.withLevels l).storeTo w a = ((f.storeTo w a).1.withLevels l, (f.storeTo w a).2) := by
  unfold storeTo
  dsimp only [withLevels]
  split <;> rfl

theorem storeCell_withLevels (o : Option Nat) :
    (f.withLevels l).storeCell w o = ((f.storeCell w o).1.withLevels l, (f.storeCell w o).2) := by
  cases o with
  | none => rfl
  | some c => exact storeTo_withLevels _

theorem execBinary_withLevels (h : Heap) : (f.withLevels l).execBinary h op = (f.execBinary h op).withLevels l := by
  unfold execBinary
  dsimp only [withLevels]
  split
  · split
    · split <;> rfl
    · rfl
  · rfl

theorem execUnary_withLevels (h : Heap) (g : Int32 → Int32) :
    (f.withLevels l).execUnary h op g = (f.execUnary h op g).withLevels l := by
  unfold execUnary
  dsimp only [withLevels]
  split
  · split <;> rfl
  · rfl

theorem execEqual_withLevels (h : Heap) : (f.withLevels l).execEqual h = (f.execEqual h).withLevels l := by
  unfold execEqual
  dsimp only [withLevels]
  split <;> rfl

theorem execConvert_withLevels :
    (f.withLevels l).execConvert m w op = ((f.execConvert m w op).1.withLevels l, (f.execConvert m w op).2) := by
  unfold execConvert
  dsimp only [withLevels]
  split
  · split <;> rfl
  · rfl

theorem execBranch_withLevels (x : Operand) (taken : Value → Bool) :
    (f.withLevels l).execBranch x taken = (f.execBranch x taken).withLevels l := by
  unfold execBranch
  dsimp only [withLevels]
  split
  · split <;> rfl
  · rfl

theorem execDup_withLevels : (f.withLevels l).execDup = f.execDup.withLevels l := by
  unfold execDup
  dsimp only [withLevels]
  split <;> rfl

theorem execPop_withLevels : (f.withLevels l).execPop = f.execPop.withLevels l := by
  unfold execPop
  dsimp only [withLevels]
  split <;> rfl

theorem execCtorCall_withLevels (h : Heap) (c : Method) :
    (f.withLevels l).execCtorCall h c = (f.execCtorCall h c).withLevels l := by
  unfold execCtorCall
  rw [popN?_withLevels]
  cases f.popN? c.argCount with
  | none => rfl
  | some r =>
    obtain ⟨args, g⟩ := r
    cases args with
    | nil => rfl
    | cons self rest =>
      dsimp only [Option.map_some]
      split <;> rfl

theorem execCall_withLevels (h : Heap) (r : Method) :
    (f.withLevels l).execCall m h op r = (f.execCall m h op r).withLevels l := by
  unfold execCall
  rw [popN?_withLevels]
  cases f.popN? r.argCount with
  | none => rfl
  | some p =>
    obtain ⟨args, g⟩ := p
    dsimp only [Option.map_some]
    split
    · rfl
    · cases args with
      | nil => rfl
      | cons self rest =>
        dsimp only
        split <;> rfl

theorem execNew_withLevels (c : Method) :
    (f.withLevels l).execNew m w c = ((f.execNew m w c).1.withLevels l, (f.execNew m w c).2) := by
  unfold execNew
  rw [popN?_withLevels]
  cases f.popN? c.params.length with
  | none => rfl
  | some p =>
    cases m.def? c.owner with
    | none => rfl
    | some d =>
      cases m.routine? c with
      | none => rfl
      | some x =>
        dsimp only [Option.map_some]
        split
        · split <;> rfl
        · rfl

theorem execVirtualPointer_withLevels (h : Heap) (r : Method) :
    (f.withLevels l).execVirtualPointer m h r = (f.execVirtualPointer m h r).withLevels l := by
  unfold execVirtualPointer
  dsimp only [withLevels]
  split
  · split <;> rfl
  · rfl

/-- What looks for a cell does not see the frame, so its failure has none. -/
theorem loadFound_withLevels {h : Heap} {found : Except Effect Nat}
    (hf : ∀ {e : Effect}, found = .error e → e.withLevels l = e)
    (rest : List Value) (byAddress : Bool) :
    (f.withLevels l).loadFound h rest byAddress found = (f.loadFound h rest byAddress found).withLevels l := by
  cases found with
  | ok c => rfl
  | error e => exact (hf rfl).symm

theorem storeFound_withLevels {found : Except Effect Nat} (hf : ∀ {e : Effect}, found = .error e → e.withLevels l = e)
    (rest : List Value) (v : Value) :
    (f.withLevels l).storeFound w rest v found =
      ((f.storeFound w rest v found).1.withLevels l, (f.storeFound w rest v found).2) := by
  cases found with
  | ok c => rfl
  | error e => exact congrArg (·, w) (hf rfl).symm

theorem fieldCell_withLevels {h : Heap} {x : Field} {v : Value} {e : Effect} (he : fieldCell h op x v = .error e) :
    e.withLevels l = e := by
  unfold fieldCell at he
  split at he
  · split at he
    · cases he
      rfl
    · split at he
      · split at he
        · cases he
        · cases he
          rfl
      · cases he
        rfl
  · cases he
    rfl

theorem elementCell_withLevels {h : Heap} {a i : Value} {e : Effect} (he : elementCell h op a i = .error e) :
    e.withLevels l = e := by
  unfold elementCell at he
  split at he
  · split at he
    · split at he
      · cases he
        rfl
      · split at he
        · cases he
        · cases he
          rfl
    · cases he
      rfl
  · cases he
    rfl

theorem execField_withLevels (x : Field) :
    (f.withLevels l).execField w op x = ((f.execField w op x).1.withLevels l, (f.execField w op x).2) := by
  unfold execField
  dsimp only [withLevels]
  split
  · exact congrArg (·, w) (loadFound_withLevels fieldCell_withLevels _ _)
  · exact congrArg (·, w) (loadFound_withLevels fieldCell_withLevels _ _)
  · exact storeFound_withLevels fieldCell_withLevels _ _
  · rfl

theorem execElement_withLevels :
    (f.withLevels l).execElement w op = ((f.execElement w op).1.withLevels l, (f.execElement w op).2) := by
  unfold execElement
  dsimp only [withLevels]
  split
  · exact congrArg (·, w) (loadFound_withLevels elementCell_withLevels _ _)
  · exact congrArg (·, w) (loadFound_withLevels elementCell_withLevels _ _)
  · exact storeFound_withLevels elementCell_withLevels _ _
  · rfl

theorem execNewArray_withLevels (t : Ty) :
    (f.withLevels l).execNewArray w t = ((f.execNewArray w t).1.withLevels l, (f.execNewArray w t).2) := by
  unfold execNewArray
  dsimp only [withLevels]
  split
  · split
    · split <;> rfl
    · rfl
  · rfl

theorem execLength_withLevels (h : Heap) : (f.withLevels l).execLength h = (f.execLength h).withLevels l := by
  unfold execLength
  dsimp only [withLevels]
  split
  · split
    · split <;> rfl
    · rfl
  · rfl

theorem execBox_withLevels (t : Ty) :
    (f.withLevels l).execBox m w t = ((f.execBox m w t).1.withLevels l, (f.execBox m w t).2) := by
  unfold execBox
  dsimp only [withLevels]
  split
  · split
    · split <;> rfl
    · rfl
  · rfl

/-- An instruction in its long form. -/
theorem execLong_withLevels (i : Instr) :
    (f.withLevels l).execLong m w i = ((f.execLong m w i).1.withLevels l, (f.execLong m w i).2) := by
  obtain ⟨op, x⟩ := i
  cases op
  case ldarg | ldloc => exact congrArg (·, w) (loadCell_withLevels _ _)
  case ldarga | ldloca => exact congrArg (·, w) (loadCellAddress_withLevels _)
  case starg | stloc => exact storeCell_withLevels _
  case dup => exact congrArg (·, w) execDup_withLevels
  case pop => exact congrArg (·, w) execPop_withLevels
  case brtrue | brfalse => exact congrArg (·, w) (execBranch_withLevels _ _)
  case ceq => exact congrArg (·, w) (execEqual_withLevels _)
  case neg | not => exact congrArg (·, w) (execUnary_withLevels _ _)
  case convI4 => exact execConvert_withLevels
  case add | sub | mul | div | rem | and | or | xor | cgt | clt => exact congrArg (·, w) (execBinary_withLevels _)
  case ldlen => exact congrArg (·, w) (execLength_withLevels _)
  case ldelem | ldelema | stelem => exact execElement_withLevels
  case call =>
    cases x with
    | method r => exact congrArg (·, w) (execCall_withLevels _ r)
    | ctor c => exact congrArg (·, w) (execCtorCall_withLevels _ c)
    | _ => rfl
  case callvirt =>
    cases x with
    | method r => exact congrArg (·, w) (execCall_withLevels _ r)
    | _ => rfl
  case newobj =>
    cases x with
    | ctor c => exact execNew_withLevels c
    | _ => rfl
  case ldvirtftn =>
    cases x with
    | method r => exact congrArg (·, w) (execVirtualPointer_withLevels _ r)
    | _ => rfl
  case ldfld | ldflda | stfld =>
    cases x with
    | field y => exact execField_withLevels y
    | _ => rfl
  case stsfld =>
    cases x with
    | field y => exact storeTo_withLevels _
    | _ => rfl
  case newarr =>
    cases x with
    | type t => exact execNewArray_withLevels t
    | _ => rfl
  case box =>
    cases x with
    | type t => exact execBox_withLevels t
    | _ => rfl
  case ldstr | br | ldftn | ldsfld | ldsflda => cases x <;> rfl
  -- What is left pushes a constant, leaves the frame or cannot be run.
  all_goals rfl

/-- An instruction does the same whatever the levels are. -/
theorem exec_withLevels (i : Instr) : (f.withLevels l).exec m w i = ((f.exec m w i).1.withLevels l, (f.exec m w i).2) :=
  execLong_withLevels i.expanded

/-- An instruction leaves the levels of its frame. -/
theorem exec_levels (i : Instr) : (f.exec m w i).1.withLevels f.levels = (f.exec m w i).1 :=
  (congrArg Prod.fst (exec_withLevels (l := f.levels) i)).symm

end Frame

/-! ### Calls -/

/-- What a call does while it has a level left. -/
inductive Opening where
  | value (v : Value)
  /-- It runs a body. -/
  | code (b : Body)
  /-- It is of a delegate, which calls its method. -/
  | onward (r : Method) (args : List Value)
  | halt (h : Halt)

namespace Machine

variable {m : Machine} {use : ResultUse} {r : Method} {args : List Value} {w : World} {levels : Nat}

/-- The call of a delegate. -/
def openDelegate (o : Obj) (args : List Value) : Opening :=
  match o.method with
  | none => .halt (.fault (.runtime (.unboundDelegate o.type.name)))
  | some target =>
    if target.isStatic then .onward target args
    else if o.target.isNull then .halt (.fault (.runtime (.delegateWithoutReceiver o.type.name)))
    else .onward target (o.target :: args)

/-- What a call does while it has a level left, and the world behind it. -/
def opening (m : Machine) (r : Method) (args : List Value) (w : World) : Opening × World :=
  match m.routine? r with
  | none => (.halt .missing, w)
  | some x =>
    match x.native with
    | some n =>
      match n.run m.module w args with
      | (.ok v, w) => (.value v, w)
      | (.error h, w) => (.halt h, w)
    | none =>
      if x.impl = .runtime then
        match args with
        | [] => (.halt .missing, w)
        | self :: rest =>
          match w.heap.deref self with
          | .obj id =>
            match w.heap.objects[id]? with
            | none => (.halt .missing, w)
            | some o =>
              if r.name = Method.ctorName then
                match bindDelegate w id rest with
                | (.value v, w) => (.value v, w)
                | (_, w) => (.halt .missing, w)
              else if r.name = Method.invokeName then (openDelegate o rest, w)
              else (.halt (.fault (.runtime (.notRuntimeMember r.owner.name r.name))), w)
          | _ => (.halt (.fault (.runtime (.nullDelegate r.owner.name r.name))), w)
      else
        match x.body with
        | some b => (.code b, w)
        | none =>
          if (m.def? r.owner).any TypeDef.isCreated then
            (.halt (.fault (.runtime (.noImplementation r.owner.name r.name))), w)
          else (.halt (.fault (.backend (.memberNotFinalized r.owner.name r.name))), w)

/-- How a call begins that has opened. -/
def entered (m : Machine) (use : ResultUse) (levels : Nat) (r : Method) (args : List Value) :
    Opening × World → Entered × World
  | (.value v, w) => (.value v, w)
  | (.code b, w) =>
    let (f, w) := frameFor w r b args levels use
    (.frame f, w)
  | (.onward r args, w) => m.enter use levels r args w
  | (.halt h, w) => (.halt h, w)

theorem enter_succ : m.enter use (levels + 1) r args w = m.entered use levels r args (m.opening r args w) := by
  unfold enter opening
  cases m.routine? r with
  | none => rfl
  | some x =>
    dsimp only
    cases x.native with
    | some n =>
      dsimp only
      cases n.run m.module w args with
      | mk result w' => cases result <;> rfl
    | none =>
      dsimp only
      by_cases hi : x.impl = .runtime
      · rw [if_pos hi, if_pos hi]
        cases args with
        | nil => rfl
        | cons self rest =>
          dsimp only
          cases w.heap.deref self with
          | obj id =>
            dsimp only
            cases w.heap.objects[id]? with
            | none => rfl
            | some o =>
              dsimp only
              by_cases hc : r.name = Method.ctorName
              · rw [if_pos hc, if_pos hc]
                unfold bindDelegate
                cases rest with
                | nil => rfl
                | cons target rest => cases rest <;> rfl
              · rw [if_neg hc, if_neg hc]
                by_cases hn : r.name = Method.invokeName
                · rw [if_pos hn, if_pos hn]
                  unfold openDelegate
                  cases o.method with
                  | none => rfl
                  | some target =>
                    dsimp only
                    cases target.isStatic with
                    | true => rfl
                    | false =>
                      cases o.target.isNull <;> rfl
                · rw [if_neg hn, if_neg hn]
                  rfl
          | _ => rfl
      · rw [if_neg hi, if_neg hi]
        cases x.body with
        | some b => rfl
        | none =>
          dsimp only
          cases (m.def? r.owner).any TypeDef.isCreated <;> rfl

end Machine

/-! ### Runs side by side -/

/-- The second frame is the first with no fewer levels below it. -/
def Frame.Within (f g : Frame) : Prop := f.levels ≤ g.levels ∧ g = f.withLevels g.levels

/-- Two calls begin alike, the second with no fewer levels. -/
inductive Entered.Within : Entered → Entered → Prop
  | value {v} : Within (.value v) (.value v)
  | frame {f g} : f.Within g → Within (.frame f) (.frame g)
  | halt {h} : Within (.halt h) (.halt h)

/-- Two runs stand alike, the second with no fewer levels: they have the same world and the same outcome. -/
inductive Progress.Within : Progress → Progress → Prop
  | running {fs gs world steps} : List.Forall₂ Frame.Within fs gs →
      Within (.running { frames := fs, world, steps }) (.running { frames := gs, world, steps })
  | done {v w} : Within (.done v w) (.done v w)
  | halted {h w} : Within (.halted h w) (.halted h w)

/-- No level is left for a call. -/
def Halt.IsTooDeep (h : Halt) : Prop := ∃ limit type name, h = .fault (.runtime (.depthExceeded limit type name))

/-- A run has ended because calls went too deep. -/
def Progress.IsTooDeep (p : Progress) : Prop := ∃ h w, p = .halted h w ∧ h.IsTooDeep

theorem Frame.Within.refl (f : Frame) : f.Within f := ⟨Nat.le_refl _, rfl⟩

theorem Frame.within_list_refl (fs : List Frame) : List.Forall₂ Frame.Within fs fs :=
  List.forall₂_same.mpr fun f _ => .refl f

namespace Machine

variable {m : Machine} {use : ResultUse} {r : Method} {args : List Value} {w : World}

/-- A call with more levels begins like one with fewer, unless those do not suffice. -/
theorem enter_within {levels levels' : Nat} (hl : levels ≤ levels') :
    (∃ h w', m.enter use levels r args w = (.halt h, w') ∧ h.IsTooDeep) ∨
      ∃ e e' w', m.enter use levels r args w = (e, w') ∧ m.enter use levels' r args w = (e', w') ∧ e.Within e' := by
  induction levels generalizing levels' r args w with
  | zero => exact .inl ⟨_, w, rfl, _, _, _, rfl⟩
  | succ levels ih =>
    obtain ⟨levels', rfl⟩ : ∃ k, levels' = k + 1 := ⟨levels' - 1, by omega⟩
    rw [enter_succ, enter_succ]
    -- One level serves to open the call, which does not depend on how many there are.
    obtain ⟨o, w'⟩ := m.opening r args w
    cases o with
    | value v => exact .inr ⟨_, _, _, rfl, rfl, .value⟩
    | code b => exact .inr ⟨_, _, _, rfl, rfl, .frame ⟨Nat.le_of_succ_le_succ hl, rfl⟩⟩
    | onward r args => exact ih (Nat.le_of_succ_le_succ hl)
    | halt h => exact .inr ⟨_, _, _, rfl, rfl, .halt⟩

theorem push_within {f g : Frame} (h : f.Within g) (v : Value) : (f.push v).Within (g.push v) := by
  obtain ⟨hle, he⟩ := h
  rw [he]
  exact ⟨hle, rfl⟩

theorem deliver_within {fs gs : List Frame} (h : List.Forall₂ Frame.Within fs gs) (w : World)
    (steps : Nat) (use : ResultUse)
    (v : Value) : (deliver fs w steps use v).Within (deliver gs w steps use v) := by
  cases h with
  | nil => cases use <;> exact .done
  | cons hf hrest =>
    cases use with
    | push => exact .running (.cons (push_within hf v) hrest)
    | drop => exact .running (.cons hf hrest)
    | object o => exact .running (.cons (push_within hf o) hrest)

theorem proceed_within {fs gs : List Frame} (h : List.Forall₂ Frame.Within fs gs) {steps levels levels' : Nat}
    (hl : levels ≤ levels') :
    (proceed fs steps use (m.enter use levels r args w)).IsTooDeep ∨
      (proceed fs steps use (m.enter use levels r args w)).Within
        (proceed gs steps use (m.enter use levels' r args w)) := by
  rcases enter_within (m := m) (r := r) (w := w) hl with ⟨h, w', he, hdeep⟩ | ⟨e, e', w', he, he', hw⟩
  · rw [he]
    exact .inl ⟨h, w', rfl, hdeep⟩
  · rw [he, he']
    refine .inr ?_
    cases hw with
    | value => exact deliver_within h ..
    | frame hf => exact .running (.cons hf h)
    | halt => exact .halted

/-- One instruction keeps runs side by side. -/
theorem step_within {fs gs : List Frame} (h : List.Forall₂ Frame.Within fs gs) (world : World) (steps : Nat) :
    (m.step { frames := fs, world, steps }).IsTooDeep ∨
      (m.step { frames := fs, world, steps }).Within (m.step { frames := gs, world, steps }) := by
  cases h with
  | nil => exact .inr .done
  | @cons f g fs gs hf hrest =>
    obtain ⟨hle, hg⟩ := hf
    unfold step
    have hcode : g.body.code[g.pc]? = f.body.code[f.pc]? := by rw [hg]; rfl
    have hname : g.method = f.method := by rw [hg]; rfl
    have hpc : g.pc = f.pc := by rw [hg]; rfl
    have huse : g.use = f.use := by rw [hg]; rfl
    dsimp only
    rw [hcode, hname, hpc, huse]
    cases f.body.code[f.pc]? with
    | none => exact .inr .halted
    | some i =>
      dsimp only
      split
      · exact .inr .halted
      · have hexec : g.exec m world i = ((f.exec m world i).1.withLevels g.levels, (f.exec m world i).2) := by
          conv_lhs => rw [hg]
          exact Frame.exec_withLevels i
        have hlevels := Frame.exec_levels (m := m) (w := world) (f := f) i
        rw [hexec]
        generalize f.exec m world i = result at hlevels ⊢
        obtain ⟨e, w⟩ := result
        have placed : ∀ {f' : Frame} (pc : Nat), f'.withLevels f.levels = f' →
            Frame.Within { f' with pc } { f'.withLevels g.levels with pc } := by
          intro f' pc hf'
          refine ⟨?_, rfl⟩
          show f'.levels ≤ g.levels
          rw [← hf']
          exact hle
        cases e with
        | next f' => exact .inr (.running (.cons (placed _ (Effect.next.inj hlevels)) hrest))
        | jump f' n => exact .inr (.running (.cons (placed _ (Effect.jump.inj hlevels).1) hrest))
        | call f' use r args =>
          have hf' := placed (f'.pc + 1) (Effect.call.inj hlevels).1
          exact proceed_within (.cons hf' hrest) hf'.1
        | ret v => exact .inr (deliver_within hrest ..)
        | fail c => exact .inr .halted
        | missing => exact .inr .halted

/-- Runs stay side by side, as long as the first has levels left. -/
theorem run_within {p q : Progress} (h : p.Within q) (n : Nat) :
    (m.run n p).IsTooDeep ∨ (m.run n p).Within (m.run n q) := by
  induction n generalizing p q with
  | zero => exact .inr h
  | succ n ih =>
    cases h with
    | @running fs gs world steps hfs =>
      rcases step_within (m := m) hfs world steps with ⟨h, w, hdeep, hh⟩ | hstep
      · refine .inl ⟨h, w, ?_, hh⟩
        show m.run n (m.step _) = _
        rw [hdeep]
        exact run_halted ..
      · exact ih hstep
    | done => exact .inr .done
    | halted => exact .inr .halted

end Machine
end CilCompiler
