import CilCompiler.Proofs.Machine.Cells

/-! Instructions that are over. A frame whose instruction makes a call waits below the frames of the call until it
    gets the result, and nothing of it changes meanwhile (`Underway`, `run_underway`). So when it is the innermost
    frame again, its stack has lost and gained as many values as the table of effects says (`completed_effect`). Only
    the call of a static constructor takes fewer: the table counts an object that such a call does not take. -/

namespace CilCompiler

theorem Instr.effect_eq {i : Instr} (hr : i.op ≠ .ret) (ret : Option Ty) : i.effect ret = stackEffect i.op i.operand := by
  unfold Instr.effect
  split
  · exact absurd ‹_› hr
  · rfl

namespace Machine

/-- After `n` steps the instruction of the innermost frame is over: for the first time there are as many frames again.
    A frame that returns leaves fewer. -/
structure Completes (m : Machine) (s : Running) (n : Nat) (s' : Running) : Prop where
  begun : 0 < n
  runs : m.run n (.running s) = .running s'
  back : s'.frames.length = s.frames.length
  first : ∀ {k : Nat} {t : Running}, 0 < k → k < n → m.run k (.running s) = .running t → s.frames.length < t.frames.length

/-- Frames above others, the lowest of which makes the given use of its result. -/
inductive Above (below : List Frame) (use : ResultUse) : List Frame → Prop
  | called {g : Frame} : g.use = use → Above below use (g :: below)
  | deeper {g : Frame} {gs : List Frame} : Above below use gs → Above below use (g :: gs)

/-- Where a run is once it has begun an instruction of `f`, which keeps some of the values on its stack and puts
    `pushes` others on top of them: in a call whose result is still to come, behind the instruction, or halted. -/
inductive Underway (f : Frame) (rest : List Frame) (kept : List Value) (pushes : Nat) : Progress → Prop
  | inside {s : Running} {pc : Nat} {X : List Value} {use : ResultUse} : X.length + use.pushes = pushes →
      Above (f.place pc (X ++ kept) :: rest) use s.frames → Underway f rest kept pushes (.running s)
  | behind {s : Running} {pc : Nat} {X : List Value} : X.length = pushes → s.frames = f.place pc (X ++ kept) :: rest →
      Underway f rest kept pushes (.running s)
  | halted (h : Halt) (w : World) : Underway f rest kept pushes (.halted h w)

variable {m : Machine} {f : Frame} {rest frames below : List Frame} {kept X : List Value} {w : World} {use : ResultUse}
  {pops pushes pc : Nat} {i : Instr} {p : Progress}

/-! ### Frames above -/

theorem Above.length (h : Above below use frames) : below.length < frames.length := by
  induction h with
  | called hu => exact Nat.lt_succ_self _
  | deeper _ ih => exact Nat.lt_succ_of_lt ih

/-- What is done with the results does not depend on the stacks and the places. -/
theorem Above.moved {g g' : Frame} {gs : List Frame} (h : Above below use (g :: gs)) (hg : g'.use = g.use) :
    Above below use (g' :: gs) := by
  cases h with
  | called hu => exact .called (hg.trans hu)
  | deeper hgs => exact .deeper hgs

/-! ### Results -/

/-- The frame itself gets a result. -/
theorem deliver_behind (hX : X.length + use.pushes = pushes) (steps : Nat) (v : Value) :
    Underway f rest kept pushes (deliver (f.place pc (X ++ kept) :: rest) w steps use v) := by
  cases use with
  | drop => exact .behind hX rfl
  | push => exact .behind (X := v :: X) hX rfl
  | object o => exact .behind (X := o :: X) hX rfl

/-- A frame above gets a result. -/
theorem deliver_inside (hX : X.length + use.pushes = pushes)
    (h : Above (f.place pc (X ++ kept) :: rest) use frames) (steps : Nat)
    (use' : ResultUse) (v : Value) : Underway f rest kept pushes (deliver frames w steps use' v) := by
  cases frames with
  | nil => cases h
  | cons g gs =>
    have moved : ∀ s, Above (f.place pc (X ++ kept) :: rest) use ({ g with stack := s } :: gs) := fun s => h.moved rfl
    cases use' with
    | drop => exact .inside hX (moved g.stack)
    | push => exact .inside hX (moved (v :: g.stack))
    | object o => exact .inside hX (moved (o :: g.stack))

/-- A call that begins is underway if its result is awaited and its frame may run. -/
theorem proceed_underway {use' : ResultUse} {steps : Nat}
    (hvalue : ∀ w v, Underway f rest kept pushes (deliver frames w steps use' v))
    (hframe : ∀ g w, g.use = use' → Underway f rest kept pushes (.running { frames := g :: frames, world := w, steps }))
    (levels : Nat)
    (r : Method) (args : List Value) (w : World) :
    Underway f rest kept pushes (proceed frames steps use' (m.enter use' levels r args w)) := by
  have begins := enter_begins m use' levels r args w
  generalize m.enter use' levels r args w = entered at begins
  obtain ⟨e, w'⟩ := entered
  cases e with
  | value v => exact hvalue w' v
  | frame g => exact hframe g w' begins.1
  | halt h => exact .halted h w'

/-! ### Steps -/

/-- The instruction itself: it finds its operands on top of the values that it keeps. -/
theorem step_begins {target : Option Nat} (hi : f.body.code[f.pc]? = some i) (hpops : pops ≤ f.stack.length)
    (acts : Acts { f with stack := f.stack.take pops } pops pushes target fun f => f.exec m w i) (steps : Nat) :
    Underway f rest (f.stack.drop pops) pushes (m.step { frames := f :: rest, world := w, steps }) := by
  rcases m.step_cases f rest w steps with ⟨h, hs⟩ | ⟨j, hj, hs⟩
  · rw [hs]
    exact .halted h w
  · cases hi.symm.trans hj
    rw [hs]
    have split : f = { f with stack := f.stack.take pops ++ f.stack.drop pops } := by rw [List.take_append_drop]
    have hexec : f.exec m w i = _ := (congrArg (·.exec m w i) split).trans (acts.above (f.stack.drop pops))
    have leaves := acts.leaves
    have height : (f.stack.take pops).length - pops + pushes = pushes := by
      rw [List.length_take_of_le hpops, Nat.sub_self, Nat.zero_add]
    rw [hexec]
    rw [height] at leaves
    generalize ({ f with stack := f.stack.take pops } : Frame).exec m w i = out at leaves ⊢
    obtain ⟨e, w'⟩ := out
    -- What the instruction leaves of the frame differs from it in the stack and the place.
    have placed : ∀ {g : Frame} {n : Nat}, g = { f with stack := g.stack } →
        ({ g with stack := g.stack ++ f.stack.drop pops, pc := n } : Frame) = f.place n (g.stack ++ f.stack.drop pops) := by
      intro g n hg
      rw [hg]
      rfl
    cases e with
    | next g =>
      obtain ⟨hg, hX⟩ := leaves
      exact .behind hX (congrArg (· :: rest) (placed hg))
    | jump g n =>
      obtain ⟨hg, hX, -⟩ := leaves
      exact .behind hX (congrArg (· :: rest) (placed hg))
    | call g use r args =>
      obtain ⟨hg, hX⟩ := leaves
      simp only [goOn, Effect.above]
      rw [placed hg]
      exact proceed_underway (fun w v => deliver_behind hX _ v) (fun h w hh => .inside hX (.called hh)) ..
    | ret v => exact leaves.elim
    | fail c => exact .halted _ _
    | missing => exact .halted _ _

/-- An instruction of a frame above. -/
theorem step_inside {s : Running} (hX : X.length + use.pushes = pushes)
    (h : Above (f.place pc (X ++ kept) :: rest) use s.frames) : Underway f rest kept pushes (m.step s) := by
  obtain ⟨frames, w, steps⟩ := s
  cases frames with
  | nil => cases h
  | cons g gs =>
    rcases m.step_cases g gs w steps with ⟨e, hs⟩ | ⟨j, -, hs⟩
    · rw [hs]
      exact .halted e w
    · rw [hs]
      have stays := g.exec_stays (m := m) (w := w) j
      generalize g.exec m w j = out at stays
      obtain ⟨e, w'⟩ := out
      have moved : ∀ {g' : Frame} {n : Nat}, g' = { g with stack := g'.stack } →
          Above (f.place pc (X ++ kept) :: rest) use ({ g' with pc := n } :: gs) := by
        intro g' n hg
        rw [hg]
        exact h.moved rfl
      cases e with
      | next g' => exact .inside hX (moved stays)
      | jump g' n => exact .inside hX (moved stays.1)
      | call g' use' r args =>
        exact proceed_underway (fun w v => deliver_inside hX (moved stays.1) _ _ v)
          (fun k w _ => .inside hX (.deeper (moved stays.1))) ..
      | ret v =>
        cases h with
        | called hu =>
          rw [← hu] at hX
          exact deliver_behind hX _ v
        | deeper hgs => exact deliver_inside hX hgs _ _ v
      | fail c => exact .halted _ _
      | missing => exact .halted _ _

/-! ### Runs -/

/-- The instruction is underway until it is over. -/
theorem run_underway (h : Underway f rest kept pushes p) (n : Nat)
    (hn : ∀ k < n, ∀ t, m.run k p = .running t → rest.length + 1 < t.frames.length) :
      Underway f rest kept pushes (m.run n p) := by
  induction n with
  | zero =>
    have hzero : m.run 0 p = p := by cases p <;> rfl
    rw [hzero]
    exact h
  | succ n ih =>
    have hbefore := ih fun k hk => hn k (Nat.lt_succ_of_lt hk)
    have htall := hn n (Nat.lt_succ_self n)
    rw [run_add]
    generalize m.run n p = q at hbefore htall ⊢
    cases hbefore with
    | @inside t _ _ _ hX habove =>
      have hstep : m.run 1 (.running t) = m.step t := by
        unfold run
        cases m.step t <;> rfl
      rw [hstep]
      exact step_inside hX habove
    | @behind t _ _ _ hframes =>
      have := htall t rfl
      rw [hframes] at this
      exact absurd this (Nat.lt_irrefl _)
    | halted e w =>
      rw [run_halted]
      exact .halted e w

namespace Completes
variable {s s' : Running} {n : Nat}

/-- An instruction that is over has put its values on top of those it kept. -/
theorem leaves {target : Option Nat} (h : m.Completes s n s') (hs : s.frames = f :: rest) (hi : f.body.code[f.pc]? = some i)
    (hpops : pops ≤ f.stack.length)
    (acts : Acts { f with stack := f.stack.take pops } pops pushes target fun f => f.exec m s.world i) :
    ∃ pushed pc, pushed.length = pushes ∧ s'.frames = f.place pc (pushed ++ f.stack.drop pops) :: rest := by
  obtain ⟨frames, w, steps⟩ := s
  cases hs
  obtain ⟨n, rfl⟩ := Nat.exists_eq_succ_of_ne_zero (Nat.ne_of_gt h.begun)
  have hend := run_underway (step_begins hi hpops acts steps) n fun k hk t ht =>
    h.first (Nat.succ_pos k) (Nat.succ_lt_succ hk) ht
  have hruns : m.run n (m.step { frames := f :: rest, world := w, steps }) = .running s' := h.runs
  rw [hruns] at hend
  cases hend with
  | @inside _ _ _ _ _ habove =>
    have := habove.length
    rw [h.back] at this
    exact absurd this (Nat.lt_irrefl _)
  | behind hX hframes => exact ⟨_, _, hX, hframes⟩

/-- A return is never over: it leaves fewer frames. -/
theorem op_ne_ret (h : m.Completes s n s') (hs : s.frames = f :: rest)
    (hi : f.body.code[f.pc]? = some i) : i.op ≠ .ret := by
  intro hr
  obtain ⟨frames, w, steps⟩ := s
  cases hs
  obtain ⟨n, rfl⟩ := Nat.exists_eq_succ_of_ne_zero (Nat.ne_of_gt h.begun)
  have hruns : m.run n (m.step { frames := f :: rest, world := w, steps }) = .running s' := h.runs
  have hstep : (∃ e, m.step { frames := f :: rest, world := w, steps } = .halted e w) ∨
      ∃ v, m.step { frames := f :: rest, world := w, steps } = deliver rest w (steps + 1) f.use v := by
    rcases m.step_cases f rest w steps with hs | ⟨j, hj, hs⟩
    · exact .inl hs
    · cases hi.symm.trans hj
      rw [exec_ret hr] at hs
      exact .inr ⟨_, hs⟩
  rcases hstep with ⟨e, hs⟩ | ⟨v, hs⟩
  · rw [hs, run_halted] at hruns
    cases hruns
  · cases rest with
    | nil =>
      cases hu : f.use <;> rw [hs, hu] at hruns <;> simp [deliver] at hruns
    | cons g gs =>
      cases n with
      | zero =>
        have hback := h.back
        rw [hs] at hruns
        cases hruns
        simp at hback
      | succ n =>
        have hfirst := h.first (k := 1) Nat.one_pos (Nat.succ_lt_succ n.succ_pos) hs
        exact absurd hfirst (Nat.not_lt.mpr (Nat.le_succ _))

end Completes

/-- An instruction that is over has taken as many values off the stack of its frame as the table of effects says and
    put as many on it, and has left the others and the frames below alone. The call of a static constructor takes its
    arguments, and not the object that the table counts as well. -/
theorem completed_effect {s s' : Running} {n : Nat} (h : m.Completes s n s') (hs : s.frames = f :: rest)
    (hi : f.body.code[f.pc]? = some i) (hpops : (stackEffect i.op i.operand).1 ≤ f.stack.length) :
    ((∀ c, i = { op := .call, operand := .ctor c } → c.isStatic = false) →
      ∃ pushed pc, pushed.length = (stackEffect i.op i.operand).2 ∧
        s'.frames = f.place pc (pushed ++ f.stack.drop (stackEffect i.op i.operand).1) :: rest) ∧
      ∀ c, i = { op := .call, operand := .ctor c } → c.isStatic = true →
        stackEffect i.op i.operand = (c.params.length + 1, 0) ∧
          ∃ pc, s'.frames = f.place pc (f.stack.drop c.params.length) :: rest := by
  have hr := h.op_ne_ret hs hi
  constructor
  · intro hctor
    rw [← Instr.effect_eq hr none] at hpops ⊢
    exact h.leaves hs hi hpops (Frame.exec_acts hr hctor (Nat.le_of_eq (List.length_take_of_le hpops).symm))
  · rintro c rfl hstatic
    have hcount : c.argCount = c.params.length := by simp [Method.argCount, hstatic]
    have hle : c.argCount ≤ f.stack.length := hcount ▸ Nat.le_of_succ_le hpops
    have acts : Acts { f with stack := f.stack.take c.argCount } c.argCount 0 none
        fun f => f.exec m s.world { op := .call, operand := .ctor c } :=
      Frame.execCtorCall_acts c (Nat.le_of_eq (List.length_take_of_le hle).symm)
    obtain ⟨pushed, pc, hpushed, hframes⟩ := h.leaves hs hi hle acts
    rw [List.length_eq_zero_iff.mp hpushed, hcount] at hframes
    exact ⟨rfl, pc, hframes⟩

/-! ### Instructions that are over, found by running -/

/-- The number of frames of a run in progress. -/
def height? : Progress → Option Nat
  | .running s => some s.frames.length
  | _ => none

/-- Whether the instruction is over after `n` steps. -/
def isCompleted (m : Machine) (s : Running) (n : Nat) : Bool :=
  height? (m.run n (.running s)) = some s.frames.length &&
    (List.range n).all fun k => k = 0 || (height? (m.run k (.running s))).all (s.frames.length < ·)

theorem Completes.of_isCompleted {s s' : Running} {n : Nat} (h : m.isCompleted s n = true) (hn : 0 < n)
    (hs : m.run n (.running s) = .running s') : m.Completes s n s' := by
  obtain ⟨hback, hfirst⟩ := Bool.and_eq_true_iff.mp h
  rw [hs] at hback
  refine ⟨hn, hs, by simpa [height?] using hback, fun {k t} hk hkn ht => ?_⟩
  have htall := List.all_eq_true.mp hfirst k (List.mem_range.mpr hkn)
  rw [ht] at htall
  simpa [height?, Nat.ne_of_gt hk] using htall

/-- A run in progress with a single frame. -/
def onlyFrame? : Progress → Option (Running × Frame)
  | .running s => match s.frames with
    | [f] => some (s, f)
    | _ => none
  | _ => none

theorem onlyFrame?_eq {s : Running} (h : onlyFrame? p = some (s, f)) : p = .running s ∧ s.frames = [f] := by
  unfold onlyFrame? at h
  repeat' split at h
  all_goals cases h
  exact ⟨rfl, ‹_›⟩

/-- A frame in front of a call of the method that doubles, with one more value on its stack. -/
def Doubling.calling : Frame :=
  { method := method, body := { code := #[{ op := .call, operand := .method method }], locals := #[], maxStack := 2 },
    args := 0,
    argCount := 0, locals := 0, stack := [.int 21, .int 5], levels := 1, use := .push }

/-- The result of the call is in the place of its argument. -/
theorem completed_effect_doubling :
    ∃ s', Doubling.machine.Completes { frames := [Doubling.calling], world := .initial 1 [] } 5 s' ∧
    ∃ pushed pc, pushed.length = 1 ∧ s'.frames = [Doubling.calling.place pc (pushed ++ [.int 5])] := by
  have hover : Doubling.machine.isCompleted { frames := [Doubling.calling], world := .initial 1 [] } 5 = true :=
    by decide +kernel
  have hruns :
      (onlyFrame? (Doubling.machine.run 5 (.running { frames := [Doubling.calling], world := .initial 1 [] }))).isSome =
      true := by decide +kernel
  obtain ⟨⟨s', f'⟩, hs'⟩ := Option.isSome_iff_exists.mp hruns
  have completes := Completes.of_isCompleted hover (by decide) (onlyFrame?_eq hs').1
  obtain ⟨hcalls, -⟩ :=
    completed_effect completes rfl (i := { op := .call, operand := .method Doubling.method }) rfl (by decide)
  exact ⟨s', completes, hcalls fun c hc => by cases hc⟩

/-! A class with a static constructor, and a method that calls it. -/

namespace StaticConstructor

/-- Records instructions, all of which must be accepted. -/
def record (m : Module) (r : Method) (es : List Emission) : Except Fault Module :=
  es.foldlM (fun m e => (m.emit r e).1.map fun _ => (m.emit r e).2) m

/-- The calls on the module, all of which succeed: the module with the constructor and the method. -/
def script : Except Fault (Module × Method × Method) := do
  let m := Module.new 0 .dynamic "M" ""
  let (int, void) := (m.type? TypeName.int32, m.type? TypeName.void)
  let (t, m) ← m.defineType "A" .classes none
  let (c, m) ← m.defineConstructor t .statics [int]
  let m ← record m c [.plain .ret]
  let (r, m) ← m.defineMethod t "Main" .statics void []
  let m ← record m r [.int .ldc 5, .int .ldc 7, .ctor .call c, .plain .ret]
  let _ ← (m.createType t).1
  return ((m.createType t).2, c, r)

def machine (mod : Module) : Machine := { modules := #[mod], module := 0, maxDepth := 8, isCanceled := false }

/-- The run of the method after some steps. -/
def after (mod : Module) (r : Method) (n : Nat) : Progress :=
  (machine mod).run n ((machine mod).invoke (.initial 1 []) r [])

end StaticConstructor

open StaticConstructor in
/-- The call of the static constructor leaves one of the two values that the table says it takes. -/
theorem static_constructor_effect : ∃ mod c r s s' f f', script = .ok (mod, c, r) ∧
    after mod r 2 = .running s ∧ s.frames = [f] ∧
    f.body.code[f.pc]? = some { op := .call, operand := .ctor c } ∧ stackEffect .call (.ctor c) = (2, 0) ∧
      f.stack.length = 2 ∧
    (machine mod).Completes s 2 s' ∧ s'.frames = [f'] ∧ f'.stack.length = 1 := by
  have hscript : script.toOption.any (fun x => (onlyFrame? (after x.1 x.2.2 2)).any fun y =>
      decide (y.2.body.code[y.2.pc]? = some { op := .call, operand := .ctor x.2.1 } ∧
          stackEffect .call (.ctor x.2.1) = (2, 0) ∧
        y.2.stack.length = 2) && (machine x.1).isCompleted y.1 2 &&
      (onlyFrame? ((machine x.1).run 2 (.running y.1))).any fun z => decide (z.2.stack.length = 1)) =
        true := by decide +kernel
  obtain ⟨⟨mod, c, r⟩, hmod, h⟩ := (Option.any_eq_true _ _).mp hscript
  obtain ⟨⟨s, f⟩, hs, h⟩ := (Option.any_eq_true _ _).mp h
  obtain ⟨h, hafter⟩ := Bool.and_eq_true_iff.mp h
  obtain ⟨hat, hover⟩ := Bool.and_eq_true_iff.mp h
  obtain ⟨hi, heffect, htwo⟩ := of_decide_eq_true hat
  obtain ⟨⟨s', f'⟩, hs', hone⟩ := (Option.any_eq_true _ _).mp hafter
  obtain ⟨hrun, hframes⟩ := onlyFrame?_eq hs
  obtain ⟨hrun', hframes'⟩ := onlyFrame?_eq hs'
  have hok : script = .ok (mod, c, r) := by
    cases hx : script with
    | error e =>
      rw [hx] at hmod
      cases hmod
    | ok x =>
      rw [hx] at hmod
      cases hmod
      rfl
  exact ⟨mod, c, r, s, s', f, f', hok, hrun, hframes, hi, heffect, htwo, .of_isCompleted hover (by decide) hrun', hframes',
    of_decide_eq_true hone⟩

end Machine
end CilCompiler
