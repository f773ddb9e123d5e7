import CilCompiler.Proofs.Machine.Unfinished

/-! Runs that are canceled. All frames of a run share one count of instructions, and a canceled run is stopped in
    front of the 4096th: a step runs one instruction or ends the run (`step_idle`), so no more than 4095 instructions
    are run (`executed_le`). Where control stands in a run, there is an instruction (`Standing.step`), so a run that
    has come so far ends with the cancellation, and with nothing else (`canceled_run_stops`). -/

namespace CilCompiler
namespace Machine

/-- The halt of a canceled run, in a call of a method. -/
def canceledIn (r : Method) : Halt := .fault (.within (Text.join [r.owner.name, "::", r.name]) .canceled)

/-- The instruction that a step runs, unless it ends the run in front of it. -/
def upcoming? (m : Machine) (s : Running) : Option Instr :=
  match s.frames with
  | [] => none
  | f :: _ => if (s.steps + 1) % checkInterval = 0 ∧ m.isCanceled then none else f.body.code[f.pc]?

/-- The instructions that are run in a number of steps, those of all frames in their order. -/
def executed (m : Machine) : (fuel : Nat) → Progress → List Instr
  | fuel + 1, .running s => (m.upcoming? s).toList ++ executed m fuel (m.step s)
  | _, _ => []

variable {m : Machine} {p : Progress} {s s' : Running}

@[simp] theorem executed_of_over (hp : p.isOver = true) (fuel : Nat) : m.executed fuel p = [] := by
  cases p with
  | running s => cases hp
  | done v w => cases fuel <;> rfl
  | halted h w => cases fuel <;> rfl

theorem run_of_over (hp : p.isOver = true) (fuel : Nat) : m.run fuel p = p := by
  cases p with
  | running s => cases hp
  | done v w => exact run_done ..
  | halted h w => exact run_halted ..

/-! ### The count of instructions -/

/-- A step that runs no instruction ends the run. -/
theorem step_idle (h : m.upcoming? s = none) : (m.step s).isOver = true := by
  obtain ⟨frames, w, steps⟩ := s
  cases frames with
  | nil => rfl
  | cons f rest =>
    unfold step
    dsimp only
    split
    · rfl
    · rename_i i hi
      split
      · rfl
      · rename_i hgo
        unfold upcoming? at h
        dsimp only at h
        rw [if_neg hgo, hi] at h
        cases h

theorem deliver_steps {frames : List Frame} {w : World} {steps : Nat} {use : ResultUse} {v : Value}
    (h : deliver frames w steps use v = .running s) : s.steps = steps := by
  cases frames with
  | nil => cases use <;> cases h
  | cons f rest =>
    cases h
    rfl

theorem proceed_steps {frames : List Frame} {steps : Nat} {use : ResultUse} {e : Entered × World}
    (h : proceed frames steps use e = .running s) : s.steps = steps := by
  obtain ⟨e, w⟩ := e
  cases e with
  | value v => exact deliver_steps h
  | frame f =>
    cases h
    rfl
  | halt e => cases h

/-- Whatever a step does, it counts one instruction. -/
theorem step_steps (h : m.step s = .running s') : s'.steps = s.steps + 1 := by
  obtain ⟨frames, w, steps⟩ := s
  cases frames with
  | nil => cases h
  | cons f rest =>
    unfold step at h
    dsimp only at h
    split at h
    · cases h
    split at h
    · cases h
    · split at h
      · cases h
        rfl
      · cases h
        rfl
      · exact proceed_steps h
      · exact deliver_steps h
      · cases h
      · cases h

/-- A canceled run is not gone on with at the end of an interval. -/
theorem steps_lt_of_upcoming (hm : m.isCanceled = true) (h : m.upcoming? s ≠ none) (hs : s.steps < 4096) :
    s.steps < 4095 := by
  refine Nat.lt_of_le_of_ne (Nat.le_of_lt_succ hs) fun hlast => h ?_
  unfold upcoming?
  split
  · rfl
  · rw [if_pos ⟨by rw [hlast]; rfl, hm⟩]

/-- A canceled run has only so many instructions left. -/
theorem executed_le (hm : m.isCanceled = true) (fuel : Nat) (hs : s.steps < 4096) :
    (m.executed fuel (.running s)).length + s.steps ≤ 4095 := by
  induction fuel generalizing s with
  | zero =>
    have : m.executed 0 (.running s) = [] := rfl
    rw [this]
    simp only [List.length_nil]
    omega
  | succ fuel ih =>
    rw [executed, List.length_append]
    cases hi : m.upcoming? s with
    | none =>
      rw [executed_of_over (step_idle hi)]
      simp only [Option.toList_none, List.length_nil]
      omega
    | some i =>
      have := steps_lt_of_upcoming hm (by simp [hi]) hs
      cases hstep : m.step s with
      | running s' =>
        have hcount := step_steps hstep
        have := ih (s := s') (by omega)
        simp only [Option.toList_some, List.length_singleton]
        omega
      | done v w =>
        rw [executed_of_over rfl]
        simp only [Option.toList_some, List.length_singleton, List.length_nil]
        omega
      | halted h w =>
        rw [executed_of_over rfl]
        simp only [Option.toList_some, List.length_singleton, List.length_nil]
        omega

/-- A run that goes on has run an instruction with each step. -/
theorem run_steps (fuel : Nat) (h : m.run fuel (.running s) = .running s') :
    s'.steps = s.steps + fuel ∧ (m.executed fuel (.running s)).length = fuel := by
  induction fuel generalizing s with
  | zero =>
    cases h
    exact ⟨rfl, rfl⟩
  | succ fuel ih =>
    have hrun : m.run fuel (m.step s) = .running s' := h
    rw [executed, List.length_append]
    cases hi : m.upcoming? s with
    | none =>
      rw [run_of_over (step_idle hi)] at hrun
      have hover := step_idle hi
      rw [hrun] at hover
      cases hover
    | some i =>
      cases hstep : m.step s with
      | running s₁ =>
        rw [hstep] at hrun
        obtain ⟨hsteps, hlen⟩ := ih hrun
        have hcount := step_steps hstep
        simp only [Option.toList_some, List.length_singleton]
        omega
      | done v w =>
        rw [hstep, run_done] at hrun
        cases hrun
      | halted e w =>
        rw [hstep, run_halted] at hrun
        cases hrun

/-! ### Where control stands -/

/-- A frame stands at a place of its body that control can come to. -/
def Placed (m : Machine) (f : Frame) : Prop :=
  ∃ x depth, m.routine? f.method = some x ∧ x.body = some f.body ∧ f.body.depth? x.method.ret f.pc = some depth

/-- A run has ended, or it has frames and each of them is placed. -/
def Standing (m : Machine) : Progress → Prop
  | .running s => s.frames ≠ [] ∧ ∀ f ∈ s.frames, m.Placed f
  | .done .. | .halted .. => True

theorem deliver_standing {frames : List Frame} (hf : ∀ f ∈ frames, m.Placed f) (w : World) (steps : Nat) (use : ResultUse)
    (v : Value) : m.Standing (deliver frames w steps use v) := by
  cases frames with
  | nil => cases use <;> trivial
  | cons f rest =>
    refine ⟨List.cons_ne_nil _ _, List.forall_mem_cons.mpr ⟨?_, (List.forall_mem_cons.mp hf).2⟩⟩
    have placed : m.Placed f := (List.forall_mem_cons.mp hf).1
    cases use <;> exact placed

section Built
variable (hm : ∀ {k : Nat} {y : Module}, m.modules[k]? = some y → y.Built k)
include hm

theorem proceed_standing {frames : List Frame} (hf : ∀ f ∈ frames, m.Placed f) (steps : Nat)
    (use : ResultUse) (levels : Nat)
    (r : Method) (args : List Value) (w : World) : m.Standing (proceed frames steps use (m.enter use levels r args w)) := by
  have begins := enter_begins m use levels r args w
  generalize m.enter use levels r args w = entered at begins ⊢
  obtain ⟨e, w'⟩ := entered
  cases e with
  | value v => exact deliver_standing hf ..
  | halt h => trivial
  | frame f =>
    obtain ⟨-, -, hpc, x, hx, hbody⟩ := begins
    refine ⟨List.cons_ne_nil _ _, List.forall_mem_cons.mpr ⟨⟨x, 0, hx, hbody, ?_⟩, hf⟩⟩
    rw [hpc]
    exact (balanced_of_routine hm hx hbody).start

/-- Control stays in the bodies, also where a stack is not what it was verified to be. -/
theorem Standing.step (h : m.Standing (.running s)) : m.Standing (m.step s) := by
  obtain ⟨frames, w, steps⟩ := s
  cases frames with
  | nil => trivial
  | cons f rest =>
    obtain ⟨⟨x, depth, hx, hbody, hd⟩, hrest⟩ := List.forall_mem_cons.mp h.2
    have balanced := balanced_of_routine hm hx hbody
    obtain ⟨i, hi, -⟩ := balanced.instr hd
    simp only [Machine.step, hi]
    split
    · trivial
    have stays := Frame.exec_stays (m := m) (f := f) (w := w) i
    -- Every place that control goes to from the instruction has a depth.
    have placed : ∀ {g : Frame} {n : Nat}, g = { f with stack := g.stack } → Next f.body.code Instr.offset? f.pc n →
        ∀ e ∈ { g with pc := n } :: rest, m.Placed e := by
      intro g n hg hn
      have moved : m.Placed { f with stack := g.stack, pc := n } := ⟨x, _, hx, hbody, balanced.next hd hi hn⟩
      refine List.forall_mem_cons.mpr ⟨?_, hrest⟩
      rw [hg]
      exact moved
    -- It goes on behind the instruction unless it is one that never does.
    have falls : (∀ n, f.exec m w i ≠ (.jump f n, w)) → (∀ c, f.exec m w i ≠ (.fail c, w)) →
        (∀ v, f.exec m w i ≠ (.ret v, w)) → Next f.body.code Instr.offset? f.pc (f.pc + 1) := by
      intro hjump hfail hret
      refine .fall hi (Bool.eq_false_iff.mpr fun hends => ?_)
      rcases terminates_iff.mp hends with hbr | hr
      · rcases exec_br (m := m) (f := f) (w := w) hbr with ⟨n, hn⟩ | ⟨c, hc⟩
        · exact hjump n hn
        · exact hfail c hc
      · exact hret _ (exec_ret hr)
    cases he : f.exec m w i with
    | mk e w' =>
    rw [he] at stays falls
    cases e with
    | next g =>
      have hg : g = { f with stack := g.stack } := stays
      refine ⟨List.cons_ne_nil _ _, placed hg ?_⟩
      rw [hg]
      exact falls (by simp) (by simp) (by simp)
    | jump g n =>
      obtain ⟨hbranch, htarget⟩ := Frame.exec_jump (congrArg Prod.fst he)
      exact ⟨List.cons_ne_nil _ _, placed stays.1 (.branch hi hbranch (by rw [Instr.offset?, htarget]))⟩
    | call g use r args =>
      refine proceed_standing hm (placed stays.1 ?_) ..
      rw [stays.1]
      exact falls (by simp) (by simp) (by simp)
    | ret v => exact deliver_standing hrest ..
    | fail c => trivial
    | missing => trivial

theorem Standing.run (fuel : Nat) (h : m.Standing p) : m.Standing (m.run fuel p) := by
  induction fuel generalizing p with
  | zero => cases p <;> exact h
  | succ fuel ih =>
    cases p with
    | running s => exact ih (h.step hm)
    | done v w => exact h
    | halted e w => exact h

theorem invoke_standing (w : World) (r : Method) (args : List Value) : m.Standing (m.invoke w r args) := by
  unfold invoke
  split
  · trivial
  split
  · trivial
  · exact proceed_standing hm (fun f hf => by cases hf) ..

theorem Beginning.standing (h : m.Beginning p) : m.Standing p := by
  cases h with
  | call use levels r args w => exact proceed_standing hm (fun f hf => by cases hf) ..
  | invoke w r args => exact invoke_standing hm ..
  | construct w t args =>
    unfold Machine.construct
    split
    · trivial
    split
    · trivial
    split
    · trivial
    · exact proceed_standing hm (fun f hf => by cases hf) ..
  | start w =>
    unfold Machine.start
    split
    · trivial
    split
    · trivial
    · exact invoke_standing hm ..

end Built

/-! ### All canceled runs -/

theorem invoke_begun {w : World} {r : Method} {args : List Value} (h : m.invoke w r args = .running s) : s.steps = 0 := by
  unfold invoke at h
  split at h
  · cases h
  split at h
  · cases h
  · exact proceed_steps h

theorem Beginning.begun (hp : m.Beginning p) (h : p = .running s) : s.steps = 0 := by
  cases hp with
  | call use levels r args w => exact proceed_steps h
  | invoke w r args => exact invoke_begun h
  | construct w t args =>
    unfold Machine.construct at h
    split at h
    · cases h
    split at h
    · cases h
    split at h
    · cases h
    · exact proceed_steps h
  | start w =>
    unfold Machine.start at h
    split at h
    · cases h
    split at h
    · cases h
    · exact invoke_begun h

/-- A step at the end of an interval cancels the run and changes nothing. -/
theorem step_canceled (hm : m.isCanceled = true) (hs : s.steps = 4095) {f : Frame} {rest : List Frame}
    (hf : s.frames = f :: rest)
    (hi : ∃ i, f.body.code[f.pc]? = some i) : m.step s = .halted (canceledIn f.method) s.world := by
  obtain ⟨frames, w, steps⟩ := s
  obtain ⟨i, hi⟩ := hi
  cases hs
  cases hf
  unfold step
  dsimp only
  rw [hi]
  dsimp only
  rw [if_pos ⟨rfl, hm⟩]
  rfl

/-- A canceled run stops. However it begins and whatever modules there are, it runs no more than 4095 instructions,
    those of all frames together, and is over after 4096 steps. If nothing else has ended it by then, it has run 4095
    instructions and ends with the cancellation, in the innermost call, and leaves the world as it is. -/
theorem canceled_run_stops (hm : m.isCanceled = true)
    (hbuilt : ∀ {k : Nat} {x : Module}, m.modules[k]? = some x → x.Built k)
    (hp : m.Beginning p) :
    (∀ fuel, (m.executed fuel p).length ≤ 4095) ∧ (m.run 4096 p).isOver = true ∧
      ∀ s, m.run 4095 p = .running s → (m.executed 4095 p).length = 4095 ∧
        ∃ f rest, s.frames = f :: rest ∧ m.run 4096 p = .halted (canceledIn f.method) s.world := by
  have stops : ∀ s, m.run 4095 p = .running s → (m.executed 4095 p).length = 4095 ∧
      ∃ f rest, s.frames = f :: rest ∧ m.run 4096 p = .halted (canceledIn f.method) s.world := by
    intro s hs
    have standing := Standing.run hbuilt 4095 (hp.standing hbuilt)
    rw [hs] at standing
    obtain ⟨hne, hplaced⟩ := standing
    obtain ⟨f, rest, hf⟩ := List.exists_cons_of_ne_nil hne
    obtain ⟨x, depth, hx, hbody, hd⟩ := hplaced f (by simp [hf])
    obtain ⟨i, hi, -⟩ := (balanced_of_routine hbuilt hx hbody).instr hd
    cases p with
    | running s₀ =>
      obtain ⟨hsteps, hlen⟩ := run_steps 4095 hs
      rw [hp.begun rfl] at hsteps
      refine ⟨hlen, f, rest, hf, ?_⟩
      rw [show 4096 = 4095 + 1 from rfl, run_add, hs]
      exact step_canceled hm (by omega) hf ⟨i, hi⟩
    | done v w =>
      rw [run_done] at hs
      cases hs
    | halted e w =>
      rw [run_halted] at hs
      cases hs
  refine ⟨fun fuel => ?_, ?_, stops⟩
  · cases p with
    | running s =>
      have hbegun := hp.begun rfl
      have := executed_le hm fuel (s := s) (by omega)
      omega
    | done v w => simp [executed_of_over (p := .done v w) rfl]
    | halted e w => simp [executed_of_over (p := .halted e w) rfl]
  · rw [show 4096 = 4095 + 1 from rfl, run_add]
    cases hrun : m.run 4095 p with
    | running s =>
      obtain ⟨-, f, rest, -, hlast⟩ := stops s hrun
      rw [← hrun, ← run_add, hlast]
      rfl
    | done v w => rfl
    | halted e w => rfl

/-! A method that calls itself without end. -/

namespace Endless

/-- Calls that define and finish the type of the method, the last one first. -/
def steps : List Caller.Step :=
  [.finish Caller.called, .emit Caller.seven (.plain .ret), .emit Caller.seven (.method .call Caller.seven),
    .method Caller.called "Seven", .type "A"]

/-- The body begins with a call of its own method. -/
def isEndless (b : Body) : Bool := b.code[0]? = some { op := .call, operand := .method Caller.seven }

def machine (mod : Module) : Machine := { modules := #[mod], module := 0, maxDepth := 5000, isCanceled := true }

def begun (mod : Module) : Progress := (machine mod).invoke (.initial 1 []) Caller.seven []

section
variable {b : Body} {x : Routine} (hx : m.routine? Caller.seven = some x) (hnative : x.native = none)
    (himpl : x.impl ≠ .runtime)
  (hbody : x.body = some b) (hb : isEndless b = true)
include hx hnative himpl hbody

theorem enters (use : ResultUse) (levels : Nat) (args : List Value) (w : World) :
    ∃ f w', m.enter use (levels + 1) Caller.seven args w = (.frame f, w') ∧ f.body = b ∧ f.pc = 0 ∧ f.levels = levels := by
  refine ⟨(frameFor w Caller.seven b args levels use).1, (frameFor w Caller.seven b args levels use).2, ?_, rfl, rfl, rfl⟩
  unfold Machine.enter
  simp only [hx, hnative, himpl, hbody, if_false]

include hb

/-- Each call makes another one, as long as there are levels and the run is not canceled. -/
theorem goes_on (n : Nat) {f : Frame} {rest : List Frame} {w : World} {count : Nat} (hf : f.body = b) (hpc : f.pc = 0)
    (hlevels : n ≤ f.levels) (hcount : count + n ≤ 4095) :
    ∃ s, m.run n (.running { frames := f :: rest, world := w, steps := count }) = .running s := by
  induction n generalizing f rest w count with
  | zero => exact ⟨_, rfl⟩
  | succ n ih =>
    obtain ⟨levels, hlevels'⟩ := Nat.exists_eq_add_of_le' hlevels
    obtain ⟨g, w', henter, hg, hgpc, hglevels⟩ := enters hx hnative himpl hbody .push (levels + n) [] w
    have step : m.step { frames := f :: rest, world := w, steps := count } =
        .running { frames := g :: { f with pc := f.pc + 1 } :: rest, world := w', steps := count + 1 } := by
      have hi : f.body.code[f.pc]? = some { op := .call, operand := .method Caller.seven } := by
        rw [hf, hpc]
        exact of_decide_eq_true hb
      have hexec : f.exec m w { op := .call, operand := .method Caller.seven } = (.call f .push Caller.seven [], w) := rfl
      have hgo : ¬((count + 1) % checkInterval = 0 ∧ m.isCanceled = true) := by
        rw [show checkInterval = 4096 from rfl]
        omega
      unfold Machine.step
      simp only [hi, hexec, if_neg hgo]
      rw [hlevels', ← Nat.add_assoc, henter]
      rfl
    rw [Machine.run, step]
    exact ih hg hgpc (by omega) (by omega)

end

end Endless

/-- The method is canceled before its 4096th instruction, in its 4096th call. -/
theorem canceled_run_stops_endless : ∃ mod : Module, mod.Built 0 ∧
    ((Endless.machine mod).executed 4095 (Endless.begun mod)).length = 4095 ∧
    ∃ f w, (Endless.machine mod).run 4096 (Endless.begun mod) = .halted (canceledIn f) w := by
  have made : ((Caller.modules Endless.steps).any fun ms => ms.head?.any fun mod =>
      (mod.def? Caller.called).any TypeDef.isCreated &&
      (mod.routine? Caller.seven).any fun x => decide (x.native = none ∧ x.impl ≠ .runtime) &&
        x.body.any Endless.isEndless) = true := by
    decide +kernel
  obtain ⟨ms, hms, h⟩ := (Option.any_eq_true _ _).mp made
  obtain ⟨mod, hmod, h⟩ := (Option.any_eq_true _ _).mp h
  obtain ⟨hcreated, h⟩ := Bool.and_eq_true_iff.mp h
  obtain ⟨x, hx, h⟩ := (Option.any_eq_true _ _).mp h
  obtain ⟨hmember, h⟩ := Bool.and_eq_true_iff.mp h
  obtain ⟨hnative, himpl⟩ := of_decide_eq_true hmember
  obtain ⟨b, hbody, hb⟩ := (Option.any_eq_true _ _).mp h
  obtain ⟨past, rfl⟩ := List.head?_eq_some_iff.mp hmod
  have built : mod.Built 0 := (Caller.history hms).built
  have only : ∀ {k : Nat} {y : Module}, (Endless.machine mod).modules[k]? = some y → y.Built k := by
    intro k y hy
    obtain ⟨hk, rfl⟩ := Array.getElem?_eq_some_iff.mp hy
    obtain rfl : k = 0 := Nat.lt_one_iff.mp hk
    exact built
  have found : (Endless.machine mod).routine? Caller.seven = some x := hx
  obtain ⟨f, w, henter, hf, hpc, hlevels⟩ := Endless.enters found hnative himpl hbody .push 4999 [] (.initial 1 [])
  have begins : Endless.begun mod = .running { frames := [f], world := w } := by
    have hdef : ((Endless.machine mod).def? Caller.seven.owner).any TypeDef.isCreated = true := hcreated
    unfold Endless.begun Machine.invoke
    rw [hdef, if_neg (by decide), if_neg (by decide), show (Endless.machine mod).maxDepth = 4999 + 1 from rfl, henter]
    rfl
  have goes : ∃ s, (Endless.machine mod).run 4095 (.running { frames := [f], world := w, steps := 0 }) = .running s :=
    Endless.goes_on found hnative himpl hbody hb 4095 hf hpc (by omega) (by omega)
  obtain ⟨s, hs⟩ := goes
  obtain ⟨hlen, g, rest, -, hlast⟩ := (canceled_run_stops rfl only (.invoke _ _ _)).2.2 s (begins ▸ hs)
  exact ⟨mod, built, hlen, g.method, s.world, hlast⟩

end Machine
end CilCompiler
