import CilCompiler.Proofs.Machine.Canceled
import CilCompiler.Proofs.Typed.Objects

/-! Runs of typed code. Between two instructions the heap is typed, the innermost frame stands at a place of its code
    with values on the stack as its type says, and the frames below wait for a value that their types say is added
    (`Platform.Goes`). A step keeps this or fails (`Platform.Stands.step`), whether the run has been canceled by then
    or not, and so does a run of any length (`Platform.run_goes`). Where the platform is plain, a step fails as
    expected, and in front of each instruction all that it looks for is there (`Frame.Finds`). -/

namespace CilCompiler

/-! ### Cancellation -/

namespace Machine
variable {m : Machine}

/-- The machine when the run has been canceled, or not. -/
def under (m : Machine) (canceled : Bool) : Machine := { m with isCanceled := canceled }

/-- Runs at most `fuel` instructions. `canceled` says whether the run has been canceled when a number of instructions
    have been begun. -/
def runUnder (m : Machine) (canceled : Nat → Bool) : (fuel : Nat) → Progress → Progress
  | fuel + 1, .running s => runUnder m canceled fuel ((m.under (canceled s.steps)).step s)
  | _, p => p

theorem runUnder_const (fuel : Nat) (p : Progress) : m.runUnder (fun _ => m.isCanceled) fuel p = m.run fuel p := by
  induction fuel generalizing p with
  | zero => cases p <;> rfl
  | succ fuel ih =>
    cases p with
    | running s => exact ih (m.step s)
    | done v w => rfl
    | halted h w => rfl

theorem runUnder_add (canceled : Nat → Bool) (n k : Nat) (p : Progress) :
    m.runUnder canceled (n + k) p = m.runUnder canceled k (m.runUnder canceled n p) := by
  induction n generalizing p with
  | zero =>
    rw [Nat.zero_add]
    cases p <;> rfl
  | succ n ih =>
    rw [Nat.add_right_comm]
    cases p with
    | running s => exact ih _
    | done v w => cases k <;> rfl
    | halted h w => cases k <;> rfl

theorem exec_under (b : Bool) (w : World) (f : Frame) (i : Instr) : f.exec (m.under b) w i = f.exec m w i := rfl

theorem enter_under (b : Bool) (use : ResultUse) (levels : Nat) (r : Method) (args : List Value) (w : World) :
    (m.under b).enter use levels r args w = m.enter use levels r args w := by
  induction levels generalizing r args w with
  | zero => rfl
  | succ levels ih =>
    rw [enter_succ, enter_succ]
    have hopen : (m.under b).opening r args w = m.opening r args w := rfl
    rw [hopen]
    generalize m.opening r args w = o
    obtain ⟨o, w'⟩ := o
    cases o with
    | onward q args' => exact ih q args' w'
    | value v => rfl
    | code c => rfl
    | halt h => rfl

/-- A step stops a run that has been canceled at the end of an interval, and goes on as the instruction says otherwise. -/
theorem step_under {f : Frame} {rest : List Frame} {w : World} {steps : Nat} {i : Instr} (hi : f.body.code[f.pc]? = some i)
    (b : Bool) : (m.under b).step { frames := f :: rest, world := w, steps } =
      if (steps + 1) % checkInterval = 0 ∧ b = true then .halted (canceledIn f.method) w
      else m.goOn f rest (steps + 1) (f.exec m w i) := by
  have hflag : (m.under b).isCanceled = b := rfl
  simp only [step, hi, hflag]
  by_cases hstop : (steps + 1) % checkInterval = 0 ∧ b = true
  · rw [if_pos hstop, if_pos hstop]
    rfl
  · rw [if_neg hstop, if_neg hstop, exec_under]
    generalize f.exec m w i = out
    obtain ⟨e, w'⟩ := out
    cases e with
    | call g use r args => simp only [goOn, enter_under]
    | _ => rfl

end Machine

/-! ### Places of typed code -/

/-- A fault of a step is expected at an instruction of a frame; when it is about null, the operand that it is about is
    null. -/
def Halt.ExpectedAt (h : Halt) (f : Frame) (i : Instr) : Prop :=
  ∃ x, h = .fault x ∧ x.isExpected = true ∧ (x.code? = some .nullReference → f.stack[x.operand i]? = some .null)

namespace Platform
variable {P : Platform} {ts ts' : List Text} {h h' : Heap} {Γ : Setting} {f : Frame} {A : List Slot} {use : ResultUse}
    {ret ret' : Option Ty}

/-- A frame stands at an instruction of typed code, with values on its stack that want slots `A` added. A method is
    taken only from an object that is there twice. -/
structure Stands (P : Platform) (ts : List Text) (h : Heap) (A : List Slot) (f : Frame) (Γ : Setting) (d : Draft)
    (layout : List (List Slot)) (S : List Slot) : Prop where
  lives : P.Lives ts f Γ d
  certified : Γ.Certified d layout
  inside : f.pc < d.code.size
  slots : layout[f.pc]? = some (A ++ S)
  stack : P.Stacked ts h S f.stack
  twice : ∀ {i : Instr}, d.code[f.pc]? = some i → i.op = .ldvirtftn → A = [] ∧ ∃ v rest, f.stack = v :: v :: rest

/-- Frames wait for the result of a call. -/
def Waits (P : Platform) (ts : List Text) (h : Heap) : ResultUse → Option Ty → List Frame → Prop
  | _, _, [] => True
  | use, ret, f :: rest => ∃ A Γ d layout S, Adds h ret use A ∧ P.Stands ts h A f Γ d layout S ∧
      Waits P ts h f.use (some Γ.scope.ret) rest

/-- The innermost frame stands at an instruction, and the others wait for its result. -/
def Framed (P : Platform) (ts : List Text) (h : Heap) : List Frame → Prop
  | [] => False
  | f :: rest => ∃ Γ d layout S, P.Stands ts h [] f Γ d layout S ∧ P.Waits ts h f.use (some Γ.scope.ret) rest

/-- A run that has come to no fault. -/
def Goes (P : Platform) : Progress → Prop
  | .running s => ∃ ts, P.Typed ts s.world.heap ∧ P.Framed ts s.world.heap s.frames
  | .done _ w => ∃ ts, P.Typed ts w.heap
  | .halted _ _ => False

theorem Lives.later {d : Draft} (hf : P.Lives ts f Γ d) (hts : ts <+: ts') : P.Lives ts' f Γ d :=
  ⟨hf.runs, fun ht => ⟨(hf.arg ht).1, cell_kept hts (hf.arg ht).2⟩, fun ht => cell_kept hts (hf.local ht)⟩

theorem Adds.later (ha : Adds h ret use A) (hk : h.Keeps h') : Adds h' ret use A := by
  cases ha with
  | push hr hn => exact .push hr hn
  | drop => exact .drop
  | object hn hv => exact .object hn (hk.belongs hv)

theorem Adds.same (ha : Adds h ret use A) (hr : Ty.same ret' ret = true) : Adds h ret' use A := by
  cases ha with
  | push hr' hn => exact .push (Ty.same_iff.mpr ((Ty.same_iff.mp hr).trans (Ty.same_iff.mp hr'))) hn
  | drop => exact .drop
  | object hn hv => exact .object hn hv

theorem Stands.later {d : Draft} {layout : List (List Slot)} {S : List Slot} (hf : P.Stands ts h A f Γ d layout S)
    (hts : ts <+: ts')
    (hk : h.Keeps h') : P.Stands ts' h' A f Γ d layout S :=
  ⟨hf.lives.later hts, hf.certified, hf.inside, hf.slots, hf.stack.later hts hk, hf.twice⟩

theorem Waits.later {frames : List Frame} (hw : P.Waits ts h use ret frames) (hts : ts <+: ts') (hk : h.Keeps h') :
    P.Waits ts' h' use ret frames := by
  induction frames generalizing use ret with
  | nil => trivial
  | cons f rest ih =>
    obtain ⟨A, Γ, d, layout, S, ha, hf, hw⟩ := hw
    exact ⟨A, Γ, d, layout, S, ha.later hk, hf.later hts hk, ih hw⟩

theorem Waits.same {frames : List Frame} (hw : P.Waits ts h use ret frames) (hr : Ty.same ret' ret = true) :
    P.Waits ts h use ret' frames := by
  cases frames with
  | nil => trivial
  | cons f rest =>
    obtain ⟨A, Γ, d, layout, S, ha, hf⟩ := hw
    exact ⟨A, Γ, d, layout, S, ha.same hr, hf⟩

/-! ### Results -/

section Steps
variable {w : World} {frames rest : List Frame} {steps : Nat} {r : Method} {args : List Value} {v : Value} {i : Instr}

/-- What is added to a stack is on top of it. -/
theorem Stands.added {d : Draft} {layout : List (List Slot)} {S : List Slot}
    (hf : P.Stands ts h A f Γ d layout S) {vs : List Value}
    (hvs : P.Stacked ts h (A ++ S) vs) (hA : A = [] → vs = f.stack) :
      P.Stands ts h [] { f with stack := vs } Γ d layout (A ++ S) :=
  ⟨⟨hf.lives.runs, hf.lives.arg, hf.lives.local⟩, hf.certified, hf.inside, hf.slots, hvs, fun hi hop => by
    obtain ⟨hnil, htwice⟩ := hf.twice hi hop
    exact ⟨rfl, (hA hnil).symm ▸ htwice⟩⟩

/-- A result is given to the frame that waits for it. -/
theorem deliver_goes (ht : P.Typed ts w.heap) (hw : P.Waits ts w.heap use ret frames)
    (hv : w.heap.Returns ret v) (steps : Nat) :
    P.Goes (Machine.deliver frames w steps use v) := by
  cases frames with
  | nil => cases use <;> exact ⟨ts, ht⟩
  | cons f rest =>
    obtain ⟨A, Γ, d, layout, S, ha, hf, hw⟩ := hw
    cases ha with
    | @push t hr hn =>
      obtain ⟨u, rfl, hu⟩ := Setting.same_name (Ty.same_iff.mpr (Ty.same_iff.mp hr))
      have hvoid : u.isVoid = false := by rwa [Ty.isVoid, hu]
      have hvalue : P.Fits ts w.heap (.value (some t)) v := .value hn (Ty.key_of_name hu ▸ hv u rfl hvoid)
      exact ⟨ts, ht, Γ, d, layout, _, hf.added (.cons hvalue hf.stack) fun he => (List.cons_ne_nil _ _ he).elim, hw⟩
    | drop => exact ⟨ts, ht, Γ, d, layout, _, hf.added hf.stack fun _ => rfl, hw⟩
    | @object o t hn ho =>
      have hvalue : P.Fits ts w.heap (.value (some t)) o := .value hn ho
      exact ⟨ts, ht, Γ, d, layout, _, hf.added (.cons hvalue hf.stack) fun he => (List.cons_ne_nil _ _ he).elim, hw⟩

/-- A step that has failed at an instruction. The fault is expected where the platform is plain, and elsewhere the
    heap that is left is typed. -/
structure Stopped (P : Platform) (f : Frame) (i : Instr) (e : Halt) (w : World) : Prop where
  fault : ∃ x, e = .fault x
  expected : P.plain → e.ExpectedAt f i
  typed : ¬P.plain → ∃ ts, P.Typed ts w.heap

/-- What is so after a step: the run goes on, or it has failed at the instruction. -/
def Steps (P : Platform) (f : Frame) (i : Instr) : Progress → Prop
  | .halted e w => P.Stopped f i e w
  | p => P.Goes p

theorem Steps.of_goes {p : Progress} (hp : P.Goes p) : P.Steps f i p := by
  cases p with
  | halted e w => exact hp.elim
  | _ => exact hp

/-! ### Steps -/

/-- A frame begins in front of the first instruction of its code. -/
theorem Lives.stands {d : Draft} (hf : P.Lives ts f Γ d) (hpc : f.pc = 0) (hs : f.stack = []) :
    ∃ layout, P.Stands ts h [] f Γ d layout [] := by
  obtain ⟨layout, hc, -⟩ := hf.runs.complete.typed
  obtain ⟨code, hlast⟩ := hf.runs.complete.last
  refine ⟨layout, hf, hc, ?_, hpc ▸ hc.start, hs ▸ .any, fun hi hop => ?_⟩
  · rw [hpc, hlast, Array.size_push]
    omega
  · rw [hpc] at hi
    obtain ⟨k, _, hk, -⟩ := hf.runs.doubles hi hop
    omega

/-- A call whose result frames wait for fails, or the run goes on. -/
theorem enters_goes {e : Entered × World} (he : P.Enters ts h use ret args e)
    (waits : ∀ {ts' : List Text}, (∀ x, e.1 ≠ .halt x) → P.Later ts h ts' e.2.heap →
      P.Waits ts' e.2.heap use ret frames) (steps : Nat) :
    (∃ x w, e = (.halt x, w) ∧ P.Failed ts h args x w) ∨ P.Goes (Machine.proceed frames steps use e) := by
  obtain ⟨e, w⟩ := e
  cases e with
  | halt x => exact .inl ⟨x, w, rfl, he⟩
  | value v =>
    obtain ⟨ts', hl, hv⟩ := he
    exact .inr (deliver_goes hl.typed (waits (fun _ hx => by cases hx) hl) hv steps)
  | frame g =>
    obtain ⟨ts', Γ', d', hl, hg, hpc, hs, rfl, hret⟩ := he
    obtain ⟨layout', hstands⟩ := hg.stands hpc hs
    exact .inr ⟨ts', hl.typed, Γ', d', layout', [], hstands, (waits (fun _ hx => by cases hx) hl).same hret⟩

/-- A call that a frame waits for fails, or the run goes on. -/
theorem proceed_goes {d : Draft} {layout : List (List Slot)} {S : List Slot} {e : Entered × World}
    (hl : P.Leads ts h use args A e)
    (hf : P.Stands ts h A f Γ d layout S) (hw : P.Waits ts h f.use (some Γ.scope.ret) rest) (steps : Nat) :
    (∃ x w, e = (.halt x, w) ∧ P.Failed ts h args x w) ∨ P.Goes (Machine.proceed (f :: rest) steps use e) := by
  obtain ⟨ret, he, hadds⟩ := hl
  refine enters_goes he (fun hx hl => ?_) steps
  have ha := hadds.resolve_left fun ⟨x, he⟩ => hx x he
  exact ⟨A, Γ, d, layout, S, ha, hf.later hl.cells hl.keeps, hw.later hl.cells hl.keeps⟩

/-- The instruction that a frame stands at, and the one that it comes from. -/
theorem Stands.instr {d : Draft} {layout : List (List Slot)} {S : List Slot} (hf : P.Stands ts h [] f Γ d layout S) :
    ∃ i i₀ S', f.body.code[f.pc]? = some i ∧ d.code[f.pc]? = some i₀ ∧ d.Resolves i₀ i ∧ layout[f.pc + 1]? = some S' ∧
      Γ.Types d.locals d.marks.size i₀.expanded S S' := by
  have hinside := hf.inside
  have hi₀ : d.code[f.pc]? = some d.code[f.pc] := Array.getElem?_eq_getElem hinside
  obtain ⟨i, hi, hres⟩ := hf.lives.runs.resolves.each hi₀
  obtain ⟨S', hS'⟩ := hf.certified.stack (show f.pc + 1 ≤ d.code.size by omega)
  exact ⟨i, _, S', hi, hi₀, hres, hS', hf.certified.step hi₀ hf.slots hS'⟩

/-- A branch goes to an instruction with an empty stack in front of it. -/
theorem Stands.target {d : Draft} {layout : List (List Slot)} {S S' : List Slot}
    (hf : P.Stands ts h [] f Γ d layout S) {i₀ : Instr}
    (ht : Γ.Types d.locals d.marks.size i₀.expanded S S') (hb : i₀.op.isBranch = true) (hres : d.Resolves i₀ i) :
    S' = [] ∧ ∃ n, i.operand = .offset n ∧ n < d.code.size ∧ layout[n]? = some [] := by
  obtain ⟨rfl, id, hlabel, hid⟩ := ht.branch hb
  obtain ⟨n, hn, hlt⟩ := hf.lives.runs.complete.labels id hid
  have htarget := hres.target
  simp only [Draft.target?, hlabel, hn, Option.join_some] at htarget
  refine ⟨rfl, n, ?_, hlt, hf.certified.marks hn⟩
  unfold Instr.offset? at htarget
  split at htarget
  · cases htarget
    assumption
  · cases htarget

/-- What the instruction does that a frame stands at. -/
theorem Stands.acts (hP : P.Sound) (ht : P.Typed ts w.heap) {d : Draft} {layout : List (List Slot)} {S S' : List Slot}
    (hf : P.Stands ts w.heap [] f Γ d layout S) {i₀ : Instr} (hi₀ : d.code[f.pc]? = some i₀) (hres : d.Resolves i₀ i)
    (htypes : Γ.Types d.locals d.marks.size i₀.expanded S S') :
    P.Acts ts w.heap Γ S' f i.expanded (f.exec P.machine w i) := by
  by_cases hb : i₀.op.isBranch = true
  · obtain ⟨rfl, n, hn, -, -⟩ := hf.target htypes hb hres
    have hexp : i.expanded = i := Instr.expanded_of_branch (by rw [hres.op]; exact hb)
    rw [Instr.expanded_of_branch hb] at htypes
    unfold Frame.exec
    rw [hexp]
    exact branch_acts ht htypes hb hres.op hn hf.stack
  · obtain rfl := hres.plain (by simpa using hb)
    exact types_acts hP ht hf.lives htypes (by rw [i.isBranch_expanded]; simpa using hb)
      (fun hop => (hf.twice hi₀ (Instr.op_of_expanded (by decide) hop)).2) hf.stack

/-- A frame that has come to another place. -/
theorem Stands.moved {d : Draft} {layout : List (List Slot)} {S S' : List Slot} (hf : P.Stands ts h [] f Γ d layout S)
    (hl : P.Later ts h ts' h') {pc : Nat} {stack : List Value} (hpc : pc < d.code.size)
    (hslots : layout[pc]? = some (A ++ S'))
    (hstack : P.Stacked ts' h' S' stack)
    (htwice : ∀ {i : Instr}, d.code[pc]? = some i → i.op = .ldvirtftn → A = [] ∧ ∃ v rest, stack = v :: v :: rest) :
    P.Stands ts' h' A { f with stack, pc } Γ d layout S' :=
  ⟨⟨hf.lives.runs, (hf.lives.later hl.cells).arg, (hf.lives.later hl.cells).local⟩, hf.certified, hpc,
    hslots, hstack, htwice⟩

/-- Only a return is last. -/
theorem Stands.goes_on {d : Draft} {layout : List (List Slot)} {S : List Slot}
    (hf : P.Stands ts h [] f Γ d layout S) {i₀ : Instr}
    (hi₀ : d.code[f.pc]? = some i₀) (hret : i₀.op ≠ .ret) : f.pc + 1 < d.code.size := by
  have hinside := hf.inside
  obtain ⟨code, hlast⟩ := hf.lives.runs.complete.last
  by_contra hend
  rw [hlast, Array.size_push] at hend hinside
  rw [hlast, Array.getElem?_push, if_pos (by omega)] at hi₀
  cases hi₀
  exact hret rfl

theorem exec_dup (hi : i.op = .dup) : f.exec P.machine w i = (f.execDup, w) := by
  obtain ⟨op, x⟩ := i
  cases hi
  rfl

theorem Fault.operand_of_call {x : Fault} (hx : (Halt.fault x).isInstr = false) (i : Instr) : x.operand i = 0 := by
  unfold Fault.operand
  split
  · cases hx
  · rfl

/-- A step of typed code goes on in typed code, or fails. -/
theorem Stands.step (hP : P.Sound) (ht : P.Typed ts w.heap) {d : Draft} {layout : List (List Slot)} {S : List Slot}
    (hf : P.Stands ts w.heap [] f Γ d layout S) (hw : P.Waits ts w.heap f.use (some Γ.scope.ret) rest)
    (hi : f.body.code[f.pc]? = some i) (b : Bool) (steps : Nat) :
    P.Steps f i ((P.machine.under b).step { frames := f :: rest, world := w, steps }) := by
  obtain ⟨i', i₀, S', hi', hi₀, hres, hS', htypes⟩ := hf.instr
  cases hi.symm.trans hi'
  rw [Machine.step_under hi]
  split
  · exact ⟨⟨_, rfl⟩, fun _ => ⟨_, rfl, rfl, fun he => by cases he⟩, fun _ => ⟨ts, ht⟩⟩
  have acts := hf.acts hP ht hi₀ hres htypes
  have stays := f.exec_stays (m := P.machine) (w := w) i
  have hret : ∀ {e : Effect} {w' : World}, f.exec P.machine w i = (e, w') → (∀ v, e ≠ .ret v) → f.pc + 1 < d.code.size := by
    intro e w' he hne
    refine hf.goes_on hi₀ fun hop => ?_
    rw [Machine.exec_ret (by rw [hres.op]; exact hop)] at he
    cases he
    exact hne _ rfl
  -- Where a method is taken next, this instruction has put the object on the stack twice.
  have doubled : ∀ {j : Instr}, d.code[f.pc + 1]? = some j → j.op = .ldvirtftn → f.exec P.machine w i = (f.execDup, w) := by
    intro j hj hop
    obtain ⟨k, j', hk, hj', hop'⟩ := hf.lives.runs.doubles hj hop
    cases hk
    cases hi₀.symm.trans hj'
    exact exec_dup (by rw [hres.op]; exact hop')
  cases he : f.exec P.machine w i with
  | mk e w' =>
  rw [he] at acts stays
  have hpc := hret he
  cases e with
  | next g =>
    obtain ⟨ts', hl, hstack⟩ := acts
    have hg : g = { f with stack := g.stack } := stays
    refine Steps.of_goes ⟨ts', hl.typed, Γ, d, layout, S', ?_, ?_⟩
    · rw [hg]
      refine hf.moved hl (hpc fun v he => by cases he) hS' hstack fun hj hop => ⟨rfl, ?_⟩
      have hdup := he.symm.trans (doubled hj hop)
      unfold Frame.execDup at hdup
      split at hdup
      · cases hdup
        exact ⟨_, _, rfl⟩
      · cases hdup
    · show P.Waits ts' w'.heap g.use _ rest
      rw [hg]
      exact hw.later hl.cells hl.keeps
  | jump g n =>
    obtain ⟨hheap, hstack⟩ := acts
    have hg : g = { f with stack := g.stack } := stays.1
    obtain ⟨hb, hn⟩ := Frame.exec_jump (congrArg Prod.fst he)
    obtain ⟨rfl, n', hn', hlt, hslots⟩ := hf.target htypes (by rw [← hres.op]; exact hb) hres
    cases hn.symm.trans hn'
    have hl : P.Later ts w.heap ts w'.heap := by
      rw [hheap]
      exact .refl ht
    refine Steps.of_goes ⟨ts, hl.typed, Γ, d, layout, [], ?_, ?_⟩
    · rw [hg]
      refine hf.moved hl hlt hslots (hheap ▸ hstack) fun {j} hj hop => ?_
      -- A method is not taken where the stack is empty.
      obtain ⟨S'', hS''⟩ := hf.certified.stack (show n + 1 ≤ d.code.size by omega)
      have hpops := (hf.certified.step hj hslots hS'').shifts.1
      rw [Instr.effect_expanded, Instr.effect, hop] at hpops
      cases hpops
    · show P.Waits ts w'.heap g.use _ rest
      rw [hg]
      exact hw.later hl.cells hl.keeps
  | call g use r args =>
    obtain ⟨A, S₀, rfl, hstack, hnull, hleads⟩ := acts
    have hg : g = { f with stack := g.stack } := stays.1
    have hstands : P.Stands ts w.heap A { f with stack := g.stack, pc := f.pc + 1 } Γ d layout S₀ := by
      refine hf.moved (.refl ht) (hpc fun v he => by cases he) hS' hstack fun hj hop => ?_
      have hdup := he.symm.trans (doubled hj hop)
      unfold Frame.execDup at hdup
      split at hdup <;> cases hdup
    rw [hg]
    rcases proceed_goes (hleads f.levels) hstands hw (steps + 1) with ⟨x, w'', hx, hfailed⟩ | hgoes
    · have hbegins := Machine.enter_begins P.machine use f.levels r args w'
      rw [hx] at hbegins
      simp only [Machine.goOn, hx, Machine.proceed]
      refine ⟨hfailed.fault, fun hplain => ?_, fun hp => (hfailed.typed hp).imp fun _ hl => hl.typed⟩
      obtain ⟨y, rfl, hy, hlast⟩ := hfailed.expected hplain
      refine ⟨y, rfl, hy, fun hcode => ?_⟩
      rw [Fault.operand_of_call hbegins, ← List.head?_eq_getElem?]
      exact hnull (hlast hcode)
    · exact Steps.of_goes hgoes
  | ret v =>
    obtain ⟨hheap, hv⟩ := acts
    have hl : P.Later ts w.heap ts w'.heap := by
      rw [hheap]
      exact .refl ht
    exact Steps.of_goes (deliver_goes hl.typed (hw.later hl.cells hl.keeps) (hheap ▸ hv) (steps + 1))
  | fail c =>
    obtain ⟨hheap, hexpected⟩ := acts
    refine ⟨⟨_, rfl⟩, fun hplain => ⟨_, rfl, ?_, fun hcode => ?_⟩, fun _ => ⟨ts, hheap ▸ ht⟩⟩
    · have hexpected := (hexpected hplain).expected
      simp only [List.mem_cons, List.not_mem_nil, or_false] at hexpected
      rcases hexpected with hc | hc | hc | hc <;>
          simp [Fault.isExpected, Fault.runtime, RuntimeCause.isExpected, RuntimeCause.code, hc]
    · have hcode : c.code = .nullReference := Option.some.inj hcode
      rw [← (hexpected hplain).null hcode, Instr.effect_expanded]
      rfl
  | missing => exact acts.elim

end Steps
end Platform

/-! ### What instructions look for -/

/-- All that an instruction of a frame looks for is there: its operands, the argument or the local that it names, and
    the field of an object. -/
structure Frame.Finds (f : Frame) (h : Heap) (i : Instr) : Prop where
  operands : (i.effect f.method.ret).1 ≤ f.stack.length
  arg : i.expanded.op ∈ [Opcode.ldarg, .ldarga, .starg] →
    ∃ c, f.arg? i.expanded.operand.number = some c ∧ c < h.cells.size
  «local» : i.expanded.op ∈ [Opcode.ldloc, .ldloca, .stloc] →
    ∃ c, f.local? i.expanded.operand.number = some c ∧ c < h.cells.size
  field : ∀ {x : Field} {v : Value}, i.op ∈ [Opcode.ldfld, .ldflda, .stfld] → i.operand = .field x →
    f.stack[(i.effect none).1 - 1]? = some v → v ≠ .null →
    ∃ id o slot, v = .obj id ∧ h.objects[id]? = some o ∧ x.slot = some slot ∧ slot < o.count ∧ o.first + slot < h.cells.size

namespace Setting
variable {Γ : Setting} {locals : Array Ty} {labels : Nat} {i : Instr} {S S' : List Slot}

/-- What an instruction names: an argument, a local, or a field of the type of a slot that it takes. -/
theorem Types.names (h : Γ.Types locals labels i S S') :
    (i.op ∈ [Opcode.ldarg, .ldarga, .starg] → ∃ n t, i.operand = .int (Int32.ofNat n) ∧ n ≤ 65534 ∧
      Γ.scope.args[n]? = some t) ∧
      (i.op ∈ [Opcode.ldloc, .ldloca, .stloc] → ∃ n t, i.operand = .int (Int32.ofNat n) ∧ n ≤ 65534 ∧ locals[n]? = some t) ∧
      (∀ x, i.op ∈ [Opcode.ldfld, .ldflda, .stfld] → i.operand = .field x → x.isStatic = false ∧ ∃ t s, Γ.FieldOn t x ∧
        S[(i.effect none).1 - 1]? = some s ∧ (s = .value (some t) ∨ s = .address t)) := by
  cases h with
  | arg hn ht | argAddress hn ht _ | setArg hn ht _ => exact ⟨fun _ => ⟨_, _, rfl, hn, ht⟩, by simp, by simp⟩
  | loc hn ht | locAddress hn ht _ | setLoc hn ht _ => exact ⟨by simp, fun _ => ⟨_, _, rfl, hn, ht⟩, by simp⟩
  | @field f t s S hst hx hs | @fieldAddress f t u s S hst hx hs _ _ =>
    refine ⟨by simp, by simp, fun x _ he => ?_⟩
    cases he
    exact ⟨hst, t, s, hx, rfl, hs⟩
  | @setField f t u S hst hx _ =>
    refine ⟨by simp, by simp, fun x _ he => ?_⟩
    cases he
    exact ⟨hst, t, _, hx, rfl, .inl rfl⟩
  | arithmetic hop _ _ | order hop _ _ | unary hop _ | test hop _ _ =>
    simp only [List.mem_cons, List.not_mem_nil, or_false] at hop
    rcases hop with rfl | rfl | rfl | rfl | rfl | rfl | rfl <;> simp
  | callInstance _ _ _ hr => cases hr <;> simp
  | _ => simp

end Setting

theorem Draft.Resolves.effect {d : Draft} {i j : Instr} (h : d.Resolves i j) (ret : Option Ty) :
    j.effect ret = i.effect ret := by
  by_cases hb : i.op.isBranch = true
  · have hop := h.op
    obtain ⟨op, x⟩ := i
    obtain ⟨op', y⟩ := j
    cases hop
    rcases Draft.isBranch_iff.mp hb with rfl | rfl | rfl <;> rfl
  · rw [h.plain (by simpa using hb)]

namespace Platform
variable {P : Platform} {ts : List Text} {h : Heap} {Γ : Setting} {f : Frame} {S : List Slot} {i : Instr} {use : ResultUse}
  {ret : Option Ty}

/-- The value of a slot. -/
theorem Stacked.get {vs : List Value} (hS : P.Stacked ts h S vs) {k : Nat} {s : Slot} (hs : ∀ m, s ≠ .bound m)
    (hk : S[k]? = some s) :
    ∃ v, vs[k]? = some v ∧ P.Fits ts h s v := by
  induction hS generalizing k with
  | any => cases hk
  | cons hv _ ih =>
    cases k with
    | zero =>
      cases hk
      exact ⟨_, rfl, hv⟩
    | succ k => exact ih hk
  | @bound m q s' S v vs _ hv _ ih =>
    cases k with
    | zero =>
      cases hk
      exact absurd rfl (hs m)
    | succ k =>
      cases k with
      | zero =>
        cases hk
        exact ⟨v, rfl, hv⟩
      | succ k => exact ih hk

theorem Typed.inside (ht : P.Typed ts h) {c : Nat} {n : Text} (hc : ts[c]? = some n) : c < h.cells.size := by
  rw [← ht.size]
  exact (List.getElem?_eq_some_iff.mp hc).1

/-- What an instruction of typed code looks for is there. -/
theorem Stands.finds (hP : P.Sound) (hplain : P.plain) (ht : P.Typed ts h) {d : Draft} {layout : List (List Slot)}
    (hf : P.Stands ts h [] f Γ d layout S) (hi : f.body.code[f.pc]? = some i) : f.Finds h i := by
  obtain ⟨i', i₀, S', hi', hi₀, hres, hS', htypes⟩ := hf.instr
  cases hi.symm.trans hi'
  have hpops := htypes.shifts.1
  rw [Instr.effect_expanded, ← hres.effect] at hpops
  obtain ⟨harg, hlocal, hfield⟩ := htypes.names
  -- A branch names none of these.
  have plain : ∀ {op : Opcode}, op.isBranch = false → i.expanded.op = op → i = i₀ := fun hb hop => by
    refine hres.plain ?_
    rw [← hres.op, ← i.isBranch_expanded, hop, hb]
  refine ⟨?_, fun hop => ?_, fun hop => ?_, fun {x v} hop hx hv hnull => ?_⟩
  · rw [hf.lives.runs.ret]
    exact Nat.le_trans hpops hf.stack.length
  · obtain rfl : i = i₀ := by
      simp only [List.mem_cons, List.not_mem_nil, or_false] at hop
      rcases hop with hop | hop | hop <;> exact plain rfl hop
    obtain ⟨n, t, hn, hle, ht'⟩ := harg hop
    obtain ⟨hcell, hname, -⟩ := hf.lives.arg_cell hle ht'
    exact ⟨f.args + n, by rw [hn]; exact hcell, ht.inside hname⟩
  · obtain rfl : i = i₀ := by
      simp only [List.mem_cons, List.not_mem_nil, or_false] at hop
      rcases hop with hop | hop | hop <;> exact plain rfl hop
    obtain ⟨n, t, hn, hle, ht'⟩ := hlocal hop
    obtain ⟨hcell, hname, -⟩ := hf.lives.local_cell hle ht'
    exact ⟨f.locals + n, by rw [hn]; exact hcell, ht.inside hname⟩
  · obtain ⟨op, y⟩ := i
    cases hx
    have hexp : Instr.expanded { op, operand := .field x } = { op, operand := .field x } := by
      simp only [List.mem_cons, List.not_mem_nil, or_false] at hop
      rcases hop with rfl | rfl | rfl <;> rfl
    have hbranch : op.isBranch = false := by
      simp only [List.mem_cons, List.not_mem_nil, or_false] at hop
      rcases hop with rfl | rfl | rfl <;> rfl
    obtain rfl := plain hbranch (by rw [hexp])
    rw [hexp] at hfield
    obtain ⟨hst, t, s, hx, hs, hcase⟩ := hfield x hop rfl
    obtain ⟨v', hv', hfits⟩ := hf.stack.get (by rintro m rfl; rcases hcase with he | he <;> cases he) hs
    cases hv.symm.trans hv'
    rcases field_found hP ht hf.lives hst hx hcase hfits with hvnull | ⟨id, o, slot, u, he, ho, hslot, hlt,
        -, hcell⟩ | ⟨hp, -⟩
    · exact absurd hvnull hnull
    · exact ⟨id, o, slot, he, ho, hslot, hlt, ht.inside hcell⟩
    · exact absurd hplain hp

/-! ### Runs -/

variable {p : Progress}

/-- A run of typed code goes on in typed code, or has failed at an instruction that it stood at. -/
theorem run_goes (hP : P.Sound) (hp : P.Goes p) (canceled : Nat → Bool) (n : Nat) :
    P.Goes (P.machine.runUnder canceled n p) ∨ ∃ e w, P.machine.runUnder canceled n p = .halted e w ∧
      ∃ k s f rest i, k < n ∧
      P.machine.runUnder canceled k p = .running s ∧ s.frames = f :: rest ∧ f.body.code[f.pc]? = some i ∧
        P.Stopped f i e w := by
  induction n with
  | zero =>
    refine .inl ?_
    cases p <;> exact hp
  | succ n ih =>
    rw [Machine.runUnder_add]
    rcases ih with hgoes | ⟨e, w, he, k, s, f, rest, i, hk, hat⟩
    · generalize hq : P.machine.runUnder canceled n p = q at hgoes
      cases q with
      | done v w => exact .inl hgoes
      | halted e w => exact hgoes.elim
      | running s =>
        obtain ⟨frames, w, steps⟩ := s
        obtain ⟨ts, ht, hframed⟩ := hgoes
        cases frames with
        | nil => exact hframed.elim
        | cons f rest =>
          obtain ⟨Γ, d, layout, S, hf, hw⟩ := hframed
          obtain ⟨i, -, -, hi, -⟩ := hf.instr
          have hsteps := hf.step hP ht hw hi (canceled steps) steps
          have hrun : P.machine.runUnder canceled 1 (.running { frames := f :: rest, world := w, steps }) =
              (P.machine.under (canceled steps)).step { frames := f :: rest, world := w, steps } := by
            show P.machine.runUnder canceled 0 ((P.machine.under (canceled steps)).step _) = _
            cases (P.machine.under (canceled steps)).step { frames := f :: rest, world := w, steps } <;> rfl
          rw [hrun]
          generalize (P.machine.under (canceled steps)).step { frames := f :: rest, world := w, steps } = q at hsteps
          cases q with
          | halted e w' => exact .inr ⟨e, w', rfl, n, _, f, rest, i, Nat.lt_succ_self n, hq, rfl, hi, hsteps⟩
          | running s => exact .inl hsteps
          | done v w' => exact .inl hsteps
    · rw [he]
      exact .inr ⟨e, w, rfl, k, s, f, rest, i, Nat.lt_succ_of_lt hk, hat⟩

/-- A run of typed code that goes on, or has halted with a fault in a typed heap. -/
def Stays (P : Platform) : Progress → Prop
  | .halted e w => (∃ x, e = .fault x) ∧ ∃ ts, P.Typed ts w.heap
  | p => P.Goes p

theorem Stays.of_goes (hp : P.Goes p) : P.Stays p := by
  cases p with
  | halted e w => exact hp.elim
  | _ => exact hp

/-- Where the platform is not plain, a run of typed code leaves a typed heap, however it ends. -/
theorem Stays.run (hP : P.Sound) (hplain : ¬P.plain) (hp : P.Stays p) (canceled : Nat → Bool) (n : Nat) :
    P.Stays (P.machine.runUnder canceled n p) := by
  cases p with
  | halted e w => cases n <;> exact hp
  | running s =>
    rcases run_goes hP (p := .running s) hp canceled n with hgoes | ⟨e, w, he, _, _, _, _, _, -, -, -, -, hstopped⟩
    · exact .of_goes hgoes
    · rw [he]
      exact ⟨hstopped.fault, hstopped.typed hplain⟩
  | done v w => cases n <;> exact hp

/-- A call from outside begins a run of typed code, or is over. -/
theorem Enters.stays (hplain : ¬P.plain) {h : Heap} {args : List Value} {e : Entered × World}
    (he : P.Enters ts h use ret args e) :
    P.Stays (Machine.proceed [] 0 use e) := by
  have waits : ∀ {ts' : List Text}, (∀ x, e.1 ≠ .halt x) → P.Later ts h ts' e.2.heap →
      P.Waits ts' e.2.heap use ret [] := fun _ _ => trivial
  rcases enters_goes he waits 0 with ⟨x, w, rfl, hfailed⟩ | hgoes
  · exact ⟨hfailed.fault, (hfailed.typed hplain).imp fun _ hl => hl.typed⟩
  · exact .of_goes hgoes

/-- In front of every instruction of a run all is there that the instruction looks for. -/
theorem run_finds (hP : P.Sound) (hplain : P.plain) (hp : P.Goes p) (canceled : Nat → Bool) (n : Nat) {s : Running}
    (hs : P.machine.runUnder canceled n p = .running s) :
    ∃ f rest i, s.frames = f :: rest ∧ f.body.code[f.pc]? = some i ∧ f.Finds s.world.heap i := by
  rcases run_goes hP hp canceled n with hgoes | ⟨e, w, he, -⟩
  · rw [hs] at hgoes
    obtain ⟨frames, w, steps⟩ := s
    obtain ⟨ts, ht, hframed⟩ := hgoes
    cases frames with
    | nil => exact hframed.elim
    | cons f rest =>
      obtain ⟨Γ, d, layout, S, hf, -⟩ := hframed
      obtain ⟨i, -, -, hi, -⟩ := hf.instr
      exact ⟨f, rest, i, rfl, hi, hf.finds hP hplain ht hi⟩
  · rw [hs] at he
    cases he

/-- A run of typed code only halts at an instruction that it stood at. -/
theorem run_halts (hP : P.Sound) (hp : P.Goes p) (canceled : Nat → Bool) (n : Nat) {e : Halt} {w : World}
    (he : P.machine.runUnder canceled n p = .halted e w) :
      ∃ k s f rest i, k < n ∧ P.machine.runUnder canceled k p = .running s ∧
      s.frames = f :: rest ∧ f.body.code[f.pc]? = some i ∧ P.Stopped f i e w := by
  rcases run_goes hP hp canceled n with hgoes | ⟨e', w', he', hat⟩
  · rw [he] at hgoes
    exact hgoes.elim
  · rw [he] at he'
    cases he'
    exact hat

end Platform

end CilCompiler
