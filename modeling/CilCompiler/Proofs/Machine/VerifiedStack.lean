import CilCompiler.Proofs.Machine.Height
import CilCompiler.Proofs.Module.Built

/-!
Runs stay within the verified stack. In every run on modules that were built call by call, the frame that runs has as
many values on its stack as finishing its body found for the place it stands at, and a frame that waits for a call has
so many less as the call will push (`Steady`). A step keeps this (`Steady.step`), whatever is called, so control never
leaves a body and no instruction finds too few operands (`within_verified_stack`).
-/

namespace CilCompiler

/-! ### The depths of a finished body -/

/-- The depth that finishing a body finds in front of an instruction; one that control does not reach has none. -/
def Body.depth? (b : Body) (ret : Option Ty) (pc : Nat) : Option Nat :=
  match Flow.ofCode ret b.code with
  | .ok flow => flow.depths[pc]?.join
  | .error _ => none

/-- The depths of a body agree along its paths and stay below its largest stack. -/
structure Body.Balanced (b : Body) (ret : Option Ty) : Prop where
  start : b.depth? ret 0 = some 0
  instr : ∀ {pc depth : Nat}, b.depth? ret pc = some depth → ∃ i, b.code[pc]? = some i ∧ (i.effect ret).1 ≤ depth ∧
    (i.op = .ret → i.depthAfter ret depth = 0)
  next : ∀ {pc depth n : Nat} {i : Instr}, b.depth? ret pc = some depth → b.code[pc]? = some i →
    Next b.code Instr.offset? pc n → b.depth? ret n = some (i.depthAfter ret depth)
  bounded : ∀ {pc depth : Nat}, b.depth? ret pc = some depth → depth ≤ b.maxStack

/-- The depths found by a search that has ended. -/
theorem Flow.Sound.balanced {ret : Option Ty} {b : Body} {f : Flow} (hf : Flow.Sound ret b.code f) (hw : f.work = [])
    (hd : ∀ pc, b.depth? ret pc = f.depths[pc]?.join) (hp : f.peak = b.maxStack) : b.Balanced ret := by
  have found : ∀ {pc depth : Nat}, b.depth? ret pc = some depth → f.depths[pc]? = some (some depth) := fun h => by
    rw [hd] at h
    exact Option.join_eq_some_iff.mp h
  have settled : ∀ {pc depth : Nat} {i : Instr}, b.depth? ret pc = some depth → b.code[pc]? = some i →
      Flow.Settled ret b.code f pc i depth := fun h hi => hf.settled (found h) (by simp [hw]) hi
  refine ⟨by rw [hd, hf.start]; rfl, fun {pc depth} h => ?_, fun {pc depth n i} h hi hn => ?_, fun {pc depth} h => ?_⟩
  · have hpc : pc < b.code.size := by
      rw [← hf.size]
      exact (Array.getElem?_eq_some_iff.mp (found h)).1
    have hi : b.code[pc]? = some b.code[pc] := Array.getElem?_eq_getElem hpc
    exact ⟨_, hi, (settled h hi).pops, (settled h hi).returns⟩
  · rw [hd, (settled h hi).next hn]
    rfl
  · -- The first instruction is reached with nothing, every other one with what an instruction left.
    have := hf.reached (found h)
    cases this with
    | start =>
      rw [hd, hf.start] at h
      cases h
      exact Nat.zero_le _
    | @next p _ hr hn =>
      obtain ⟨i, hi⟩ := hn.instr
      obtain ⟨d, hpd⟩ := hf.known hw hr
      have hs := hf.settled hpd (by simp [hw]) hi
      have hd' : f.depths[pc]? = some (some (i.depthAfter ret d)) := hs.next hn
      rw [found h] at hd'
      cases hd'
      exact hp ▸ hs.peak

/-- Finishing a body finds its depths. -/
theorem Draft.Built.balanced {r : Method} {d : Draft} (hd : d.Built r) {ret : Option Ty} {b : Body}
    (h : d.verify ret = .ok b) : b.Balanced ret ∧ d.ResolvesTo b.code := by
  obtain ⟨l, hres, h⟩ := bind_eq_ok.mp h
  have hto := resolvesTo_of_resolveFrom hd.labelled hres
  dsimp only at h
  split at h
  · cases h
  · rename_i hne
    obtain ⟨f, hf, h⟩ := bind_eq_ok.mp h
    cases h
    have hpos : 0 < l.toArray.size := by
      rw [Array.isEmpty_iff_size_eq_zero] at hne
      omega
    have ends := Flow.search_ends (fun _ => 0) (hto.targetsInside hd.labelled) l.toArray.size (Flow.start l.toArray.size)
      (Flow.sound_start hpos : Flow.Sound ret _ _) (Nat.le_of_eq (Flow.left_start hpos))
    rw [← Flow.run_eq_search, show Flow.run ret l.toArray l.toArray.size (Flow.start l.toArray.size) =
        .ok f from hf] at ends
    rcases ends with ⟨g, hg, hsound, hw⟩ | ⟨e, he, -⟩
    · cases hg
      exact ⟨hsound.balanced hw (fun pc => by simp only [Body.depth?, hf]) rfl, hto⟩
    · cases he

/-! ### Machines -/

namespace Machine

/-- The modules of a machine were built call by call, and no constructor in them is static. -/
structure Sound (m : Machine) : Prop where
  built : ∀ {k : Nat} {x : Module}, m.modules[k]? = some x → x.Built k
  instances : ∀ {k : Nat} {x : Module}, m.modules[k]? = some x → ∀ d ∈ x.types, ∀ c ∈ d.ctors, c.method.isStatic = false

variable {m : Machine}

section Built
variable (hm : ∀ {k : Nat} {y : Module}, m.modules[k]? = some y → y.Built k)
include hm

/-- A member of a module that was built call by call is as its builder has checked it. -/
theorem checked_of_routine {r : Method} {x : Routine} (hx : m.routine? r = some x) :
    ∃ (k : Nat) (y : Module), m.modules[k]? = some y ∧ x.Checked y := by
  obtain ⟨y, hy, hx⟩ := Option.bind_eq_some_iff.mp hx
  obtain ⟨e, he, hx⟩ := Option.bind_eq_some_iff.mp hx
  have hchecked := (hm hy).checked
  have hin := (Module.def?_some he).1
  refine ⟨_, y, hy, ?_⟩
  unfold TypeDef.routine? at hx
  split at hx
  · exact hchecked.ctors hin x (Array.mem_of_getElem? hx)
  · exact hchecked.methods hin x (Array.mem_of_getElem? hx)

theorem balanced_of_routine {r : Method} {x : Routine} {b : Body} (hx : m.routine? r = some x) (hb : x.body = some b) :
    b.Balanced x.method.ret := by
  obtain ⟨k, y, -, checked⟩ := checked_of_routine hm hx
  obtain ⟨d, hd, hv, -⟩ := checked.body hb
  exact (hd.balanced hv).1

end Built

/-- A body that the machine can run is balanced, and the constructors it calls are not static. -/
theorem Sound.body (hm : m.Sound) {r : Method} {x : Routine} {b : Body} (hx : m.routine? r = some x)
    (hb : x.body = some b) :
    b.Balanced x.method.ret ∧ ∀ {pc : Nat} {c : Method}, b.code[pc]? = some { op := .call, operand := .ctor c } →
      c.isStatic = false := by
  obtain ⟨k, y, hy, checked⟩ := checked_of_routine hm.built hx
  obtain ⟨d, hd, hv, hk⟩ := checked.body hb
  obtain ⟨hbal, hto⟩ := hd.balanced hv
  refine ⟨hbal, fun {pc c} hc => ?_⟩
  obtain ⟨i, hi, hr⟩ := hto.source hc
  have hic : { op := .call, operand := .ctor c } = i := hr.plain (by rw [← hr.op]; rfl)
  obtain ⟨hctor, z, hz, rfl⟩ := hk i (Array.mem_of_getElem? hi) c hic.symm
  obtain ⟨e', he', hz⟩ := Option.bind_eq_some_iff.mp hz
  simp only [TypeDef.routine?, hctor, if_true] at hz
  exact hm.instances hy e' (Array.mem_of_getElem? (Module.def?_some he').1) z (Array.mem_of_getElem? hz)

/-! ### Frames -/

/-- A frame stands at a place that is reached with the values on its stack and `more` that are still to come. -/
def Stands (m : Machine) (f : Frame) (more : Nat) : Prop :=
  ∃ x, m.routine? f.method = some x ∧ x.body = some f.body ∧ f.body.depth? x.method.ret f.pc = some (f.stack.length + more)

/-- Frames that wait for the result of a call, and that one for the result of the next. -/
def Waits (m : Machine) : (use : ResultUse) → List Frame → Prop
  | _, [] => True
  | use, f :: rest => m.Stands f use.pushes ∧ m.Waits f.use rest

/-- The innermost frame stands with all of its values on its stack, and the others wait. -/
def Steady (m : Machine) : Progress → Prop
  | .running s =>
    match s.frames with
    | [] => True
    | f :: rest => m.Stands f 0 ∧ m.Waits f.use rest
  | .done .. => True
  | .halted h _ => ∀ r pc, h ≠ faultAt r pc .controlLeft

theorem deliver_steady {frames : List Frame} {w : World} {steps : Nat} {use : ResultUse} {v : Value}
    (h : m.Waits use frames) :
    m.Steady (deliver frames w steps use v) := by
  cases frames with
  | nil => cases use <;> trivial
  | cons f rest =>
    obtain ⟨⟨x, hx, hb, hd⟩, hw⟩ := h
    cases use with
    | drop => exact ⟨⟨x, hx, hb, hd⟩, hw⟩
    | push => exact ⟨⟨x, hx, hb, hd⟩, hw⟩
    | object o => exact ⟨⟨x, hx, hb, hd⟩, hw⟩

/-! ### Calls -/

end Machine

/-- Whether a run stops with the fault of an instruction. -/
def Halt.isInstr : Halt → Bool
  | .fault (.diagnosed (.runtime (.instruction ..))) => true
  | _ => false

namespace Native

theorem stringOf_error {h : Heap} {v : Value} {e : Halt} (he : stringOf h v = .error e) : e.isInstr = false := by
  unfold stringOf at he
  split at he <;> cases he
  rfl

theorem shown_error {h : Heap} {isBool : Bool} {v : Value} {e : Halt} (he : shown h isBool v = .error e) :
    e.isInstr = false := by
  unfold shown at he
  split at he <;> cases he
  rfl

theorem builderOf_error {h : Heap} {v : Value} {e : Halt} (he : builderOf h v = .error e) : e.isInstr = false := by
  unfold builderOf at he
  repeat' split at he
  all_goals cases he
  all_goals rfl

theorem parse_error {v : Value} {e : Halt} (he : parse v = .error e) : e.isInstr = false := by
  unfold parse at he
  dsimp only at he
  repeat' split at he
  all_goals cases he
  all_goals rfl

theorem substring_error {s : Text} {a b : Int32} {e : Halt} (he : substring s a b = .error e) : e.isInstr = false := by
  unfold substring at he
  dsimp only at he
  split at he <;> cases he
  rfl

theorem lengthOf_error {tooLong : Fault} {t : Text} {e : Halt} (ht : (Halt.fault tooLong).isInstr = false)
    (he : lengthOf tooLong t = .error e) : e.isInstr = false := by
  unfold lengthOf at he
  split at he <;> cases he
  exact ht

theorem absolute_error {v : Int32} {e : Halt} (he : absolute v = .error e) : e.isInstr = false := by
  unfold absolute at he
  split at he <;> cases he
  rfl

theorem map_error {α : Type} {x : Except Halt α} {f : α → Value} {e : Halt} (hx : ∀ {e}, x = .error e → e.isInstr = false)
    (h : x.map f = .error e) : e.isInstr = false := by
  cases x with
  | ok a => cases h
  | error e' => cases h; exact hx rfl

theorem bind_error {α β : Type} {x : Except Halt α} {f : α → Except Halt β} {e : Halt}
    (hx : ∀ {e}, x = .error e → e.isInstr = false) (hf : ∀ {a e}, f a = .error e → e.isInstr = false)
    (h : x >>= f = .error e) :
    e.isInstr = false := by
  cases x with
  | ok a => exact hf h
  | error e' => cases h; exact hx rfl

/-- No member of the catalog fails with the fault of an instruction. -/
theorem run_error {n : Native} {module : Nat} {w w' : World} {args : List Value} {e : Halt}
    (h : n.run module w args = (.error e, w')) : e.isInstr = false := by
  unfold run at h
  split at h
  all_goals try simp only [still, Prod.mk.injEq] at h
  all_goals try (obtain ⟨h, -⟩ := h)
  all_goals try cases h
  · exact map_error shown_error h
  · exact map_error shown_error h
  · exact map_error parse_error h
  · exact bind_error stringOf_error (lengthOf_error rfl) h
  · exact bind_error stringOf_error (bind_error substring_error (by rintro _ _ ⟨⟩)) h
  · exact map_error stringOf_error h
  · exact bind_error stringOf_error (bind_error stringOf_error (by rintro _ _ ⟨⟩)) h
  · exact bind_error shown_error (bind_error shown_error (by rintro _ _ ⟨⟩)) h
  · split at h <;> cases h
    exact shown_error ‹_›
  · split at h <;> cases h
  · exact map_error absolute_error h
  · split at h
    · split at h <;> cases h
      -- The text the builder begins with.
      split at ‹_ = Except.error e›
      · exact shown_error ‹_›
      · cases ‹_ = Except.error e›
    · cases h
      rfl
  · split at h
    · split at h <;> cases h
      exact shown_error ‹_›
    · cases h
      exact builderOf_error ‹_›
  · exact bind_error builderOf_error (lengthOf_error rfl) h
  · rfl

end Native

namespace Machine

variable {m : Machine}

/-- How a call begins: with nothing on the stack, at the start of a body that is there, or not with the fault of an
    instruction. -/
def Begins (m : Machine) (use : ResultUse) : Entered → Prop
  | .value _ => True
  | .frame f => f.use = use ∧ f.stack = [] ∧ f.pc = 0 ∧ ∃ x, m.routine? f.method = some x ∧ x.body = some f.body
  | .halt h => h.isInstr = false

theorem enter_begins (m : Machine) (use : ResultUse) (levels : Nat) (r : Method) (args : List Value) (w : World) :
    m.Begins use (m.enter use levels r args w).1 := by
  induction levels generalizing r args with
  | zero => exact rfl
  | succ levels ih =>
    unfold enter
    split
    · exact rfl
    · rename_i x hx
      split
      · split
        · trivial
        · exact Native.run_error ‹_›
      · split
        · -- The runtime supplies the method: it binds a delegate, or calls what one is bound to.
          split
          · exact rfl
          · split
            · split
              · exact rfl
              · split
                · unfold bindDelegate
                  split
                  · trivial
                  · exact rfl
                · split
                  · split
                    · exact rfl
                    · split
                      · exact ih ..
                      · split
                        · exact rfl
                        · exact ih ..
                  · exact rfl
            · exact rfl
        · split
          · exact ⟨rfl, rfl, rfl, x, hx, ‹_›⟩
          · split <;> exact rfl

/-- A halt that is no fault of an instruction is steady. -/
theorem halted_steady {h : Halt} {w : World} (hh : h.isInstr = false) : m.Steady (.halted h w) := by
  rintro r pc rfl
  cases hh

/-- A call goes on in steadiness, above frames that wait for it. -/
theorem proceed_steady (hm : m.Sound) (frames : List Frame) {steps : Nat} {use : ResultUse} (hw : m.Waits use frames)
    (levels : Nat) (r : Method) (args : List Value) (w : World) :
    m.Steady (proceed frames steps use (m.enter use levels r args w)) := by
  have hb := enter_begins m use levels r args w
  generalize m.enter use levels r args w = entered at hb ⊢
  obtain ⟨e, w'⟩ := entered
  cases e with
  | value v => exact deliver_steady hw
  | halt h => exact halted_steady hb
  | frame f =>
    obtain ⟨hu, hs, hpc, x, hx, hbody⟩ := hb
    refine ⟨⟨x, hx, hbody, ?_⟩, hu ▸ hw⟩
    rw [hpc, hs]
    exact (hm.body hx hbody).1.start

/-! ### Steps -/

theorem terminates_iff {op : Opcode} : op.terminates = true ↔ op = .br ∨ op = .ret := by
  cases op <;> simp [Opcode.terminates]

/-- A jump that is always made does not go on behind itself. -/
theorem exec_br {f : Frame} {w : World} {i : Instr} (h : i.op = .br) :
    (∃ n, f.exec m w i = (.jump f n, w)) ∨ ∃ c, f.exec m w i = (.fail c, w) := by
  obtain ⟨op, operand⟩ := i
  cases h
  cases operand with
  | offset n => exact .inl ⟨n, rfl⟩
  | _ => exact .inr ⟨_, rfl⟩

theorem exec_ret {f : Frame} {w : World} {i : Instr} (h : i.op = .ret) :
    f.exec m w i = (.ret (f.stack.headD .null), w) := by
  obtain ⟨op, operand⟩ := i
  cases h
  rfl

/-- A step keeps a run steady. -/
theorem Steady.step (hm : m.Sound) {s : Running} (h : m.Steady (.running s)) : m.Steady (m.step s) := by
  obtain ⟨frames, w, steps⟩ := s
  cases frames with
  | nil => trivial
  | cons f rest =>
    obtain ⟨⟨x, hx, hbody, hd⟩, hw⟩ := h
    obtain ⟨hb, hctor⟩ := hm.body hx hbody
    obtain ⟨i, hi, hpops, -⟩ := hb.instr hd
    simp only [Machine.step, hi]
    split
    · exact halted_steady rfl
    by_cases hr : i.op = .ret
    · rw [exec_ret hr]
      exact deliver_steady hw
    · have leaves := (Frame.exec_acts (m := m) (w := w) hr (fun c hc => hctor (hc ▸ hi)) hpops).leaves
      -- What an instruction leaves stands at every place that control can go to from it.
      have stands : ∀ {n : Nat} {s : List Value} {more : Nat}, Next f.body.code Instr.offset? f.pc n →
          s.length + more = i.depthAfter x.method.ret f.stack.length → m.Stands { f with stack := s, pc := n } more :=
        fun hn hs => ⟨x, hx, hbody, by rw [hs]; exact hb.next hd hi hn⟩
      have falls : i.op ≠ .br → Next f.body.code Instr.offset? f.pc (f.pc + 1) := fun hbr =>
        .fall hi (by simpa using mt terminates_iff.mp (by simp [hbr, hr]))
      have br := exec_br (m := m) (f := f) (w := w) (i := i)
      generalize f.exec m w i = out at leaves br ⊢
      obtain ⟨e, w'⟩ := out
      cases e with
      | next g =>
        obtain ⟨hg, hs⟩ := leaves
        rw [hg]
        exact ⟨stands (falls (by grind)) hs, hw⟩
      | jump g n =>
        obtain ⟨hg, hs, ht⟩ := leaves
        split at ht
        · rw [hg]
          exact ⟨stands (.branch hi ‹_› ht) hs, hw⟩
        · cases ht
      | call g use r args =>
        obtain ⟨hg, hs⟩ := leaves
        rw [hg]
        exact proceed_steady hm (_ :: rest) ⟨stands (falls (by grind)) hs, hw⟩ ..
      | ret v => exact leaves.elim
      | fail c =>
        intro r pc heq
        simp only [faultAt, Fault.runtime, Halt.fault.injEq, Fault.diagnosed.injEq, Cause.runtime.injEq,
          RuntimeCause.instruction.injEq] at heq
        exact leaves heq.2.2.2
      | missing => exact halted_steady rfl

theorem Steady.run (hm : m.Sound) (fuel : Nat) {p : Progress} (h : m.Steady p) : m.Steady (m.run fuel p) := by
  induction fuel generalizing p with
  | zero => cases p <;> exact h
  | succ fuel ih =>
    cases p with
    | running s => exact ih (h.step hm)
    | done v w => exact h
    | halted e w => exact h

/-! ### All runs -/

/-- The beginnings of runs: calls of members that exist or not, on values of any kind and in any world, and what can be
    asked for from outside. -/
inductive Beginning (m : Machine) : Progress → Prop
  | call (use : ResultUse) (levels : Nat) (r : Method) (args : List Value) (w : World) :
      Beginning m (proceed [] 0 use (m.enter use levels r args w))
  | invoke (w : World) (r : Method) (args : List Value) : Beginning m (m.invoke w r args)
  | construct (w : World) (t : Ty) (args : List Value) : Beginning m (m.construct w t args)
  | start (w : World) : Beginning m (m.start w)

theorem invoke_steady (hm : m.Sound) (w : World) (r : Method) (args : List Value) : m.Steady (m.invoke w r args) := by
  unfold invoke
  split
  · exact halted_steady rfl
  split
  · exact halted_steady rfl
  · exact proceed_steady hm [] trivial ..

theorem Beginning.steady (hm : m.Sound) {p : Progress} (h : m.Beginning p) : m.Steady p := by
  cases h with
  | call use levels r args w => exact proceed_steady hm [] trivial ..
  | invoke w r args => exact invoke_steady hm ..
  | construct w t args =>
    unfold Machine.construct
    split
    · exact halted_steady rfl
    split
    · exact halted_steady rfl
    split
    · exact halted_steady rfl
    · exact proceed_steady hm [] trivial ..
  | start w =>
    unfold Machine.start
    split
    · exact halted_steady rfl
    split
    · exact halted_steady rfl
    · exact invoke_steady hm ..

/-- A frame at an instruction of the body of member `x` is within its verified stack. -/
structure Within (m : Machine) (f : Frame) (x : Routine) (i : Instr) : Prop where
  routine : m.routine? f.method = some x
  body : x.body = some f.body
  instr : f.body.code[f.pc]? = some i
  depth : f.body.depth? x.method.ret f.pc = some f.stack.length
  bounded : f.stack.length ≤ f.body.maxStack
  pops : (i.effect x.method.ret).1 ≤ f.stack.length
  /-- The instruction sees its operands only: it does the same above any other values. -/
  operands : i.op ≠ .ret → ∀ w rest,
    let g := { f with stack := f.stack.take (i.effect x.method.ret).1 }
    ({ g with stack := g.stack ++ rest } : Frame).exec m w i = ((g.exec m w i).1.above rest, (g.exec m w i).2)
  ret : i.op = .ret → f.stack.length = if x.method.ret.any (fun t => !t.isVoid) then 1 else 0

theorem Stands.within (hm : m.Sound) {f : Frame} (h : m.Stands f 0) : ∃ x i, m.Within f x i := by
  obtain ⟨x, hx, hbody, hd⟩ := h
  obtain ⟨hb, hctor⟩ := hm.body hx hbody
  obtain ⟨i, hi, hpops, hret⟩ := hb.instr hd
  refine ⟨x, i, hx, hbody, hi, hd, hb.bounded hd, hpops, fun hr w rest => ?_, fun hr => ?_⟩
  · have hg :
        (i.effect x.method.ret).1 ≤ ({ f with stack := f.stack.take (i.effect x.method.ret).1 } : Frame).stack.length := by
      rw [List.length_take]
      exact Nat.le_min.mpr ⟨Nat.le_refl _, hpops⟩
    exact (Frame.exec_acts hr (fun c hc => hctor (hc ▸ hi)) hg).above rest
  · have hleft := hret hr
    cases hx : x.method.ret with
    | none =>
      simp [Instr.depthAfter, Instr.effect, hr, hx, stackEffect] at hleft ⊢
      exact hleft
    | some t =>
      by_cases ht : t.isVoid <;> simp [Instr.depthAfter, Instr.effect, hr, hx, stackEffect, ht] at hleft hpops ⊢ <;> omega

/-- Runs stay within the verified stack. However a run begins and wherever it stands, the innermost frame is at an
    instruction of its body, has as many values on its stack as finishing the body found for that place, no more than the
    body's largest stack and no fewer than the instruction takes, and returns with its result alone. Control never leaves
    a body. -/
theorem within_verified_stack (hm : m.Sound) {p : Progress} (hp : m.Beginning p) (fuel : Nat) :
    (∀ s f rest, m.run fuel p = .running s → s.frames = f :: rest → ∃ x i, m.Within f x i) ∧
      ∀ h w, m.run fuel p = .halted h w → ∀ r pc, h ≠ faultAt r pc .controlLeft := by
  have steady := (hp.steady hm).run hm fuel
  constructor
  · intro s f rest hrun hframes
    rw [hrun] at steady
    simp only [Steady, hframes] at steady
    exact steady.1.within hm
  · intro h w hrun
    rw [hrun] at steady
    exact steady

/-! A module with one method, which doubles its argument. -/

namespace Doubling

def type : Ty := .root { module := 0, index := Module.hostCount, assembly := "M", name := "C", isValue := false }

def int : Option Ty := (Module.new 0 .dynamic "M" "").type? TypeName.int32

def method : Method :=
  { owner := type, isCtor := false, index := 0, name := "double", attrs := ⟨3⟩, params := [int], ret := int }

def withType : Module :=
  let m := Module.new 0 .dynamic "M" ""
  { m with types := m.types.push { type, attrs := ⟨1⟩ } }

def withMethod : Module := withType.modifyDef type fun d =>
  { d with methods := d.methods.push { method, paramNames := [.empty] } }

def emissions : List Emission := [.arg .ldarg 0, .plain .dup, .plain .add, .plain .ret]

def finished : Module := ((emissions.foldl (fun m e => (m.emit method e).2) withMethod).createType type).2

theorem emitted_built {m : Module} (hb : m.Built 0) (hr : m.Has method) : ∀ es : List Emission, (∀ e ∈ es, ∀ m, e.Known m) →
    (es.foldl (fun m e => (m.emit method e).2) m).Built 0 ∧ (es.foldl (fun m e => (m.emit method e).2) m).Has method := by
  intro es
  induction es generalizing m with
  | nil => exact fun _ => ⟨hb, hr⟩
  | cons e es ih =>
    intro hk
    have change : m.Change (m.emit method e).2 := .emit e hr (hk e (by simp) m)
    exact ih (hb.change change) ((change.grows hb.checked.dynamic).has hr) fun e he => hk e (by simp [he])

theorem finished_built : finished.Built 0 := by
  have typed : withType.Built 0 := .change (.new "M" "")
    (.defineType (show Module.defineType _ "C" ⟨1⟩ none = .ok (type, withType) by decide +kernel))
  have declared : withType.Declares type := ⟨{ type, attrs := ⟨1⟩ }, by decide +kernel, rfl⟩
  have made : withMethod.Built 0 := typed.change
    (.defineMethod declared (show withType.defineMethod _ "double" ⟨3⟩ int [int] =
      .ok (method, withMethod) by decide +kernel))
  have has : withMethod.Has method := ⟨{ method, paramNames := [.empty] }, by decide +kernel, rfl⟩
  refine (emitted_built made has emissions (by simp [emissions, Emission.Known])).1.change (.createType ?_)
  have there : ((emissions.foldl (fun m e => (m.emit method e).2) withMethod).def? type).any
      (fun d => d.type = type) = true := by
    decide +kernel
  simpa [Module.Declares, Option.any_eq_true] using there

def machine : Machine := { modules := #[finished], module := 0, maxDepth := 1, isCanceled := false }

theorem machine_sound : machine.Sound := by
  have only : ∀ {k : Nat} {x : Module}, machine.modules[k]? = some x → k = 0 ∧ x = finished := by
    intro k x h
    obtain ⟨hk, rfl⟩ := Array.getElem?_eq_some_iff.mp h
    have : k = 0 := Nat.lt_one_iff.mp hk
    subst this
    exact ⟨rfl, rfl⟩
  have instances : (finished.types.all fun d => d.ctors.all fun c => c.method.isStatic = false) = true := by decide +kernel
  constructor
  · intro k x h
    obtain ⟨rfl, rfl⟩ := only h
    exact finished_built
  · intro k x h d hd c hc
    obtain ⟨rfl, rfl⟩ := only h
    simpa using Array.all_eq_true_iff_forall_mem.mp (Array.all_eq_true_iff_forall_mem.mp instances d hd) c hc

/-- Whether the argument has been pushed twice, and is to be added to itself. -/
def isDoubling : Progress → Bool
  | .running { frames := [f], .. } =>
    decide (f.stack = [.int 21, .int 21] ∧ f.body.maxStack = 2 ∧ f.body.code[f.pc]? = some { op := .add })
  | _ => false

end Doubling

/-- Before it is doubled, the argument is on the stack twice. -/
theorem within_verified_stack_doubling : ∃ s f x,
    Doubling.machine.run 2 (Doubling.machine.invoke (.initial 1 []) Doubling.method [.int 21]) = .running s ∧
      s.frames = [f] ∧ f.stack = [.int 21, .int 21] ∧ f.body.maxStack = 2 ∧ Doubling.machine.Within f x { op := .add } := by
  have runs :
      Doubling.isDoubling (Doubling.machine.run 2 (Doubling.machine.invoke (.initial 1 []) Doubling.method [.int 21])) =
      true := by
    decide +kernel
  unfold Doubling.isDoubling at runs
  split at runs
  · rename_i f w steps hrun
    obtain ⟨hs, hmax, hi⟩ := of_decide_eq_true runs
    obtain ⟨x, i, h⟩ := (within_verified_stack Doubling.machine_sound (.invoke _ _ _) 2).1 _ f [] hrun rfl
    obtain rfl : { op := .add } = i := by
      have := h.instr
      rw [hi] at this
      exact Option.some.inj this
    exact ⟨_, f, x, hrun, rfl, hs, hmax, h⟩
  · cases runs

end Machine
end CilCompiler
