import CilCompiler.Proofs.Machine.Cells
import CilCompiler.Proofs.Machine.Delegates

/-! Temporaries. A frame takes values off its stack into locals, one after the other (`run_stores`), and puts locals
    back on its stack (`run_loads`). Where the locals are distinct, what is loaded is what was stored
    (`Heap.load_storeEach`).

Straight stretches of code. A frame that comes to code without branches and returns goes through it to the end, as far
as the run gets: calls that it makes run above it, what was on its stack stays below what the code puts there, and no
cell of it is written but by its own stores. `Stretch.Holds` says so of every state in between (`Stretch.run_holds`).
-/

namespace CilCompiler

/-! ### Cells -/

namespace Heap

/-- The heap with values stored in cells, one after the other. -/
def storeEach (h : Heap) (cvs : List (Nat × Value)) : Heap := cvs.foldl (fun h cv => h.store (.cell cv.1) cv.2) h

variable {h : Heap} {cvs : List (Nat × Value)} {n : Nat}

theorem storeEach_cons (h : Heap) (n : Nat) (v : Value) (cvs : List (Nat × Value)) :
    h.storeEach ((n, v) :: cvs) = (h.store (.cell n) v).storeEach cvs := rfl

theorem storeEach_spares {W : Nat → Prop} (hW : ∀ cv ∈ cvs, W cv.1) : h.Spares (h.storeEach cvs) W := by
  induction cvs generalizing h with
  | nil => exact .refl _ _
  | cons cv cvs ih =>
    obtain ⟨hcv, hW⟩ := List.forall_mem_cons.mp hW
    exact (Spares.store cv.2 (.inr hcv)).trans (ih hW)

theorem load_store_self (hn : n < h.cells.size) (v : Value) : (h.store (.cell n) v).load (.cell n) = v := by
  simp [store, load, hn]

theorem load_store_ne {k : Nat} (hk : n ≠ k) (v : Value) : (h.store (.cell n) v).load (.cell k) = h.load (.cell k) := by
  simp [store, load, hk]

theorem load_storeEach_of_not_mem (hn : n ∉ cvs.map Prod.fst) : (h.storeEach cvs).load (.cell n) = h.load (.cell n) := by
  induction cvs generalizing h with
  | nil => rfl
  | cons cv cvs ih =>
    rw [List.map_cons, List.mem_cons, not_or] at hn
    obtain ⟨k, v⟩ := cv
    rw [storeEach_cons, ih hn.2, load_store_ne (Ne.symm hn.1)]

/-- A cell that is stored to once holds what was stored. -/
theorem load_storeEach (hd : (cvs.map Prod.fst).Nodup) (hin : ∀ cv ∈ cvs, cv.1 < h.cells.size) :
    ∀ cv ∈ cvs, (h.storeEach cvs).load (.cell cv.1) = cv.2 := by
  induction cvs generalizing h with
  | nil => exact fun cv hcv => by cases hcv
  | cons cv cvs ih =>
    obtain ⟨k, v⟩ := cv
    rw [List.map_cons, List.nodup_cons] at hd
    obtain ⟨hk, hin⟩ := List.forall_mem_cons.mp hin
    refine List.forall_mem_cons.mpr ⟨?_, fun cv hcv => ih hd.2 (fun cv hcv => ?_) cv hcv⟩
    · rw [storeEach_cons, load_storeEach_of_not_mem hd.1, load_store_self hk]
    · rw [show (h.store (.cell k) v).cells.size = h.cells.size by simp [store]]
      exact hin cv hcv

/-- Cells that are stored to give back the values in their order. -/
theorem map_load_storeEach {cells : List Nat} {vs : List Value} (hlen : vs.length = cells.length) (hd : cells.Nodup)
    (hin : ∀ n ∈ cells, n < h.cells.size) : (cells.map fun n => (h.storeEach (cells.zip vs)).load (.cell n)) = vs := by
  have hfst : (cells.zip vs).map Prod.fst = cells := List.map_fst_zip (Nat.le_of_eq hlen.symm)
  have hsnd : (cells.zip vs).map Prod.snd = vs := List.map_snd_zip (Nat.le_of_eq hlen)
  have hload : ∀ cv ∈ cells.zip vs, (h.storeEach (cells.zip vs)).load (.cell cv.1) = cv.2 :=
    load_storeEach (by rw [hfst]; exact hd) fun cv hcv => hin cv.1 (by rw [← hfst]; exact List.mem_map_of_mem hcv)
  calc (cells.map fun n => (h.storeEach (cells.zip vs)).load (.cell n))
      = (((cells.zip vs).map Prod.fst).map fun n => (h.storeEach (cells.zip vs)).load (.cell n)) := by rw [hfst]
    _ = (cells.zip vs).map Prod.snd := by
      rw [List.map_map]
      exact List.map_congr_left hload
    _ = vs := hsnd

end Heap

/-! ### Runs -/

/-- A body has code at a place, and more code behind it. -/
theorem Body.HasAt.append {b : Body} {is js : List Instr} {pc : Nat} (h : b.HasAt pc (is ++ js)) :
    b.HasAt pc is ∧ b.HasAt (pc + is.length) js := by
  induction is generalizing pc with
  | nil => exact ⟨trivial, h⟩
  | cons i is ih =>
    obtain ⟨hi, hrest⟩ := h
    obtain ⟨his, hjs⟩ := ih hrest
    refine ⟨⟨hi, his⟩, ?_⟩
    rw [List.length_cons, Nat.add_comm is.length, ← Nat.add_assoc]
    exact hjs

namespace Machine
variable {m : Machine} {f : Frame} {rest : List Frame} {w : World} {steps pc : Nat} {S : List Value}

/-- A frame takes values off its stack into locals. -/
theorem run_stores (hm : m.isCanceled = false) {slots : List Nat} {vs : List Value} (hlen : vs.length = slots.length)
    (hcode : f.body.HasAt pc (slots.map fun k => { op := .stloc, operand := .int (Int32.ofNat k) }))
    (hslots : ∀ k ∈ slots, f.local? (Int32.ofNat k) = some (f.locals + k)) (n : Nat) :
    m.run (slots.length + n) (.running { frames := f.place pc (vs ++ S) :: rest, world := w, steps }) =
      m.run n (.running {
        frames := f.place (pc + slots.length) S :: rest
        world := { w with heap := w.heap.storeEach ((slots.map (f.locals + ·)).zip vs) }
        steps := steps + slots.length }) := by
  induction slots generalizing vs w pc steps with
  | nil =>
    obtain rfl := List.length_eq_zero_iff.mp hlen
    simp only [List.length_nil, Nat.zero_add]
    rfl
  | cons k slots ih =>
    obtain ⟨v, vs, rfl⟩ := List.exists_cons_of_length_eq_add_one hlen
    obtain ⟨⟨i, hi, hi'⟩, hcode⟩ := hcode
    obtain ⟨hk, hslots⟩ := List.forall_mem_cons.mp hslots
    have stores : (f.place pc (v :: (vs ++ S))).execLong m w { op := .stloc, operand := .int (Int32.ofNat k) } =
        (.next (f.place pc (vs ++ S)), { w with heap := w.heap.store (.cell (f.locals + k)) v }) := by
      show (f.place pc (v :: (vs ++ S))).storeCell w (f.local? (Int32.ofNat k)) = _
      rw [hk]
      rfl
    rw [List.length_cons, show slots.length + 1 + n = slots.length + n + 1 by omega, List.cons_append,
      run_next hm hi hi' stores, ih (Nat.succ_inj.mp hlen) hcode hslots,
        show pc + 1 + slots.length = pc + (slots.length + 1) by omega,
      show steps + 1 + slots.length = steps + (slots.length + 1) by omega]
    rfl

/-- A frame puts locals on its stack. -/
theorem run_loads (hm : m.isCanceled = false) {slots : List Nat}
    (hcode : f.body.HasAt pc (slots.map fun k => { op := .ldloc, operand := .int (Int32.ofNat k) }))
    (hslots : ∀ k ∈ slots, f.local? (Int32.ofNat k) = some (f.locals + k)) (n : Nat) :
    m.run (slots.length + n) (.running { frames := f.place pc S :: rest, world := w, steps }) =
      m.run n (.running {
        frames := f.place (pc + slots.length) ((slots.map fun k => w.heap.load (.cell (f.locals + k))).reverse ++ S) :: rest
        world := w
        steps := steps + slots.length }) := by
  induction slots generalizing S pc steps with
  | nil =>
    simp only [List.length_nil, Nat.zero_add]
    rfl
  | cons k slots ih =>
    obtain ⟨⟨i, hi, hi'⟩, hcode⟩ := hcode
    obtain ⟨hk, hslots⟩ := List.forall_mem_cons.mp hslots
    have loads : (f.place pc S).execLong m w { op := .ldloc, operand := .int (Int32.ofNat k) } =
        (.next (f.place pc (w.heap.load (.cell (f.locals + k)) :: S)), w) := by
      show ((f.place pc S).loadCell w.heap (f.local? (Int32.ofNat k)), w) = _
      rw [hk]
      rfl
    rw [List.length_cons, show slots.length + 1 + n = slots.length + n + 1 by omega,
        run_next hm hi hi' loads, ih hcode hslots,
      show pc + 1 + slots.length = pc + (slots.length + 1) by omega,
      show steps + 1 + slots.length = steps + (slots.length + 1) by
        omega, List.map_cons, List.reverse_cons, List.append_assoc]
    rfl

/-- A frame puts its receiver on its stack. -/
theorem run_receiver (hm : m.isCanceled = false) (hcode : f.body.HasAt pc [{ op := .ldarg, operand := .int 0 }])
    (hargs : 0 < f.argCount) (n : Nat) :
    m.run (n + 1) (.running { frames := f.place pc S :: rest, world := w, steps }) =
      m.run n (.running {
        frames := f.place (pc + 1) (w.heap.load (.cell f.args) :: S) :: rest, world := w, steps := steps + 1 }) := by
  obtain ⟨⟨i, hi, hi'⟩, -⟩ := hcode
  have hcell : f.arg? 0 = some f.args := by simp [Frame.arg?, hargs]
  have loads : (f.place pc S).execLong m w { op := .ldarg, operand := .int 0 } =
      (.next (f.place pc (w.heap.load (.cell f.args) :: S)), w) := by
    show ((f.place pc S).loadCell w.heap (f.arg? 0), w) = _
    rw [hcell]
    rfl
  exact run_next hm hi hi' loads n

end Machine

/-- The innermost frame is at a place, above the others. -/
def Running.StandsAt (s : Running) (rest : List Frame) (pc : Nat) : Prop := ∃ f, s.frames = f :: rest ∧ f.pc = pc

/-- A run does not stand at a place before `n` steps are over. -/
def Machine.NoSooner (m : Machine) (s : Running) (rest : List Frame) (pc n : Nat) : Prop :=
  ∀ k < n, ∀ s', m.run k (.running s) = .running s' → ¬s'.StandsAt rest pc

/-- A stretch of code that a frame has come to. -/
structure Stretch where
  /-- The frame at the start. -/
  frame : Frame
  /-- The frames below it. -/
  rest : List Frame
  /-- The heap at the start. -/
  heap : Heap
  /-- The place behind the last instruction. -/
  stop : Nat
  ret : Option Ty
  /-- How many values are on the stack at a place, above those that were there at the start. -/
  height : Nat → Nat
  /-- The cells that the code writes. -/
  written : Nat → Prop

namespace Stretch

/-- The code goes on from each instruction to the next, which finds its operands above what was on the stack. -/
structure Straight (c : Stretch) : Prop where
  start : c.height c.frame.pc = 0
  begins : c.frame.pc ≤ c.stop
  instr : ∀ {pc : Nat}, c.frame.pc ≤ pc → pc < c.stop → ∃ i, c.frame.body.code[pc]? = some i ∧ i.op ≠ .ret ∧
    i.op.isBranch = false ∧
    (∀ k, i = { op := .call, operand := .ctor k } → k.isStatic = false) ∧ (i.effect c.ret).1 ≤ c.height pc ∧
    c.height (pc + 1) = i.depthAfter c.ret (c.height pc) ∧ ∀ n, c.frame.written? i.expanded = some n → c.written n

/-- The frame is in the stretch, with `more` values still to come to the stack of the innermost frame, and the frames
    above it have cells that were not there at the start. -/
inductive Through (c : Stretch) : (more : Nat) → List Frame → Prop
  | here {more pc : Nat} {X : List Value} : c.frame.pc ≤ pc → pc ≤ c.stop → X.length + more = c.height pc →
      Through c more (c.frame.place pc (X ++ c.frame.stack) :: c.rest)
  | above {more : Nat} {g : Frame} {gs : List Frame} : (∀ {n : Nat}, g.HasCell n → c.heap.cells.size ≤ n) →
      Through c g.use.pushes gs → Through c more (g :: gs)

/-- A run is in the stretch or has halted there, and has written to no other cells of the frame. -/
def Holds (c : Stretch) : Progress → Prop
  | .running s => c.Through 0 s.frames ∧ c.heap.Spares s.world.heap c.written
  | .halted _ w => c.heap.Spares w.heap c.written
  | .done .. => False

end Stretch

/-- A frame writes to its own cells. -/
theorem Frame.hasCell_of_written {f : Frame} {i : Instr} {n : Nat} (h : f.written? i = some n) : f.HasCell n := by
  have local? : ∀ {k : Int32}, f.local? k = some n → f.HasCell n := by
    intro k hk
    unfold Frame.local? at hk
    split at hk
    · cases hk
      exact .inr (by omega)
    · cases hk
  have arg? : ∀ {k : Int32}, f.arg? k = some n → f.HasCell n := by
    intro k hk
    unfold Frame.arg? at hk
    split at hk
    · cases hk
      exact .inl (by omega)
    · cases hk
  unfold Frame.written? at h
  split at h
  · exact local? h
  · exact arg? h
  · cases h

namespace Stretch
variable {m : Machine} {c : Stretch} {w : World} {frames : List Frame} {use : ResultUse}

theorem deliver_holds (h : c.Through use.pushes frames) (hw : c.heap.Spares w.heap c.written) (steps : Nat) (v : Value) :
    c.Holds (Machine.deliver frames w steps use v) := by
  cases h with
  | @here _ pc X hlo hhi hX =>
    refine ⟨?_, hw⟩
    cases use with
    | drop => exact .here hlo hhi hX
    | push => exact .here (X := v :: X) hlo hhi hX
    | object o => exact .here (X := o :: X) hlo hhi hX
  | above hnew hgs =>
    refine ⟨?_, hw⟩
    cases use with
    | drop => exact .above hnew hgs
    | push => exact .above hnew hgs
    | object o => exact .above hnew hgs

theorem proceed_holds (h : c.Through use.pushes frames) (hw : c.heap.Spares w.heap c.written)
    (steps levels : Nat) (r : Method)
    (args : List Value) : c.Holds (Machine.proceed frames steps use (m.enter use levels r args w)) := by
  have begins := Machine.enter_begins m use levels r args w
  cases he : m.enter use levels r args w with
  | mk e w' =>
  rw [he] at begins
  obtain ⟨spares, new⟩ := Machine.enter_spares he c.written
  cases e with
  | value v => exact deliver_holds h (hw.trans spares) steps v
  | halt e => exact hw.trans spares
  | frame g =>
    obtain ⟨huse, -⟩ := begins
    refine ⟨.above (fun hn => Nat.le_trans hw.size ((new g rfl).1 hn)) ?_, hw.trans spares⟩
    rw [huse]
    exact h

/-- The frame itself runs an instruction of the stretch. -/
theorem here_holds (hm : m.Fitted) (hc : c.Straight) {pc : Nat} {X : List Value} (hlo : c.frame.pc ≤ pc) (hhi : pc < c.stop)
    (hX : X.length = c.height pc) (hw : c.heap.Spares w.heap c.written) (steps : Nat) :
    c.Holds (m.step { frames := c.frame.place pc (X ++ c.frame.stack) :: c.rest, world := w, steps }) := by
  obtain ⟨i, hi, hret, hbranch, hctor, hpops, hheight, hwritten⟩ := hc.instr hlo hhi
  rcases m.step_cases (c.frame.place pc (X ++ c.frame.stack)) c.rest w steps with ⟨h, hs⟩ | ⟨j, hj, hs⟩
  · rw [hs]
    exact hw
  · cases hi.symm.trans hj
    rw [hs]
    -- The instruction sees what the stretch has put on the stack, and nothing below.
    have needs : (i.effect c.ret).1 ≤ (c.frame.place pc X).stack.length := hX ▸ hpops
    have acts := Frame.exec_acts (m := m) (w := w) hret hctor needs
    have spares := (c.frame.place pc X).exec_spares (w := w) hm i
    have hw' := hw.later spares fun _ hn => hwritten _ hn
    have leaves := acts.leaves
    have hexec : (c.frame.place pc (X ++ c.frame.stack)).exec m w i =
        (((c.frame.place pc X).exec m w i).1.above c.frame.stack, ((c.frame.place pc X).exec m w i).2) :=
          acts.above c.frame.stack
    rw [hexec]
    rw [hbranch] at leaves
    generalize (c.frame.place pc X).exec m w i = out at leaves hw' ⊢
    obtain ⟨e, w'⟩ := out
    have hdepth : (c.frame.place pc X).stack.length - (i.effect c.ret).1 + (i.effect c.ret).2 = c.height (pc + 1) := by
      rw [hheight, ← hX]
      rfl
    rw [hdepth] at leaves
    have moved : ∀ {g : Frame} {more : Nat}, g = { c.frame.place pc X with stack := g.stack } →
        g.stack.length + more = c.height (pc + 1) →
        c.Through more ({ g with stack := g.stack ++ c.frame.stack, pc := g.pc + 1 } :: c.rest) := by
      intro g more hg hlen
      have hpc : g.pc = pc := by rw [hg]; rfl
      rw [hpc, hg]
      exact .here (X := g.stack) (Nat.le_succ_of_le hlo) hhi hlen
    cases e with
    | next g => exact ⟨moved leaves.1 leaves.2, hw'⟩
    | jump g n => cases leaves.2.2
    | call g use r args => exact proceed_holds (moved leaves.1 leaves.2) hw' ..
    | ret v => exact leaves.elim
    | fail e => exact hw'
    | missing => exact hw'

/-- A frame above runs an instruction. -/
theorem above_holds (hm : m.Fitted) {g : Frame} {gs : List Frame} (hnew : ∀ {n : Nat}, g.HasCell n → c.heap.cells.size ≤ n)
    (h : c.Through g.use.pushes gs) (hw : c.heap.Spares w.heap c.written) (steps : Nat) :
    c.Holds (m.step { frames := g :: gs, world := w, steps }) := by
  rcases m.step_cases g gs w steps with ⟨h, hs⟩ | ⟨i, -, hs⟩
  · rw [hs]
    exact hw
  · rw [hs]
    have spares := g.exec_spares (w := w) hm i
    have stays := g.exec_stays (m := m) (w := w) i
    have hw' : c.heap.Spares (g.exec m w i).2.heap c.written := hw.later spares fun hn hn' => by
      have := hnew (Frame.hasCell_of_written hn')
      omega
    generalize g.exec m w i = out at stays hw'
    obtain ⟨e, w'⟩ := out
    have moved : ∀ {f : Frame} {pc more : Nat}, f = { g with stack := f.stack } → c.Through more ({ f with pc } :: gs) := by
      intro f pc more hf
      rw [hf]
      exact .above hnew h
    cases e with
    | next f => exact ⟨moved stays, hw'⟩
    | jump f n => exact ⟨moved stays.1, hw'⟩
    | call f use r args => exact proceed_holds (moved stays.1) hw' ..
    | ret v => exact deliver_holds h hw' ..
    | fail e => exact hw'
    | missing => exact hw'

/-- A step keeps a run in a stretch that it has not come to the end of. -/
theorem step_holds (hm : m.Fitted) (hc : c.Straight) {s : Running} (h : c.Holds (.running s))
    (hs : ¬s.StandsAt c.rest c.stop) :
    c.Holds (m.step s) := by
  obtain ⟨frames, w, steps⟩ := s
  obtain ⟨hthrough, hw⟩ := h
  cases hthrough with
  | @here _ pc X hlo hhi hX =>
    have hne : pc ≠ c.stop := fun he => hs ⟨_, rfl, he⟩
    exact here_holds hm hc hlo (by omega) hX hw steps
  | above hnew hgs => exact above_holds hm hnew hgs hw steps

/-- A run stays in a stretch until it comes to its end. -/
theorem run_holds (hm : m.Fitted) (hc : c.Straight) {s : Running} (h : c.Holds (.running s)) (n : Nat)
    (hn : m.NoSooner s c.rest c.stop n) : c.Holds (m.run n (.running s)) := by
  induction n with
  | zero => exact h
  | succ n ih =>
    have holds := ih fun k hk => hn k (by omega)
    have stands := hn n (Nat.lt_succ_self n)
    rw [Machine.run_add]
    cases hp : m.run n (.running s) with
    | running s' =>
      rw [hp] at holds
      exact step_holds hm hc holds (stands s' hp)
    | done v w =>
      rw [hp] at holds
      exact holds.elim
    | halted e w =>
      rw [hp] at holds
      exact holds

/-! ### Where a run is -/

/-- Frames in a stretch are those above the frame, the frame and those below it. -/
theorem Through.split {c : Stretch} {more : Nat} {frames : List Frame} (h : c.Through more frames) :
    ∃ above pc X, frames = above ++ c.frame.place pc (X ++ c.frame.stack) :: c.rest ∧ c.frame.pc ≤ pc ∧ pc ≤ c.stop ∧
      (above = [] → X.length + more = c.height pc) := by
  induction h with
  | @here more pc X hlo hhi hX => exact ⟨[], pc, X, rfl, hlo, hhi, fun _ => hX⟩
  | @above more g gs _ _ ih =>
    obtain ⟨above, pc, X, rfl, hlo, hhi, -⟩ := ih
    exact ⟨g :: above, pc, X, rfl, hlo, hhi, fun h => by cases h⟩

/-- A run that stands at a place of the frame stands in the stretch, with as many values on the stack as are counted
    there. -/
theorem Holds.stands {c : Stretch} {s : Running} {pc : Nat} (hs : c.Holds (.running s)) (hat : s.StandsAt c.rest pc) :
    pc ≤ c.stop ∧ ∃ X, X.length = c.height pc ∧ s.frames = c.frame.place pc (X ++ c.frame.stack) :: c.rest := by
  obtain ⟨g, hframes, rfl⟩ := hat
  obtain ⟨above, pc, X, hsplit, -, hhi, hX⟩ := hs.1.split
  rw [hframes] at hsplit
  obtain rfl : above = [] := by simpa using congrArg List.length hsplit
  cases hsplit
  exact ⟨hhi, X, hX rfl, hframes⟩

end Stretch
end CilCompiler
