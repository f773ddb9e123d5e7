import CilCompiler.Proofs.Compilation.Stages
import CilCompiler.Proofs.Lowering.Spilling
import CilCompiler.Proofs.Machine.Stretches
import CilCompiler.Proofs.Machine.Unfinished
import CilCompiler.Proofs.StackBalance

/-!
Expressions leave variables alone. While a frame of a compiled program runs the code of an expression, calls that this makes
included, the frame's arguments keep what they hold, and so do its locals but the temporaries of the expression.
-/

namespace CilCompiler

/-! ### Frames -/

/-- The arguments of a frame, and its locals but those from `a` to `b`, hold what they held. -/
structure Frame.KeepsVariables (f : Frame) (a b : Nat) (h h' : Heap) : Prop where
  args : ∀ {n : Nat}, n < f.argCount → h'.load (.cell (f.args + n)) = h.load (.cell (f.args + n))
  locals : ∀ {n : Nat}, n < f.body.locals.size → n < a ∨ b ≤ n →
    h'.load (.cell (f.locals + n)) = h.load (.cell (f.locals + n))

/-- A cell is a local from `a` to `b`. -/
def Frame.Temporary (f : Frame) (a b n : Nat) : Prop := ∃ k, a ≤ k ∧ k < b ∧ n = f.locals + k

/-- A run is at a place of a frame up to `stop`, or in a call that the frame makes from there, or has halted there.
    What was on the frame's stack is there still, and the frame has its variables but for the locals from `a` to `b`.
    -/
def Frame.Passes (f : Frame) (rest : List Frame) (stop a b : Nat) (h : Heap) : Progress → Prop
  | .running s => (∃ above pc X, s.frames = above ++ f.place pc (X ++ f.stack) :: rest ∧ f.pc ≤ pc ∧ pc ≤ stop) ∧
      f.KeepsVariables a b h s.world.heap
  | .halted _ w => f.KeepsVariables a b h w.heap
  | .done .. => False

namespace Frame
variable {f : Frame} {rest : List Frame} {h h' : Heap} {a b stop : Nat}

/-- Temporaries are the only variables that are written to. -/
theorem Stored.keeps (hf : f.Stored h) (hs : h.Spares h' (f.Temporary a b)) : f.KeepsVariables a b h h' := by
  have apart := hf.apart
  refine ⟨fun {n} hn => ?_, fun {n} hn hout => ?_⟩
  · have hcell : f.HasCell (f.args + n) := .inl (by omega)
    refine hs.kept (hf.lt hcell) (hf.free hcell) ?_
    rintro ⟨k, -, -, hk⟩
    omega
  · have hcell : f.HasCell (f.locals + n) := .inr (by omega)
    refine hs.kept (hf.lt hcell) (hf.free hcell) ?_
    rintro ⟨k, ha, hb, hk⟩
    omega

/-- The code of an expression writes to temporaries. -/
theorem written_temporary {i : Instr} (hi : i.Inner a b) {n : Nat} (hn : f.written? i.expanded = some n) :
    f.Temporary a b n := by
  unfold written? at hn
  split at hn
  · rename_i hop
    obtain ⟨k, hk, hlo, hhi, hmax⟩ := hi.slot hop
    have hint : (Int32.ofNat k).toInt = k := Int32.toInt_ofNat_of_lt (by omega)
    rw [hk] at hn
    simp only [local?, Operand.number, hint] at hn
    split at hn
    · cases hn
      exact ⟨k, hlo, hhi, by simp⟩
    · cases hn
  · rename_i hop
    exact absurd hop hi.arg
  · cases hn

end Frame

/-! ### Stretches of code of expressions -/

/-- The stretch of some code that a frame has come to. -/
def Stretch.of (f : Frame) (rest : List Frame) (h : Heap) (ret : Option Ty) (js : List Instr) (a b : Nat) : Stretch where
  frame := f
  rest := rest
  heap := h
  stop := f.pc + js.length
  ret := ret
  height pc := Instr.heightAt ret js (pc - f.pc)
  written := f.Temporary a b

namespace Stretch
variable {m : Machine} {f : Frame} {rest : List Frame} {h : Heap} {ret : Option Ty} {js : List Instr} {a b : Nat}

theorem of_straight (hcode : ∀ {k : Nat} {i : Instr}, js[k]? = some i → f.body.code[f.pc + k]? = some i)
    (hinner : ∀ i ∈ js, i.Inner a b)
    (hpops : ∀ {k : Nat} {i : Instr}, js[k]? = some i → (i.effect ret).1 ≤ Instr.heightAt ret js k) :
    (Stretch.of f rest h ret js a b).Straight where
  start := by simp [Stretch.of, Instr.heightAt]
  begins := Nat.le_add_right _ _
  instr {pc} hlo hhi := by
    obtain ⟨k, rfl⟩ : ∃ k, pc = f.pc + k := ⟨pc - f.pc, (Nat.add_sub_cancel' hlo).symm⟩
    have hhi : f.pc + k < f.pc + js.length := hhi
    have hk := List.getElem?_eq_getElem (show k < js.length by omega)
    have inner := hinner _ (List.mem_of_getElem? hk)
    have height : ∀ n, (Stretch.of f rest h ret js a b).height (f.pc + n) = Instr.heightAt ret js n := fun n => by
      simp [Stretch.of]
    rw [height, Nat.add_assoc, height]
    exact ⟨_, hcode hk, inner.ret, inner.branch, fun c hc => absurd hc (inner.ctor c), hpops hk, Instr.heightAt_succ ret hk,
      fun n hn => Frame.written_temporary inner hn⟩

theorem of_holds {s : Running} (hs : s.frames = f :: rest) :
    (Stretch.of f rest s.world.heap ret js a b).Holds (.running s) := by
  refine ⟨?_, .refl _ _⟩
  rw [hs]
  exact .here (c := Stretch.of f rest s.world.heap ret js a b) (X := []) (Nat.le_refl _) (Nat.le_add_right _ _)
    (by simp [Stretch.of, Instr.heightAt])

theorem Holds.passes (hf : f.Stored h) {p : Progress} (hp : (Stretch.of f rest h ret js a b).Holds p) :
    f.Passes rest (f.pc + js.length) a b h p := by
  cases p with
  | running s =>
    obtain ⟨hthrough, hspares⟩ := hp
    obtain ⟨above, pc, X, hframes, hlo, hhi, -⟩ := hthrough.split
    exact ⟨⟨above, pc, X, hframes, hlo, hhi⟩, hf.keeps hspares⟩
  | halted e w => exact hf.keeps hp
  | done v w => exact hp

end Stretch

/-- The code of an expression, in a frame of the body that it has become part of. -/
theorem Lower.Point.Leaves.straight {c : Scope} {y : Lower.Point} {q : Pushed} {w : Work} {js : List Instr}
    (h : y.Leaves c q w js) {D : Draft} (hcode : w.draft.code.toList <+: D.code.toList) {f : Frame}
    (hr : D.ResolvesTo f.body.code) (hpc : f.pc = y.work.draft.code.size) (rest : List Frame) (hp : Heap) :
    (Stretch.of f rest hp (some c.ret) js y.work.draft.locals.size w.draft.locals.size).Straight ∧
      f.pc + js.length = w.draft.code.size := by
  refine ⟨Stretch.of_straight (fun {k i} hk => ?_) h.inner h.pops, ?_⟩
  · have hD : D.code[f.pc + k]? = some i := by
      obtain ⟨after, hafter⟩ := hcode
      have hlt := (List.getElem?_eq_some_iff.mp hk).1
      rw [← Array.getElem?_toList, ← hafter, h.code, hpc, List.append_assoc, List.getElem?_append_right (by simp),
        Array.length_toList, Nat.add_sub_cancel_left, List.getElem?_append_left hlt]
      exact hk
    obtain ⟨j, hj, hres⟩ := hr.each hD
    rw [hj, hres.plain (h.inner i (List.mem_of_getElem? hk)).branch]
  · have hlen := congrArg List.length h.code
    rw [Array.length_toList, List.length_append, Array.length_toList, ← hpc] at hlen
    exact hlen.symm

/-- A run of the code of an expression, until it comes to the end of this code. -/
theorem Lower.Point.Leaves.passes {m : Machine} (hm : m.Fitted) {c : Scope} {y : Lower.Point} {q : Pushed} {w : Work}
    {js : List Instr} (h : y.Leaves c q w js) {D : Draft} (hcode : w.draft.code.toList <+: D.code.toList) {f : Frame}
    (hr : D.ResolvesTo f.body.code) (hpc : f.pc = y.work.draft.code.size) {s : Running} {rest : List Frame}
    (hs : s.frames = f :: rest) (hstored : f.Stored s.world.heap) {n : Nat} (hn : m.NoSooner s rest w.draft.code.size n) :
    f.Passes rest w.draft.code.size y.work.draft.locals.size w.draft.locals.size s.world.heap (m.run n (.running s)) := by
  obtain ⟨hstraight, hstop⟩ := h.straight hcode hr hpc rest s.world.heap
  rw [← hstop] at hn ⊢
  exact Stretch.Holds.passes hstored (Stretch.run_holds hm hstraight (Stretch.of_holds hs) n hn)

/-! ### Compiled programs -/

/-- A run that begins in a world whose objects and arrays have their cells has come to a state with a frame of a method
    innermost. -/
structure Machine.InBody (m : Machine) (r : Method) (s : Running) (f : Frame) (rest : List Frame) : Prop where
  reached : ∃ w p k, w.heap.Inside ∧ m.BeginsIn w p ∧ m.run k p = .running s
  frames : s.frames = f :: rest
  method : f.method = r

/-- Whether a run has one frame only, of a method, at the beginning of its body. -/
def Progress.hasBegun (r : Method) : Progress → Bool
  | .running s => s.frames.map Frame.pc = [0] && s.frames.map Frame.method = [r]
  | _ => false

/-- A call in the first world that has a frame is in the body of its method. -/
theorem Machine.inBody_of_hasBegun {m : Machine} {r : Method} {input : List UInt8} {args : List Value}
    (h : (m.invoke (World.initial 1 input) r args).hasBegun r = true) :
    ∃ s f, m.invoke (World.initial 1 input) r args = .running s ∧ m.InBody r s f [] ∧ f.pc = 0 := by
  cases hp : m.invoke (World.initial 1 input) r args with
  | running s =>
    rw [hp, Progress.hasBegun, Bool.and_eq_true, decide_eq_true_eq, decide_eq_true_eq] at h
    obtain ⟨f, rest, hf, hpc, hrest⟩ := List.map_eq_cons_iff.mp h.1
    obtain rfl := List.map_eq_nil_iff.mp hrest
    have reached : m.BeginsIn (World.initial 1 input) (.running s) := hp ▸ .invoke ..
    exact ⟨s, f, rfl, ⟨⟨_, _, 0, Heap.empty_inside, reached, rfl⟩, hf, by simpa [hf] using h.2⟩, hpc⟩
  | done | halted =>
    rw [hp] at h
    cases h

/-- The objects of a module whose types know their fields have cells for these. -/
theorem Machine.Loads.fitted {m : Machine} {M : Module} (hm : m.Loads M) (h : M.Shaped) : m.Fitted := by
  intro t d hd
  rw [hm.def?] at hd
  have hslots := (h (Module.def?_some hd).1).slots
  rw [Field.instances, List.countP_eq_length_filter] at hslots
  exact Nat.le_of_eq hslots

namespace Compilation
variable {p : Program} {c₀ c c₁ c₂ : Compilation} {drafts : Method → Draft} {k : Nat} {d : DeclaredType} {x : Member}

/-- A frame of a member runs the member's body, and has cells of its own and its receiver. -/
theorem Stages.inBody (h : Stages p c₀ c c₁ c₂ drafts) {m : Machine} (hm : m.Loads c₂.module) {D : Draft}
    {y : Routine} {b : Body}
    (hmember : MemberDefined c₂.module D x y b) {s : Running} {f : Frame} {rest : List Frame}
    (hs : m.InBody x.method s f rest) :
    f.body = b ∧ f.Stored s.world.heap ∧ f.Received := by
  obtain ⟨⟨w, q, n, hw, hbegins, hrun⟩, hframes, hmethod⟩ := hs
  have hmem : f ∈ s.frames := by rw [hframes]; exact List.mem_cons_self
  have stored := Machine.run_stored (hm.fitted h.shaped) n (hbegins.stored (hm.fitted h.shaped) hw)
  have bodied := Machine.run_each m.bodied_carries n (hbegins.each m.bodied_carries)
  have received := Machine.run_each m.received_carries n (hbegins.each m.received_carries)
  rw [hrun] at stored bodied received
  obtain ⟨y', hy', hbody⟩ := bodied f hmem
  rw [hm.routine?, hmethod, hmember.routine] at hy'
  cases hy'
  exact ⟨Option.some_inj.mp (hbody.symm.trans hmember.body), stored.2 f hmem, received f hmem⟩

/-- While a frame of a compiled program runs the code of an expression, until it comes to the end of this code, it
    keeps all its variables but the temporaries of the expression, which are no named locals. -/
theorem expressions_keep_variables {p : Program} {name runtime : Text} {isCanceled : Bool} {c : Compilation}
    (h : (compile p .dynamic name runtime isCanceled).Gives c) :
    ∃ c₁, (generated p (start (Module.new 0 .dynamic name runtime))).Gives c₁ ∧ c₁.finish = .ok c ∧
      ∀ d ∈ c₁.types, ∀ x ∈ d.members, ∃ s, Emits (c₁.scopeOf x) d x { symbols := s } (c₁.module.draft x.method) ∧
        ∀ y, Comes (c₁.scopeOf x) d x { symbols := s } y →
          ∃ q w, y.run (c₁.scopeOf x) = .ok (q, w) ∧ w.draft.code.toList <+: (c₁.module.draft x.method).code.toList ∧
            w.locals = y.work.locals ∧ (∀ n l, (n, l) ∈ y.work.locals → l.index < y.work.draft.locals.size) ∧
            ∀ (m : Machine) (st : Running) (f : Frame) (rest : List Frame), m.Loads c.module → m.InBody x.method st f rest →
              f.pc = y.work.draft.code.size → ∀ n, m.NoSooner st rest w.draft.code.size n →
              f.Passes rest w.draft.code.size y.work.draft.locals.size w.draft.locals.size st.world.heap
                (m.run n (.running st)) := by
  obtain ⟨c₀, c', c₁, drafts, hgen, hs⟩ := compile_stages h
  refine ⟨c₁, hgen, hs.finished, fun d hd x hx => ?_⟩
  rw [hs.types] at hd
  obtain ⟨i, hi⟩ := List.mem_iff_getElem?.mp hd
  obtain ⟨routine, body, hmember⟩ := hs.member hi hx
  obtain ⟨-, hresolves, -⟩ := hs.resolves hi hx hmember
  have hlowered := hs.generated.lowered (d, x) (List.mem_flatMap.mpr ⟨d, hd, List.mem_map_of_mem hx⟩)
  obtain ⟨s, hemits, -, hwithin⟩ := Lowered.within (hs.supplied hi hx) hlowered
  rw [hs.scopeOf, hs.generated.draft hs.described hi hx]
  refine ⟨s, hemits, fun y hy => ?_⟩
  have within := hwithin hy
  obtain ⟨S, hsound⟩ := within.fits.sound
  obtain ⟨q, w, js, hleaves, hcode⟩ := within.leaves (hs.setting_ok hi hx) hs.described.coherent.dynamic
  refine ⟨q, w, hleaves.run, hcode, hleaves.names, fun n l hl => (Array.getElem?_eq_some_iff.mp (hsound.names hl)).1, ?_⟩
  intro m st f rest hm hst hpc n hn
  obtain ⟨rfl, hstored, -⟩ := hs.inBody hm hmember hst
  exact hleaves.passes (hm.fitted hs.shaped) hcode hresolves hpc hst.frames hstored hn

/-- What the first method of the sample returns: a value is stored to a temporary, on which a member is called. -/
def shownSum : Expr := .call (.binary .add (.ident "n") (.int 1)) "ToString" []

/-- Whether a body is this and nothing else. -/
def isShownSum : List Stmt → Bool
  | [.return (.call (.binary .add (.ident n) (.int k)) name [])] => n = "n" && k = 1 && name = "ToString"
  | _ => false

theorem eq_of_isShownSum {body : List Stmt} (h : isShownSum body = true) : body = [.return shownSum] := by
  unfold isShownSum at h
  split at h
  · simp only [Bool.and_eq_true, decide_eq_true_eq] at h
    obtain ⟨⟨rfl, rfl⟩, rfl⟩ := h
    rfl
  · cases h

theorem expressions_keep_variables_sample : ∃ c, (compile sampleProgram .dynamic "m" "v4" false).Gives c ∧
    ∃ c₁, (generated sampleProgram (start (Module.new 0 .dynamic "m" "v4"))).Gives c₁ ∧ c₁.finish = .ok c ∧
      ∃ d ∈ c₁.types, ∃ x ∈ d.members, ∃ s, x.body = [.return shownSum] ∧
      Emits (c₁.scopeOf x) d x { symbols := s } (c₁.module.draft x.method) ∧
      ∃ q w st f, Lower.expr shownSum (some (c₁.scopeOf x).ret) false (c₁.scopeOf x) { symbols := s } = .ok (q, w) ∧
        (c.machine 8).invoke (World.initial 1 []) x.method [.int 4] = .running st ∧
        (c.machine 8).InBody x.method st f [] ∧ f.pc = 0 ∧
        ∀ n, (c.machine 8).NoSooner st [] w.draft.code.size n →
          f.Passes [] w.draft.code.size 0 w.draft.locals.size st.world.heap ((c.machine 8).run n (.running st)) := by
  obtain ⟨c, hc, hsample⟩ := Logged.gives_of_any (x := compile sampleProgram .dynamic "m" "v4" false) (j := default)
    (p := fun c => decide (∃ d ∈ c.types, ∃ x ∈ d.members, x.method.isCtor = false ∧
      isShownSum x.body = true ∧
      ((c.machine 8).invoke (World.initial 1 []) x.method [.int 4]).hasBegun x.method = true))
    (by decide +kernel)
  obtain ⟨d, hd, x, hx, hctor, hshown, hbegins⟩ := of_decide_eq_true hsample
  have hbody := eq_of_isShownSum hshown
  obtain ⟨c₁, hgen, hfinish, hkeeps⟩ := expressions_keep_variables hc
  rw [(finish_same hfinish).1] at hd
  obtain ⟨s, hemits, hkeeps⟩ := hkeeps d hd x hx
  obtain ⟨q, w, hrun, -, -, -, hkeeps⟩ := hkeeps _ (.returned hctor hbody rfl)
  obtain ⟨st, f, hst, body, hpc⟩ := Machine.inBody_of_hasBegun hbegins
  obtain ⟨_, _, _, _, -, hs⟩ := compile_stages hc
  exact ⟨c, hc, c₁, hgen, hfinish, d, hd, x, hx, s, hbody, hemits, q, w, st, f, hrun, hst, body, hpc,
    hkeeps _ st f [] (hs.loads 8) body hpc⟩

end Compilation
end CilCompiler
