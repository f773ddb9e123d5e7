import CilCompiler.Proofs.Compilation.Variables
import CilCompiler.Proofs.Lowering.Spilling
import CilCompiler.Proofs.Machine.Stretches
import CilCompiler.Proofs.Transparency

/-! Calls where static and other overloads compete. The arguments are evaluated from left to right, each one once, and
    go through temporaries; then the first overload for their types is called, with the values in their order behind
    the receiver. Nothing else changes: not what was on the stack, and no variable (`spilled_calls`). -/

namespace CilCompiler

/-! ### Temporaries of finished bodies -/

namespace Setting
variable {Γ : Setting} {locals : Array Ty} {labels : Nat} {S S' : List Slot}

theorem Types.of_stloc {j : Instr} (h : Γ.Types locals labels j S S') (hop : j.op = .stloc) :
    ∃ n, j.operand = .int (Int32.ofNat n) ∧ n ≤ 65534 ∧ n < locals.size := by
  cases h with
  | @setLoc n t u S hn ht _ => exact ⟨n, rfl, hn, (Array.getElem?_eq_some_iff.mp ht).1⟩
  | arithmetic hm _ _ | order hm _ _ | unary hm _ | test hm _ _ =>
    cases (show _ = Opcode.stloc from hop)
    simp at hm
  | callInstance _ _ _ hr => cases hr <;> cases hop
  | _ => cases hop

/-- What a typed body stores to is there. -/
theorem Typed.stored_lt {D : Draft} (h : Γ.Typed D S) {pc k : Nat} {i : Instr} (hi : D.code[pc]? = some i)
    (hlong : i.expanded = { op := .stloc, operand := .int (Int32.ofNat k) }) (hk : k ≤ 65534) : k < D.locals.size := by
  obtain ⟨layout, hc, -⟩ := h
  have hlt := (Array.getElem?_eq_some_iff.mp hi).1
  obtain ⟨T, hT⟩ := hc.stack (show pc ≤ D.code.size by omega)
  obtain ⟨T', hT'⟩ := hc.stack (show pc + 1 ≤ D.code.size by omega)
  obtain ⟨n, hn, hle, hlt⟩ := (hc.step hi hT hT').of_stloc (by rw [hlong])
  rw [hlong] at hn
  have hsame := congrArg Int32.toInt (Operand.int.inj hn)
  rw [Int32.toInt_ofNat_of_lt (by omega), Int32.toInt_ofNat_of_lt (by omega)] at hsame
  omega

end Setting

/-! ### The call -/

/-- The receiver that a method gets from a frame. -/
def Frame.receiver (f : Frame) (h : Heap) (r : Method) : List Value := if r.isStatic then [] else [h.load (.cell f.args)]

namespace Machine
variable {m : Machine} {f : Frame} {rest : List Frame} {w : World} {steps pc first : Nat} {S args : List Value}
    {c : Scope} {r : Method}

/-- Putting the receiver of a method on the stack. -/
theorem run_receiverOf (hm : m.isCanceled = false) (hcode : f.body.HasAt pc (Lower.receiverOf r))
    (hargs : r.isStatic = false → 0 < f.argCount) (n : Nat) :
    m.run ((f.receiver w.heap r).length + n) (.running { frames := f.place pc S :: rest, world := w, steps }) =
      m.run n (.running {
        frames := f.place (pc + (f.receiver w.heap r).length) (f.receiver w.heap r ++ S) :: rest
        world := w
        steps := steps + (f.receiver w.heap r).length }) := by
  unfold Lower.receiverOf at hcode
  unfold Frame.receiver
  cases hst : r.isStatic with
  | true =>
    simp only [if_true, List.length_nil, Nat.zero_add]
    rfl
  | false =>
    rw [hst, if_neg Bool.false_ne_true] at hcode
    rw [if_neg Bool.false_ne_true, List.length_singleton, Nat.add_comm]
    exact run_receiver hm hcode (hargs hst) n

/-- How a run goes on where a frame calls a method that is not virtual. A receiver that is null is refused. -/
def calling (m : Machine) (f : Frame) (rest : List Frame) (w : World) (steps : Nat) (r : Method)
    (receiver args : List Value) :
    Progress :=
  if receiver.any fun v => (w.heap.deref v).isNull then
    .halted (faultAt f.method f.pc (.callOnNull Opcode.callvirt.mnemonic r.owner.name r.name)) w
  else proceed ({ f with pc := f.pc + 1 } :: rest) steps (useOf r) (m.enter (useOf r) f.levels r (receiver ++ args) w)

theorem call_of (hm : m.isCanceled = false) (hcode : f.body.HasAt pc [Lower.callOf c r]) (hclass : c.owner.isValue = false)
    (hlen : args.length = r.params.length) (hvirtual : r.isVirtual = false) :
    m.step { frames := f.place pc (args.reverse ++ (f.receiver w.heap r ++ S)) :: rest, world := w, steps } =
      m.calling (f.place pc S) rest w (steps + 1) r (f.receiver w.heap r) args := by
  obtain ⟨⟨i, hi, hlong⟩, -⟩ := hcode
  have fetched : ∀ T, (f.place pc T).body.code[(f.place pc T).pc]? = some i := fun _ => hi
  unfold calling
  unfold Frame.receiver
  unfold Lower.callOf Lower.callOp at hlong
  cases hst : r.isStatic with
  | true =>
    rw [hst, if_pos rfl] at hlong
    rw [if_pos rfl, step_call hm (.inl rfl) (fetched _) hlong]
    exact callFrom_static hst hlen
  | false =>
    rw [hst, if_neg Bool.false_ne_true, hclass, if_neg Bool.false_ne_true] at hlong
    rw [if_neg Bool.false_ne_true, step_call hm (.inr rfl) (fetched _) hlong]
    cases hnull : (w.heap.deref (w.heap.load (.cell f.args))).isNull with
    | true =>
      rw [List.any_cons, hnull, Bool.true_or, if_pos rfl]
      exact callFrom_null hst hlen hnull
    | false =>
      rw [List.any_cons, hnull, List.any_nil, Bool.or_self, if_neg Bool.false_ne_true]
      refine (callFrom_instance hst hlen hnull).trans ?_
      rw [if_pos rfl, virtualTarget, hvirtual]
      rfl

end Machine

/-- The world in which the arguments of a call are in the temporaries of a frame from `first` on. -/
def Frame.spill (f : Frame) (first : Nat) (args : List Value) (w : World) : World :=
  { w with heap := w.heap.storeEach (((List.range' first args.length).map (f.locals + ·)).zip args.reverse) }

namespace Machine
variable {m : Machine} {f : Frame} {rest : List Frame} {w : World} {steps pc first : Nat} {S args : List Value}
    {c : Scope} {r : Method}

/-- What stands behind the arguments of a call calls the method on them. -/
theorem run_spilled (hm : m.isCanceled = false) (hcode : f.body.HasAt pc (Lower.spilledCode c first args.length r))
    (hclass : c.owner.isValue = false)
    (hslots : ∀ k ∈ List.range' first args.length, f.local? (Int32.ofNat k) = some (f.locals + k))
    (hin : ∀ k ∈ List.range' first args.length, f.locals + k < w.heap.cells.size)
    (hargs : r.isStatic = false → 0 < f.argCount)
    (hlen : args.length = r.params.length) (hvirtual : r.isVirtual = false) :
    m.run (Lower.spilledCode c first args.length r).length
        (.running { frames := f.place pc (args.reverse ++ S) :: rest, world := w, steps }) =
      m.calling (f.place (pc + (Lower.spilledCode c first args.length r).length - 1) S) rest (f.spill first args w)
        (steps + (Lower.spilledCode c first args.length r).length) r (f.receiver (f.spill first args w).heap r) args := by
  obtain ⟨hstores, hcode⟩ := hcode.append
  obtain ⟨hreceiver, hcode⟩ := hcode.append
  obtain ⟨hloads, hcall⟩ := hcode.append
  have hlength : (List.range' first args.length).length = args.length := List.length_range'
  have hreceived : (Lower.receiverOf r).length = (f.receiver (f.spill first args w).heap r).length := by
    unfold Lower.receiverOf Frame.receiver
    split
    · rfl
    · rfl
  -- The temporaries give back what was put into them.
  have loaded : ((List.range' first args.length).reverse.map fun k =>
    (f.spill first args w).heap.load (.cell (f.locals + k))).reverse =
      args.reverse := by
    rw [List.map_reverse, List.reverse_reverse]
    have gives : (((List.range' first args.length).map (f.locals + ·)).map fun n =>
        (f.spill first args w).heap.load (.cell n)) = args.reverse := by
      refine Heap.map_load_storeEach (by simp)
          (List.Nodup.map (fun a b hab => Nat.add_left_cancel hab) List.nodup_range') fun n hn => ?_
      obtain ⟨k, hk, rfl⟩ := List.mem_map.mp hn
      exact hin k hk
    rw [List.map_map] at gives
    exact gives
  have total : (Lower.spilledCode c first args.length r).length =
      (List.range' first args.length).length + ((f.receiver (f.spill first args w).heap r).length +
        ((List.range' first args.length).reverse.length + 1)) := by
    simp only [Lower.spilledCode, Lower.storesCode, Lower.loadsCode, List.length_append, List.length_map,
        List.length_singleton,
      hreceived]
  rw [Lower.storesCode, List.length_map] at hreceiver hloads hcall
  rw [hreceived] at hloads hcall
  rw [Lower.loadsCode, List.length_map] at hcall
  rw [total, run_stores hm (by simp) hstores hslots]
  change m.run _ (.running { frames := _, world := f.spill first args w, steps := _ }) = _
  rw [run_receiverOf hm hreceiver hargs, run_loads hm hloads fun k hk => hslots k (List.mem_reverse.mp hk), loaded]
  refine (call_of hm hcall hclass hlen hvirtual).trans ?_
  simp only [Nat.add_sub_cancel, ← Nat.add_assoc]

end Machine

/-! ### The arguments -/

/-- A run evaluates expressions one after the other, each one once: it goes through the code of each until it first
    comes to its end, at a given place, where the value is on top of the stack. -/
inductive Machine.Evaluates (m : Machine) (rest : List Frame) : List Nat → List Value → Running → Running → Prop
  | nil {s : Running} : Evaluates m rest [] [] s s
  | cons {stop n : Nat} {stops : List Nat} {v : Value} {vs : List Value} {f : Frame} {s s₁ s' : Running} :
      s.frames = f :: rest → m.run n (.running s) = .running s₁ → m.NoSooner s rest stop n →
      s₁.frames = f.place stop (v :: f.stack) :: rest → Evaluates m rest stops vs s₁ s' →
      Evaluates m rest (stop :: stops) (v :: vs) s s'

/-- A run that comes to a place comes there for a first time. -/
theorem Machine.first_arrival {m : Machine} {s s' : Running} {rest : List Frame} {pc n : Nat}
    (hrun : m.run n (.running s) = .running s') (hat : s'.StandsAt rest pc) :
    ∃ k ≤ n, ∃ s₁, m.run k (.running s) = .running s₁ ∧ s₁.StandsAt rest pc ∧ m.NoSooner s rest pc k := by
  induction n using Nat.strongRecOn generalizing s' with
  | ind n ih =>
    by_cases hfirst : m.NoSooner s rest pc n
    · exact ⟨n, Nat.le_refl n, s', hrun, hat, hfirst⟩
    · obtain ⟨k, hk, s₁, hs₁, hat₁⟩ : ∃ k < n, ∃ s₁, m.run k (.running s) = .running s₁ ∧ s₁.StandsAt rest pc := by
        simp only [NoSooner, not_forall, not_not] at hfirst
        obtain ⟨k, hk, s₁, hs₁, hat₁⟩ := hfirst
        exact ⟨k, hk, s₁, hs₁, hat₁⟩
      obtain ⟨j, hj, s₂, hs₂⟩ := ih k hk hs₁ hat₁
      exact ⟨j, by omega, s₂, hs₂⟩

/-- A run that comes to a place behind an expression has come to the end of the expression, with its value on the stack. -/
theorem Lower.Point.Leaves.evaluated {m : Machine} (hm : m.Fitted) {c : Scope} {y : Lower.Point} {v : Pushed} {w : Work}
    {js : List Instr} (h : y.Leaves c v w js) (hvoid : Ty.isVoidOpt v.type = false) {D : Draft}
    (hcode : w.draft.code.toList <+: D.code.toList) {f : Frame} (hr : D.ResolvesTo f.body.code)
    (hpc : f.pc = y.work.draft.code.size)
    {s s' : Running} {rest : List Frame} (hs : s.frames = f :: rest) {n stop : Nat}
    (hrun : m.run n (.running s) = .running s')
    (hat : s'.StandsAt rest stop) (hstop : w.draft.code.size ≤ stop) :
    ∃ k ≤ n, ∃ s₁ u, m.run k (.running s) = .running s₁ ∧ m.NoSooner s rest w.draft.code.size k ∧
      s₁.frames = f.place w.draft.code.size (u :: f.stack) :: rest ∧
      s.world.heap.Spares s₁.world.heap (f.Temporary y.work.draft.locals.size w.draft.locals.size) := by
  obtain ⟨hstraight, hend⟩ := h.straight hcode hr hpc rest s.world.heap
  have holds : ∀ k, m.NoSooner s rest w.draft.code.size k →
      (Stretch.of f rest s.world.heap (some c.ret) js y.work.draft.locals.size
      w.draft.locals.size).Holds (m.run k (.running s)) := fun k hk =>
    Stretch.run_holds hm hstraight (Stretch.of_holds hs) k (by rw [← hend] at hk; exact hk)
  obtain ⟨k, hk, s₁, hs₁, hat₁, hfirst⟩ : ∃ k ≤ n, ∃ s₁, m.run k (.running s) = .running s₁ ∧
      s₁.StandsAt rest w.draft.code.size ∧ m.NoSooner s rest w.draft.code.size k := by
    by_cases hnone : m.NoSooner s rest w.draft.code.size n
    · have hn := holds n hnone
      rw [hrun] at hn
      have hplace : stop ≤ f.pc + js.length := (hn.stands hat).1
      rw [show stop = w.draft.code.size by omega] at hat
      exact ⟨n, Nat.le_refl n, s', hrun, hat, hnone⟩
    · simp only [Machine.NoSooner, not_forall, not_not] at hnone
      obtain ⟨k, hk, s₁, hs₁, hat₁⟩ := hnone
      obtain ⟨j, hj, first⟩ := Machine.first_arrival hs₁ hat₁
      exact ⟨j, by omega, first⟩
  have hn := holds k hfirst
  rw [hs₁] at hn
  obtain ⟨-, X, hX, hframes⟩ := hn.stands hat₁
  have hone : X.length = 1 := by
    refine hX.trans ?_
    show Instr.heightAt _ js (w.draft.code.size - f.pc) = 1
    rw [← hend, Nat.add_sub_cancel_left]
    exact h.one hvoid
  obtain ⟨u, rfl⟩ := List.length_eq_one_iff.mp hone
  exact ⟨k, hk, s₁, u, hs₁, hfirst, hframes, hn.2⟩

/-- Arguments are evaluated from left to right, and leave their values on the stack. -/
theorem Setting.evaluates {Γ : Setting} (hΓ : Γ.Ok) (hdyn : Γ.scope.site.backend = .dynamic) {m : Machine} (hm : m.Fitted)
    {D : Draft} {rest : List Frame} {es : List Expr} {w w' : Work} {vs : List (Pushed × Work)}
    (hturn : Lower.InTurn Γ.scope es w vs w')
    (hwithin : ∀ {z : Lower.Point}, Lower.Argument Γ.scope [] es w z → Γ.Within z D.code) {s s' : Running} {f : Frame}
    (hr : D.ResolvesTo f.body.code) (hs : s.frames = f :: rest) (hpc : f.pc = w.draft.code.size) {n : Nat}
    (hrun : m.run n (.running s) = .running s') (hat : s'.StandsAt rest w'.draft.code.size)
    (hfirst : m.NoSooner s rest w'.draft.code.size n) {a b : Nat} (ha : a ≤ w.draft.locals.size)
    (hb : w'.draft.locals.size ≤ b) :
    ∃ args, m.Evaluates rest (vs.map fun v => v.2.draft.code.size) args s s' ∧ args.length = es.length ∧
      s'.frames = f.place w'.draft.code.size (args.reverse ++ f.stack) :: rest ∧
      s.world.heap.Spares s'.world.heap (f.Temporary a b) := by
  induction hturn generalizing s f n with
  | @nil w =>
    have hzero : n = 0 := by
      by_contra hn
      exact hfirst 0 (Nat.pos_of_ne_zero hn) s rfl ⟨f, hs, hpc⟩
    subst hzero
    cases hrun
    refine ⟨[], .nil, rfl, ?_, .refl _ _⟩
    rw [hs, ← hpc]
    rfl
  | @cons e es v w w₁ w' vs he hvoid hrest ih =>
    -- The run comes to the end of the first one, since it comes to that of the last one.
    obtain ⟨q, w₂, js, hleaves, hcode⟩ := (hwithin (z := ⟨e, none, false, w⟩) .first).leaves hΓ hdyn
    cases he.symm.trans hleaves.run
    have hle : w₁.draft.code.size ≤ w'.draft.code.size := by
      obtain ⟨js', hjs', -⟩ := hrest.inner.code
      rw [← Array.length_toList, ← Array.length_toList, hjs', List.length_append]
      exact Nat.le_add_right _ _
    obtain ⟨k, hk, s₁, u, hs₁, hfirst₁, hframes, hspares⟩ := hleaves.evaluated hm hvoid hcode hr hpc hs hrun hat hle
    have hlocals := hleaves.locals
    have hlocals' := hrest.inner.locals
    have onward : m.run (n - k) (.running s₁) = .running s' :=
      by rw [← hs₁, ← Machine.run_add, Nat.add_sub_cancel' hk, hrun]
    obtain ⟨args, heval, hlen, hend, hspares'⟩ := ih (fun hz => hwithin (.later he hz))
      (f := f.place w₁.draft.code.size (u :: f.stack)) hr hframes rfl onward hat
      (fun j hj s₂ hs₂ => hfirst (k + j) (by omega) s₂ (by rw [Machine.run_add, hs₁]; exact hs₂))
        (Nat.le_trans ha hlocals) hb
    refine ⟨u :: args, .cons hs hs₁ hfirst₁ hframes heval, by rw [List.length_cons, hlen]; rfl, ?_, ?_⟩
    · rw [hend, List.reverse_cons, List.append_assoc]
      rfl
    · refine (hspares.mono fun _ hw => ?_).trans hspares'
      obtain ⟨l, hlo, hhi, rfl⟩ := hw
      exact ⟨l, Nat.le_trans ha hlo, by omega, rfl⟩

/-! ### Spilled calls -/

/-- A frame evaluates the arguments of a call, whose code ends at `stops`, the last one at `behind`, moves them into
    the locals from `first` on, and at `stop` has called the method on the values in their order, behind the receiver.
    No variable has changed but for the locals from `a` to `b`, and nothing that was on the stack. -/
structure Machine.CallsOn (m : Machine) (f : Frame) (rest : List Frame) (stops : List Nat)
    (behind stop first a b : Nat) (r : Method)
    (s s' : Running) (values : List Value) : Prop where
  evaluated : m.Evaluates rest stops values s s'
  stacked : s'.frames = f.place behind (values.reverse ++ f.stack) :: rest
  kept : f.KeepsVariables a b s.world.heap s'.world.heap
  spilled : f.KeepsVariables a b s.world.heap (f.spill first values s'.world).heap
  called : m.isCanceled = false → m.run (stop - behind) (.running s') =
    m.calling (f.place (stop - 1) f.stack) rest (f.spill first values s'.world) (s'.steps + (stop - behind)) r
      (f.receiver s.world.heap r) values

theorem Lower.spilledCode_plain (c : Scope) (first n : Nat) (r : Method) :
    ∀ i ∈ spilledCode c first n r, i.op.isBranch = false := by
  intro i hi
  simp only [spilledCode, storesCode, receiverOf, loadsCode, callOf, List.mem_append, List.mem_map,
      List.mem_singleton] at hi
  rcases hi with ⟨k, -, rfl⟩ | hi | ⟨k, -, rfl⟩ | rfl
  · rfl
  · split at hi
    · cases hi
    · cases List.mem_singleton.mp hi
      rfl
  · rfl
  · show (if r.isStatic then Opcode.call else callOp c.owner).isBranch = false
    unfold callOp
    split
    · rfl
    · split
      · rfl
      · rfl

/-- The temporaries that code in a finished body stores to are there. -/
theorem Setting.Typed.temporaries {Γ : Setting} {D : Draft} {S : List Slot} (h : Γ.Typed D S) {is : List Instr}
    (his : ∀ i ∈ is, i ∈ D.code.toList) {c : Scope} {first n : Nat} {r : Method}
    (hlong : is.map Instr.expanded = Lower.spilledCode c first n r)
    (hsmall : ∀ k ∈ List.range' first n, k ≤ 65534) : ∀ k ∈ List.range' first n, k < D.locals.size := by
  intro k hk
  have hmem : ({ op := .stloc, operand := .int (Int32.ofNat k) } : Instr) ∈ is.map Instr.expanded := by
    rw [hlong]
    exact List.mem_append_left _ (List.mem_map.mpr ⟨k, hk, rfl⟩)
  obtain ⟨i, hi, hexp⟩ := List.mem_map.mp hmem
  obtain ⟨pc, hpc⟩ := Array.mem_iff_getElem?.mp (Array.mem_toList_iff.mp (his i hi))
  exact h.stored_lt hpc hexp (hsmall k hk)

/-- Moving arguments into temporaries changes no other variable. -/
theorem Frame.spill_spares (f : Frame) {first a b : Nat} {values : List Value} (ha : a ≤ first)
    (hb : first + values.length ≤ b)
    (w : World) : w.heap.Spares (f.spill first values w).heap (f.Temporary a b) := by
  refine Heap.storeEach_spares fun cv hcv => ?_
  obtain ⟨k, hk, hcell⟩ := List.mem_map.mp (List.of_mem_zip hcv).1
  have := List.mem_range'_1.mp hk
  exact ⟨k, by omega, by omega, hcell.symm⟩

/-- What stands in a finished body for a call where overloads compete makes this call. -/
theorem Setting.callsOn {Γ : Setting} (hΓ : Γ.Ok) (hdyn : Γ.scope.site.backend = .dynamic) {m : Machine} (hm : m.Fitted)
    {D : Draft} {S : List Slot} (hD : Γ.Typed D S) {f : Frame} (hr : D.ResolvesTo f.body.code)
    (hsize : f.body.locals = D.locals)
    {es : List Expr} {w wₐ w' : Work} {vs : List (Pushed × Work)} {name : Text} {r : Method}
    (hturn : Lower.InTurn Γ.scope es w vs wₐ)
    (hwithin : ∀ {z : Lower.Point}, Lower.Argument Γ.scope [] es w z → Γ.Within z D.code)
    (hspills : Lower.Spills Γ.scope name (vs.map fun v => v.1.type) wₐ r w')
    (hcode : w'.draft.code.toList <+: D.code.toList)
    (hvirtual : r.isVirtual = false) (hreceiver : 0 < f.argCount) {s s' : Running} {rest : List Frame}
    (hs : s.frames = f :: rest)
    (hstored : f.Stored s.world.heap) (hpc : f.pc = w.draft.code.size) {n : Nat} (hrun : m.run n (.running s) = .running s')
    (hat : s'.StandsAt rest wₐ.draft.code.size) (hfirst : m.NoSooner s rest wₐ.draft.code.size n) :
    ∃ values, m.CallsOn f rest (vs.map fun v => v.2.draft.code.size) wₐ.draft.code.size w'.draft.code.size
      wₐ.draft.locals.size
      w.draft.locals.size w'.draft.locals.size r s s' values := by
  have hgrown := hturn.inner.locals
  have hcount : (vs.map fun v => v.1.type).length = es.length := by rw [List.length_map, hturn.length]
  have htotal := hspills.locals
  rw [hcount] at htotal
  obtain ⟨values, hevaluates, hlen, hframes, hspares⟩ := evaluates hΓ hdyn hm hturn hwithin hr hs hpc hrun hat hfirst
    (Nat.le_refl _) (show wₐ.draft.locals.size ≤ w'.draft.locals.size by omega)
  have hspilled : s'.world.heap.Spares (f.spill wₐ.draft.locals.size values s'.world).heap
      (f.Temporary w.draft.locals.size w'.draft.locals.size) :=
    f.spill_spares hgrown (by omega) s'.world
  have kept := hstored.keeps (hspares.trans hspilled)
  have receives : f.receiver (f.spill wₐ.draft.locals.size values s'.world).heap r = f.receiver s.world.heap r := by
    unfold Frame.receiver
    rw [show f.args = f.args + 0 from rfl, kept.args hreceiver]
  refine ⟨values, hevaluates, hframes, hstored.keeps hspares, kept, fun hrunning => ?_⟩
  -- The code behind the arguments stands in the body, with its temporaries.
  obtain ⟨is, his, hlong⟩ := hspills.adds.code
  rw [hcount, ← hlen] at hlong
  obtain ⟨after, hafter⟩ := hcode
  have hall : D.code.toList = wₐ.draft.code.toList ++ is ++ after := by rw [← hafter, his]
  have hhas := hr.hasAt _ hall fun i hi => Lower.spilledCode_plain _ _ _ _ _ (hlong ▸ List.mem_map_of_mem hi)
  rw [hlong, Array.length_toList] at hhas
  have hsmall : ∀ k ∈ List.range' wₐ.draft.locals.size values.length, k ≤ 65534 := by
    rw [hlen, ← hcount]
    exact hspills.small
  have hthere : ∀ k ∈ List.range' wₐ.draft.locals.size values.length, k < f.body.locals.size := by
    rw [hsize]
    exact hD.temporaries (fun i hi => by rw [hall]; simp [hi]) hlong hsmall
  have hlength : w'.draft.code.size = wₐ.draft.code.size +
      (Lower.spilledCode Γ.scope wₐ.draft.locals.size values.length r).length := by
    rw [← hlong, List.length_map, ← Array.length_toList, ← Array.length_toList, his, List.length_append]
  have hparams : values.length = r.params.length := by
    have hsame := List.find?_some hspills.chosen
    rw [hlen, ← hcount, Ty.sameList_length hsame]
  have hstate : s' = {
      frames := f.place wₐ.draft.code.size (values.reverse ++ f.stack) :: rest
      world := s'.world
      steps := s'.steps } := by
    rw [← hframes]
  have hin := (hstored.later hspares).there
  rw [hstate, hlength, Nat.add_sub_cancel_left, Machine.run_spilled hrunning hhas hΓ.ownerObject
    (fun k hk => Frame.local?_ofNat (hthere k hk) (hsmall k hk)) (fun k hk => ?_) (fun _ => hreceiver) hparams hvirtual,
      receives]
  have := hthere k hk
  omega

/-! ### Compiled programs -/

/-- The methods of a type that have a name, in the order of their declarations. -/
def DeclaredType.overloads (d : DeclaredType) (name : Text) : List Method :=
  (d.members.map Member.method).filter fun r => !r.isCtor && r.name = name

namespace Compilation

variable {p : Program} {c₀ c c₁ c₂ : Compilation} {drafts : Method → Draft} {k : Nat} {d : DeclaredType} {x : Member}

/-- The symbols know the methods of a type in the order of their declarations. -/
theorem Stages.overloads (h : Stages p c₀ c c₁ c₂ drafts) (hd : c.types[k]? = some d) (hx : x ∈ d.members) {s : Symbols}
    (hs : c.symbols.Extends s) (name : Text) : s.methodsOf x.method.owner name = d.overloads name := by
  obtain ⟨cd, e, m, y, hof⟩ := h.described.member hd hx
  have hshaped := h.described.coherent.shaped hof.definition
  rw [Symbols.methodsOf, hs.allMethods, hof.declares.owner, ← hof.made.type,
      (h.described.coherent.lists hof.definition).methods,
    DeclaredType.overloads, hof.made.members, TypeDef.routines, List.map_append, List.filter_append]
  have noCtor : ((e.ctors.toList.map Routine.method).filter fun r => !r.isCtor && r.name = name) = [] := by
    rw [List.filter_eq_nil_iff]
    intro r hr
    obtain ⟨z, hz, rfl⟩ := List.mem_map.mp hr
    rw [(hshaped.ctor hz).2.1]
    simp
  rw [noCtor, List.nil_append]
  refine List.filter_congr fun r hr => ?_
  obtain ⟨z, hz, rfl⟩ := List.mem_map.mp hr
  rw [(hshaped.method hz).2]
  simp

/-- No method of a class is virtual. -/
theorem Stages.not_virtual (h : Stages p c₀ c c₁ c₂ drafts) (hd : c.types[k]? = some d) {name : Text} {r : Method}
    (hr : r ∈ d.overloads name) : r.isVirtual = false := by
  obtain ⟨x, hx, rfl⟩ := List.mem_map.mp (List.mem_filter.mp hr).1
  obtain ⟨cd, e, m, y, hof⟩ := h.described.member hd hx
  exact hof.declares.isVirtual

/-- A call of the enclosing type's methods in a member that has a receiver, where methods with and without a receiver
    compete for the number of its arguments, and where the name is not that of a variable that holds a delegate: it
    evaluates the arguments from left to right, each one once, and calls the first overload declared with their types,
    on their values in the same order behind the receiver, if it needs one. -/
theorem spilled_calls {p : Program} {name runtime : Text} {isCanceled : Bool} {c : Compilation}
    (h : (compile p .dynamic name runtime isCanceled).Gives c) :
    ∃ c₁, (generated p (start (Module.new 0 .dynamic name runtime))).Gives c₁ ∧ c₁.finish = .ok c ∧
      ∀ d ∈ c₁.types, ∀ x ∈ d.members, x.method.isStatic = false →
        ∃ s, Emits (c₁.scopeOf x) d x { symbols := s } (c₁.module.draft x.method) ∧
          ∀ y called args, Comes (c₁.scopeOf x) d x { symbols := s } y → y.expr = .call .missing called args →
            Lower.isDelegateVariable called (c₁.scopeOf x) y.work = .ok (false, y.work) →
            (∃ r ∈ d.overloads called, r.params.length = args.length ∧ r.isStatic = true) →
            (∃ r ∈ d.overloads called, r.params.length = args.length ∧ r.isStatic = false) →
            ∃ q w vs wₐ r, y.run (c₁.scopeOf x) = .ok (q, w) ∧
              w.draft.code.toList <+: (c₁.module.draft x.method).code.toList ∧
              Lower.InTurn (c₁.scopeOf x) args y.work vs wₐ ∧
              ((d.overloads called).find? fun r => Ty.sameList r.params (vs.map fun v => v.1.type)) = some r ∧
              ∀ (m : Machine) (st : Running) (f : Frame) (rest : List Frame), m.Loads c.module →
                m.InBody x.method st f rest →
                f.pc = y.work.draft.code.size →
                (∀ n, m.NoSooner st rest w.draft.code.size n →
                  f.Passes rest w.draft.code.size y.work.draft.locals.size w.draft.locals.size st.world.heap
                    (m.run n (.running st))) ∧
                ∀ n st', m.run n (.running st) = .running st' → st'.StandsAt rest wₐ.draft.code.size →
                  m.NoSooner st rest wₐ.draft.code.size n →
                  ∃ values, m.CallsOn f rest (vs.map fun v => v.2.draft.code.size) wₐ.draft.code.size w.draft.code.size
                    wₐ.draft.locals.size y.work.draft.locals.size w.draft.locals.size r st st' values := by
  obtain ⟨c₀, c', c₁, drafts, hgen, hs⟩ := compile_stages h
  refine ⟨c₁, hgen, hs.finished, fun d hd x hx hinst => ?_⟩
  rw [hs.types] at hd
  obtain ⟨i, hi⟩ := List.mem_iff_getElem?.mp hd
  obtain ⟨routine, body, hmember⟩ := hs.member hi hx
  obtain ⟨hcomplete, hresolves, hbodyLocals⟩ := hs.resolves hi hx hmember
  have hlowered := hs.generated.lowered (d, x) (List.mem_flatMap.mpr ⟨d, hd, List.mem_map_of_mem hx⟩)
  obtain ⟨s, hemits, -, hwithin⟩ := Lowered.within (hs.supplied hi hx) hlowered
  rw [hs.scopeOf, hs.generated.draft hs.described hi hx]
  refine ⟨s, hemits, fun y called args hy hexpr hvariable hstatic hother => ?_⟩
  obtain ⟨e, hint, asked, w₀⟩ := y
  obtain rfl : e = .call .missing called args := hexpr
  have hΓ := hs.setting_ok hi hx
  have hdyn := hs.described.coherent.dynamic
  have within := hwithin hy
  obtain ⟨S, hsound⟩ := within.fits.sound
  obtain ⟨q, w, js, hleaves, hcode⟩ := within.leaves hΓ hdyn
  have hsource : ∀ (s : Symbols), c'.symbols.Extends s →
      s.methodsOf (hs.setting x).scope.owner called = d.overloads called :=
    fun _ hx' => hs.overloads hi hx hx' called
  have hsymbols := hsource _ hsound.reads.grown
  obtain ⟨vs, wₐ, r, hargs, hturn, hspills⟩ := Lower.call_mixed_ok hdyn hleaves.run hvariable hinst
    (by rw [hsymbols]; exact hstatic) (by rw [hsymbols]; exact hother)
  have hchosen := hspills.chosen
  rw [hsource _ (hsound.reads.grown.trans (Lower.extends_stepwise.arguments 1 [] args hargs))] at hchosen
  have hprefix : wₐ.draft.code.toList <+: w.draft.code.toList := by
    obtain ⟨is, his, -⟩ := hspills.adds.code
    exact ⟨is, his.symm⟩
  have hnames : ∀ n ∈ Expr.typeNamesAll args, (settingOf _ _ _).Named n := fun n hn =>
    within.fits.names n (by simp [Expr.typeNames, hn])
  refine ⟨q, w, vs, wₐ, r, hleaves.run, hcode, hturn, hchosen, fun m st f rest hm hst hpc => ?_⟩
  obtain ⟨rfl, hstored, hreceived⟩ := hs.inBody hm hmember hst
  refine ⟨fun n hn => hleaves.passes (hm.fitted hs.shaped) hcode hresolves hpc hst.frames hstored hn,
      fun n st' hrun hat hfirst => ?_⟩
  exact Setting.callsOn hΓ hdyn (hm.fitted hs.shaped) hcomplete.typed hresolves hbodyLocals hturn
    (fun hz => ((Setting.argument_within hΓ hz hnames (fun t ht => by cases ht) hsound hargs).trans hprefix).trans
      hcode) hspills hcode
    (hs.not_virtual hi (List.mem_of_find?_eq_some hchosen)) (hreceived (by rw [hst.method]; exact hinst)) hst.frames
      hstored hpc hrun hat
    hfirst

/-- What `overlappingProgram` returns in `Run`: a call whose argument is another such call. -/
def shownTwice : Expr := .call .missing "Show" [.call .missing "Show" [.ident "Show"]]

/-- Whether a body is this and nothing else. -/
def isShownTwice : List Stmt → Bool
  | [.return (.call .missing a [.call .missing b [.ident n]])] => a = "Show" && b = "Show" && n = "Show"
  | _ => false

theorem eq_of_isShownTwice {body : List Stmt} (h : isShownTwice body = true) : body = [.return shownTwice] := by
  unfold isShownTwice at h
  split at h
  · simp only [Bool.and_eq_true, decide_eq_true_eq] at h
    obtain ⟨⟨rfl, rfl⟩, rfl⟩ := h
    rfl
  · cases h

/-- Two overloads of `Show` compete, one that needs a receiver and one that does not. A parameter of that name holds
    no delegate. -/
def overlappingProgram : Program where
  delegates := []
  classes := [{
    name := "Calc"
    fields := []
    ctors := []
    methods := [
      { name := "Show", isStatic := true, ret := "string", params := [{ name := "n", type := "int" }]
        body := [.return (.call (.ident "n") "ToString" [])] },
      { name := "Show", isStatic := false, ret := "string", params := [{ name := "s", type := "string" }]
        body := [.return (.call (.ident "string") "Concat" [.string "number ", .ident "s"])] },
      { name := "Run", isStatic := false, ret := "string", params := [{ name := "Show", type := "int" }]
        body := [.return shownTwice] },
      { name := "Main", isStatic := true, ret := "void", params := []
        body := [.expr (.call (.ident "Console") "WriteLine" [.call (.new "Calc" []) "Run" [.int 4]])] }] }]

/-- A short run of a compiled program. -/
def shortRun (c : Compilation) : Progress := (c.machine 8).run 40 ((c.machine 8).start (.initial 1 []))

/-- Whether a run is over and has printed a text. -/
def hasPrinted (t : Text) : Progress → Bool
  | .done _ w => w.output = t
  | _ => false

theorem isDelegateVariable_param {name : Text} {scope : Scope} {w : Work} {i : Nat} {t : Ty} (hlocal : w.local? name = none)
    (hparam : scope.param? name = some (i, t)) : Lower.isDelegateVariable name scope w = .ok (t.isDelegate, w) := by
  rw [Lower.isDelegateVariable, Lower.bind_of_ok (Lower.local?_run name), hlocal]
  dsimp only
  rw [Lower.bind_of_ok Lower.read_run, hparam]
  rfl

/-- Both calls are spilled ones, and the run prints what the two overloads make of the number. -/
theorem spilled_calls_sample : ∃ c, (compile overlappingProgram .dynamic "m" "v4" false).Gives c ∧
    hasPrinted "number 4\n" (shortRun c) = true ∧
    ∃ c₁, (generated overlappingProgram (start (Module.new 0 .dynamic "m" "v4"))).Gives c₁ ∧ c₁.finish = .ok c ∧
      ∃ d ∈ c₁.types, ∃ x ∈ d.members, ∃ s, x.method.isStatic = false ∧ x.body = [.return shownTwice] ∧
      Emits (c₁.scopeOf x) d x { symbols := s } (c₁.module.draft x.method) ∧
      ∃ q w vs wₐ r, Lower.expr shownTwice (some (c₁.scopeOf x).ret) false (c₁.scopeOf x) { symbols := s } = .ok (q, w) ∧
        Lower.InTurn (c₁.scopeOf x) [.call .missing "Show" [.ident "Show"]] { symbols := s } vs wₐ ∧
        ((d.overloads "Show").find? fun r => Ty.sameList r.params (vs.map fun v => v.1.type)) = some r ∧
        ∃ st f, (c.machine 8).invoke (World.initial 1 []) x.method [.null, .int 4] = .running st ∧
          (c.machine 8).InBody x.method st f [] ∧ f.pc = 0 ∧
          ∀ n st', (c.machine 8).run n (.running st) = .running st' → st'.StandsAt [] wₐ.draft.code.size →
            (c.machine 8).NoSooner st [] wₐ.draft.code.size n →
            ∃ values, (c.machine 8).CallsOn f [] (vs.map fun v => v.2.draft.code.size) wₐ.draft.code.size w.draft.code.size
              wₐ.draft.locals.size 0 w.draft.locals.size r st st' values := by
  obtain ⟨c, hc, hsample⟩ := Logged.gives_of_any (x := compile overlappingProgram .dynamic "m" "v4" false) (j := default)
    (p := fun c => decide (hasPrinted "number 4\n" (shortRun c) = true ∧
      ∃ d ∈ c.types, ∃ x ∈ d.members, x.method.isCtor = false ∧ x.method.isStatic = false ∧
      isShownTwice x.body = true ∧
      ((c.scopeOf x).param? "Show").any (fun q => !q.2.isDelegate) = true ∧
      (∃ r ∈ d.overloads "Show", r.params.length = 1 ∧ r.isStatic = true) ∧
      (∃ r ∈ d.overloads "Show", r.params.length = 1 ∧ r.isStatic = false) ∧
      ((c.machine 8).invoke (World.initial 1 []) x.method [.null, .int 4]).hasBegun x.method = true))
    (by decide +kernel)
  obtain ⟨hprints, d, hd, x, hx, hctor, hinst, hshown, hparam, hstatic, hother, hbegins⟩ := of_decide_eq_true hsample
  have hbody := eq_of_isShownTwice hshown
  obtain ⟨c₁, hgen, hfinish, hcalls⟩ := spilled_calls hc
  rw [(finish_same hfinish).1] at hd
  obtain ⟨s, hemits, hcalls⟩ := hcalls d hd x hx hinst
  obtain ⟨⟨i, t⟩, hq, hnot⟩ := (Option.any_eq_true _ _).mp hparam
  have notDelegate : Lower.isDelegateVariable "Show" (c₁.scopeOf x) { symbols := s } = .ok (false, { symbols := s }) := by
    rw [← show t.isDelegate = false by simpa using hnot]
    exact isDelegateVariable_param rfl hq
  obtain ⟨q, w, vs, wₐ, r, hrun, -, hturn, hchosen, hcalls⟩ :=
    hcalls _ _ _ (.returned hctor hbody rfl) rfl notDelegate hstatic hother
  obtain ⟨st, f, hst, body, hpc⟩ := Machine.inBody_of_hasBegun hbegins
  obtain ⟨_, _, _, _, -, hs⟩ := compile_stages hc
  exact ⟨c, hc, hprints, c₁, hgen, hfinish, d, hd, x, hx, s, hinst, hbody, hemits, q, w, vs, wₐ, r, hrun, hturn,
    hchosen, st, f, hst, body, hpc, (hcalls _ st f [] (hs.loads 8) body hpc).2⟩

/-- Whether a run has ended with a fault of a code. -/
def failsWith (code : Code) : Progress → Bool
  | .halted (.fault f) _ => f.code? = some code
  | _ => false

theorem eq_of_failsWith {code : Code} {p : Progress} (h : failsWith code p = true) :
    ∃ fault w, p = .halted (.fault fault) w ∧ fault.code? = some code := by
  unfold failsWith at h
  split at h
  · exact ⟨_, _, rfl, of_decide_eq_true h⟩
  · cases h

/-- A program that calls `Show` where this is the name of overloads that compete, and of a variable that holds a
    delegate. -/
def shadowedProgram : Program where
  delegates := [{ name := "Op", ret := "string", params := [{ name := "n", type := "int" }] }]
  classes := [{
    name := "Calc"
    fields := []
    ctors := []
    methods := [
      { name := "Show", isStatic := true, ret := "string", params := [{ name := "n", type := "int" }]
        body := [.return (.string "static")] },
      { name := "Show", isStatic := false, ret := "string", params := [{ name := "s", type := "string" }]
        body := [.return (.string "instance")] },
      { name := "Other", isStatic := true, ret := "string", params := [{ name := "n", type := "int" }]
        body := [.return (.string "delegate")] },
      { name := "Run", isStatic := false, ret := "string", params := [{ name := "Show", type := "Op" }]
        body := [.return (.call .missing "Show" [.int 4])] },
      { name := "Main", isStatic := true, ret := "void", params := []
        body := [.expr (.call (.ident "Console") "WriteLine" [.call (.new "Calc" []) "Run" [.ident "Other"]])] }] }]

/-- A variable that holds a delegate is what is called: the body calls none of the overloads, and the run prints what
    the delegate's method returns. And where a call from outside gives no receiver, the overload that needs one is not
    invoked. -/
theorem overloads_not_invoked :
    (∃ c, (compile shadowedProgram .dynamic "m" "v4" false).Gives c ∧
      (∃ d ∈ c.types, ∃ x ∈ d.members, x.method.name = "Run" ∧ x.method.isStatic = false ∧
        (∃ r ∈ d.overloads "Show", r.params.length = 1 ∧ r.isStatic = true) ∧
        (∃ r ∈ d.overloads "Show", r.params.length = 1 ∧ r.isStatic = false) ∧
        ∃ b, (c.module.routine? x.method).bind Routine.body = some b ∧
          ∀ i ∈ b.code.toList, ∀ r ∈ d.overloads "Show", i.operand ≠ .method r) ∧
      hasPrinted "delegate\n" (shortRun c) = true) ∧
    ∃ c, (compile overlappingProgram .dynamic "m" "v4" false).Gives c ∧
      ∃ d ∈ c.types, ∃ x ∈ d.members, x.method.name = "Run" ∧ x.method.isStatic = false ∧
        ∃ fault w, (c.machine 8).run 16 ((c.machine 8).invoke (World.initial 1 []) x.method [.null, .int 4]) =
          .halted (.fault fault) w ∧
          fault.code? = some Code.nullReference := by
  refine ⟨?_, ?_⟩
  · obtain ⟨c, hc, hp⟩ := Logged.gives_of_any (x := compile shadowedProgram .dynamic "m" "v4" false) (j := default)
      (p := fun c => decide ((∃ d ∈ c.types, ∃ x ∈ d.members, x.method.name = "Run" ∧ x.method.isStatic = false ∧
        (∃ r ∈ d.overloads "Show", r.params.length = 1 ∧ r.isStatic = true) ∧
        (∃ r ∈ d.overloads "Show", r.params.length = 1 ∧ r.isStatic = false) ∧
        ((c.module.routine? x.method).bind Routine.body).any (fun b =>
          decide (∀ i ∈ b.code.toList, ∀ r ∈ d.overloads "Show", i.operand ≠ .method r)) = true) ∧
        hasPrinted "delegate\n" (shortRun c) = true))
      (by decide +kernel)
    obtain ⟨⟨d, hd, x, hx, hname, hinst, hstatic, hother, hbody⟩, hprints⟩ := of_decide_eq_true hp
    obtain ⟨b, hb, hcode⟩ := (Option.any_eq_true _ _).mp hbody
    exact ⟨c, hc, ⟨d, hd, x, hx, hname, hinst, hstatic, hother, b, hb, of_decide_eq_true hcode⟩, hprints⟩
  · obtain ⟨c, hc, hp⟩ := Logged.gives_of_any (x := compile overlappingProgram .dynamic "m" "v4" false) (j := default)
      (p := fun c => decide (∃ d ∈ c.types, ∃ x ∈ d.members, x.method.name = "Run" ∧ x.method.isStatic = false ∧
        failsWith .nullReference
          ((c.machine 8).run 16 ((c.machine 8).invoke (World.initial 1 []) x.method [.null, .int 4])) = true))
      (by decide +kernel)
    obtain ⟨d, hd, x, hx, hname, hinst, hends⟩ := of_decide_eq_true hp
    exact ⟨c, hc, d, hd, x, hx, hname, hinst, eq_of_failsWith hends⟩

end Compilation
end CilCompiler
