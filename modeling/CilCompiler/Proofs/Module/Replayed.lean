import CilCompiler.Module.Balance
import CilCompiler.Proofs.Outcome

/-! The stack of a listed body. A listing counts the values on the stack while instructions are recorded; replaying
    the recorded instructions counts them again (`replay`). The two counts agree (`listed_replay`) but for one way to
    go wrong: a `ret` that returns a value and is refused because of others below it takes its value off the count and
    is not recorded. From then on the count is too low, and a body that leaves a value on the stack can be finished
    (`refused_return_counted`). -/

namespace CilCompiler

/-! ### Replaying -/

/-- What a replay has counted. -/
structure Replay where
  /-- The values on the stack. -/
  depth : Nat := 0
  /-- The most values there have been on the stack. -/
  peak : Nat := 0
  /-- The most values that a `ret` has left there. -/
  left : Nat := 0
deriving DecidableEq

namespace Replay

/-- Replays an instruction of a method that returns `ret`; it must find its operands. -/
def step (ret : Option Ty) (r : Replay) (i : Instr) : Option Replay :=
  let (pops, pushes) := i.effect ret
  if r.depth < pops then none
  else
    let depth := r.depth - pops + pushes
    some { depth, peak := max r.peak depth, left := if i.op = .ret then max r.left depth else r.left }

end Replay

/-- Replays instructions from an empty stack. -/
def replay (ret : Option Ty) (code : Array Instr) : Option Replay := code.toList.foldlM (Replay.step ret) {}

theorem replay_push {ret : Option Ty} {code : Array Instr} {i : Instr} {r : Replay} (h : replay ret code = some r) :
    replay ret (code.push i) = r.step ret i := by
  rw [replay] at h
  rw [replay, Array.toList_push, List.foldlM_append, h]
  simp [List.foldlM]

/-! ### Bodies of a listing -/

namespace Draft

/-- The values that a refused emission takes off the count all the same: those of a `ret` that would leave others behind. -/
def taken (s : Site) (d : Draft) (e : Emission) : Nat :=
  match e.encode s with
  | .ok i => if i.op = .ret ∧ (i.effect s.method.ret).1 < d.depth then (i.effect s.method.ret).1 else 0
  | .error _ => 0

/-- The bodies of `m` that calls on a listing lead to, refused calls included, with the number of values that refused
    emissions took off the count. -/
inductive Listed (m : Method) : (lost : Nat) → Draft → Prop
  | new : Listed m 0 {}
  | emit {lost : Nat} {d : Draft} {s : Site} (e : Emission) : Listed m lost d → s.backend = .textual → s.method = m →
      Listed m (lost + d.taken s e) (d.emit s e).2
  | declareLocal {lost : Nat} {d d' : Draft} {s : Site} {t : Option Ty} {l : LocalSlot} :
      Listed m lost d → s.backend = .textual →
      s.method = m → d.declareLocal s t = .ok (l, d') → Listed m lost d'

/-- A body's count agrees with the replay of its instructions, but for values that are lost. -/
structure Agrees (ret : Option Ty) (lost : Nat) (d : Draft) (r : Replay) : Prop where
  replay : replay ret d.code = some r
  depth : r.depth = d.depth + lost
  peak : d.peak ≤ r.peak ∧ r.peak ≤ d.peak + lost
  left : r.left ≤ lost
  inside : d.depth ≤ d.peak

/-- A return puts nothing on the stack. -/
theorem effect_ret (ret : Option Ty) {i : Instr} (h : i.op = .ret) : (i.effect ret).2 = 0 := by
  obtain ⟨op, x⟩ := i
  cases h
  simp only [Instr.effect, stackEffect]
  split
  · split <;> rfl
  · rfl

section Record
variable {s : Site} {d : Draft} {i : Instr} {lost : Nat} {r : Replay}

/-- What becomes of an instruction of a listing: its operands are missing, it is a `ret` that would leave others
    behind, or it is recorded. -/
theorem record_cases (hs : s.backend = .textual) (d : Draft) (i : Instr) :
    (d.depth < (i.effect s.method.ret).1 ∧ (d.record s i).2 = d) ∨
    ((i.op = .ret ∧ (i.effect s.method.ret).1 < d.depth) ∧
      d.record s i = (.error (.backend (.returnLeaves (d.depth - (i.effect s.method.ret).1))),
        { d with
          depth := d.depth - (i.effect s.method.ret).1,
          peak := max d.peak (d.depth - (i.effect s.method.ret).1) })) ∨
    ((i.effect s.method.ret).1 ≤ d.depth ∧ (i.op = .ret → d.depth = (i.effect s.method.ret).1) ∧
      (d.record s i).2 = { d with
        code := d.code.push i,
        depth := d.depth - (i.effect s.method.ret).1 + (i.effect s.method.ret).2,
        peak := max d.peak (d.depth - (i.effect s.method.ret).1 + (i.effect s.method.ret).2) }) := by
  have hret := effect_ret s.method.ret (i := i)
  unfold record
  rw [hs]
  dsimp only
  by_cases hlow : d.depth < (i.effect s.method.ret).1
  · rw [if_pos hlow]
    exact .inl ⟨hlow, rfl⟩
  rw [if_neg hlow]
  by_cases hleaves : i.op = .ret ∧ d.depth - (i.effect s.method.ret).1 + (i.effect s.method.ret).2 ≠ 0
  · rw [if_pos hleaves, hret hleaves.1, Nat.add_zero]
    rw [hret hleaves.1] at hleaves
    exact .inr (.inl ⟨⟨hleaves.1, by omega⟩, rfl⟩)
  · rw [if_neg hleaves]
    refine .inr (.inr ⟨by omega, fun hi => ?_, rfl⟩)
    have hempty : d.depth - (i.effect s.method.ret).1 + (i.effect s.method.ret).2 = 0 := Decidable.byContradiction fun hn =>
      hleaves ⟨hi, hn⟩
    omega

/-- An instruction that is recorded is counted as a replay counts it, and one that is refused is not counted, unless
    it is a `ret` that would leave values behind. -/
theorem Agrees.record (hs : s.backend = .textual) (h : d.Agrees s.method.ret lost r) (i : Instr) :
    ∃ r', (d.record s i).2.Agrees s.method.ret
      (lost + if i.op = .ret ∧ (i.effect s.method.ret).1 < d.depth then (i.effect s.method.ret).1 else 0) r' := by
  obtain ⟨hreplay, hdepth, hpeak, hleft, hinside⟩ := h
  rcases record_cases hs d i with ⟨hlow, hd⟩ | ⟨hleaves, hd⟩ | ⟨hfound, hret, hd⟩
  · rw [hd, if_neg (fun hc => by omega)]
    exact ⟨r, hreplay, hdepth, hpeak, hleft, hinside⟩
  · rw [hd, if_pos hleaves]
    exact ⟨r, hreplay, by dsimp only; omega, by dsimp only; omega, by omega, by dsimp only; omega⟩
  · rw [hd, if_neg (fun hc => by have := hret hc.1; omega)]
    have hnone := effect_ret s.method.ret (i := i)
    generalize hpops : (i.effect s.method.ret).1 = pops at *
    generalize hpushes : (i.effect s.method.ret).2 = pushes at *
    have hstep : r.step s.method.ret i = some {
        depth := r.depth - pops + pushes
        peak := max r.peak (r.depth - pops + pushes)
        left := if i.op = .ret then max r.left (r.depth - pops + pushes) else r.left } := by
      simp only [Replay.step, hpops, hpushes]
      exact if_neg (by omega)
    refine ⟨_, (replay_push hreplay).trans hstep, ?_, ?_, ?_, ?_⟩
    all_goals dsimp only
    · omega
    · omega
    · -- A recorded `ret` leaves no more than has been lost.
      split
      · rename_i hi
        have := hret hi
        have := hnone hi
        omega
      · omega
    · omega

end Record

/-- Whatever is asked of a listed body, a replay finds all operands and counts the values that refused emissions took
    on top. -/
theorem Listed.agrees {m : Method} {lost : Nat} {d : Draft} (h : Listed m lost d) : ∃ r, d.Agrees m.ret lost r := by
  induction h with
  | new => exact ⟨{}, rfl, rfl, by decide, Nat.le_refl _, Nat.le_refl _⟩
  | @emit lost d s e _ hs hm ih =>
    obtain ⟨r, hr⟩ := ih
    subst hm
    unfold taken Draft.emit
    cases e.encode s with
    | ok i => exact hr.record hs i
    | error f => exact ⟨r, hr⟩
  | declareLocal _ _ _ hd ih =>
    obtain ⟨r, hreplay, hdepth, hpeak, hleft, hinside⟩ := ih
    obtain ⟨_, -, hd⟩ := bind_eq_ok.mp hd
    split at hd
    · cases hd
      exact ⟨r, hreplay, hdepth, hpeak, hleft, hinside⟩
    · cases hd

/-- A return of a method without a value takes nothing. -/
theorem effect_ret_void {ret : Option Ty} (hret : ∀ t, ret = some t → t.isVoid = true) {i : Instr} (h : i.op = .ret) :
    (i.effect ret).1 = 0 := by
  obtain ⟨op, x⟩ := i
  cases h
  cases ret with
  | none => rfl
  | some t =>
    show (if t.isVoid = true then (0, 0) else (1, 0) : Nat × Nat).1 = 0
    rw [if_pos (hret t rfl)]

/-- Nothing is lost in a method without a value to return. -/
theorem Listed.lost_of_void {m : Method} (hm : ∀ t, m.ret = some t → t.isVoid = true) {lost : Nat} {d : Draft}
    (h : Listed m lost d) :
    lost = 0 := by
  induction h with
  | new => rfl
  | @emit lost d s e _ _ hs ih =>
    subst ih hs
    unfold taken
    cases e.encode s with
    | error f => rfl
    | ok i =>
      dsimp only
      split
      · rename_i hc
        rw [effect_ret_void hm hc.1]
      · rfl
  | declareLocal _ _ _ _ ih => exact ih

/-! ### What a listing counts -/

theorem settle_ok {d : Draft} {b : Body} (h : d.settle = .ok b) :
    d.code ≠ #[] ∧ d.depth = 0 ∧ b = { code := d.code, locals := d.locals, maxStack := d.peak } := by
  unfold settle at h
  split at h
  · cases h
  · rename_i hne
    split at h
    · cases h
    · rename_i hd
      cases h
      exact ⟨fun hc => hne (by rw [hc]; rfl), Decidable.byContradiction hd, rfl⟩

/-- Whatever calls led to a listed body, accepted and refused ones: replayed from an empty stack, its instructions
    find their operands, and what is on the stack behind them is what the body has counted and the values that refused
    returns took off the count, which are none in a method without a value to return. When none were lost, the depth
    and the maximum are those of the replay, each `ret` leaves nothing, and a body that is finished leaves nothing and
    has the true maximum. -/
theorem listed_replay {m : Method} {lost : Nat} {d : Draft} (h : Listed m lost d) :
    (∃ r, replay m.ret d.code = some r ∧ r.depth = d.depth + lost ∧ d.peak ≤ r.peak ∧
      r.peak ≤ d.peak + lost ∧ r.left ≤ lost) ∧
    ((∀ t, m.ret = some t → t.isVoid = true) → lost = 0) ∧
    (lost = 0 → replay m.ret d.code = some { depth := d.depth, peak := d.peak, left := 0 } ∧
      ∀ b, d.settle = .ok b → b.code ≠ #[] ∧ replay m.ret b.code = some { depth := 0, peak := b.maxStack, left := 0 }) := by
  obtain ⟨r, hreplay, hdepth, hpeak, hleft, -⟩ := h.agrees
  refine ⟨⟨r, hreplay, hdepth, hpeak.1, hpeak.2, hleft⟩, fun hm => h.lost_of_void hm, fun hlost => ?_⟩
  have hsame : r = { depth := d.depth, peak := d.peak, left := 0 } := by
    obtain ⟨depth, peak, left⟩ := r
    simp only [Replay.mk.injEq]
    dsimp only at hdepth hpeak hleft
    omega
  have hexact := hsame ▸ hreplay
  refine ⟨hexact, fun b hb => ?_⟩
  obtain ⟨hne, hzero, rfl⟩ := settle_ok hb
  exact ⟨hne, hzero ▸ hexact⟩

/-! One instruction after another. -/

/-- Asks for instructions one after another, whatever the answers; gives the body and the number of values that were
    lost. -/
def emitAll (s : Site) (d : Draft) (es : List Emission) : Nat × Draft :=
  es.foldl (fun (lost, d) e => (lost + d.taken s e, (d.emit s e).2)) (0, d)

theorem listed_emitAll {s : Site} (hs : s.backend = .textual) (es : List Emission) :
    Listed s.method (emitAll s {} es).1 (emitAll s {} es).2 := by
  unfold emitAll
  suffices hrun : ∀ (lost : Nat) (d : Draft), Listed s.method lost d →
      Listed s.method (es.foldl (fun (x : Nat × Draft) e => (x.1 + x.2.taken s e, (x.2.emit s e).2)) (lost, d)).1
        (es.foldl (fun (x : Nat × Draft) e => (x.1 + x.2.taken s e, (x.2.emit s e).2)) (lost, d)).2 from hrun 0 {} .new
  induction es with
  | nil => exact fun _ _ h => h
  | cons e es ih => exact fun _ _ h => ih _ _ (h.emit e hs rfl)

/-- The body of a static method of a listing that returns a number. -/
def numberSite : Site where
  backend := .textual
  moduleName := "M"
  isSealed := false
  method :=
    { owner := .root { module := 0, index := 1, assembly := "M", name := "A", isValue := false }
      isCtor := false, index := 0, name := "F", attrs := .statics, params := []
      ret := some (.root { module := 0, index := 0, assembly := "mscorlib", name := TypeName.int32, isValue := true }) }

/-- The sum of two numbers is returned, though a call without operands was refused on the way. -/
theorem listed_replay_sum : ∃ d b, Listed numberSite.method 0 d ∧ d.settle = .ok b ∧
    b.code = #[{ op := .ldc2 }, { op := .ldc3 }, { op := .add }, { op := .ret }] ∧
    replay numberSite.method.ret b.code = some { depth := 0, peak := 2, left := 0 } := by
  have h := listed_emitAll (s := numberSite) rfl [.plain .pop, .int .ldc 2, .int .ldc 3, .plain .add, .plain .ret]
  have hsettle : (emitAll numberSite {} [.plain .pop, .int .ldc 2, .int .ldc 3, .plain .add, .plain .ret]).2.settle =
    .ok { code := #[{ op := .ldc2 }, { op := .ldc3 }, { op := .add }, { op := .ret }], locals := #[], maxStack := 2 } :=
      by rfl
  exact ⟨_, _, h, hsettle, rfl, (((listed_replay h).2.2 rfl).2 _ hsettle).2⟩

/-- A `ret` with two values on the stack is refused, but one of them is off the count: the body is finished behind a
    `pop`, with a value left on the stack. -/
theorem refused_return_counted : ∃ d b, Listed numberSite.method 1 d ∧ d.settle = .ok b ∧
    b.code = #[{ op := .ldc1 }, { op := .ldc2 }, { op := .pop }] ∧ d.depth = 0 ∧
    replay numberSite.method.ret b.code = some { depth := 1, peak := 2, left := 0 } :=
  ⟨_, _, listed_emitAll (s := numberSite) rfl [.int .ldc 1, .int .ldc 2, .plain .ret, .plain .pop],
    (by rfl : _ = Except.ok { code := #[{ op := .ldc1 }, { op := .ldc2 }, { op := .pop }], locals := #[], maxStack := 2 }),
    rfl, by decide +kernel, by decide +kernel⟩

end Draft
end CilCompiler
