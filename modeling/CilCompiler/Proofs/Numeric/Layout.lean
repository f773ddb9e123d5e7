import CilCompiler.Proofs.Machine.Height
import CilCompiler.Proofs.Numeric.Semantics
import Mathlib.Data.List.Nodup

/-!
Names in frames. A frame that runs a lowered body has a cell for every name in scope, and no two names share one; the
cells hold what the names hold in the reference semantics (`Holds`). Code that has been emitted stands in the body, in
the place where it was emitted (`Hosts.next`, `Hosts.branch`).
-/

namespace CilCompiler.Numeric

/-- The cell of a name: that of its local, or else of its argument. -/
def cell? (c : Scope) (W : Work) (f : Frame) (x : Text) : Option Nat :=
  match W.local? x with
  | some l => some (f.locals + l.index)
  | none => (c.param? x).map fun p => f.args + p.1

/-- The cells of names hold the numbers that the names hold. -/
def Holds (c : Scope) (W : Work) (f : Frame) (w : World) (σ : Slots) : Prop :=
  ∀ ⦃x : Text⦄ ⦃n : Nat⦄, cell? c W f x = some n → w.heap.cells[n]? = some (.int (σ x))

/-- Locals hold numbers. Their names differ, from each other and from those of parameters, and so do their places. -/
structure Tidy (c : Scope) (w : Work) : Prop where
  numbers : ∀ e ∈ w.locals, ∃ t k, w.draft.locals[e.2.index]? = some t ∧ t.kind? = some k
  distinct : (w.locals.map fun e => e.2.index).Nodup
  names : (w.locals.map Prod.fst).Nodup
  fresh : ∀ e ∈ w.locals, c.param? e.1 = none ∧ e.1.isEmpty = false

/-- A frame runs the body that was lowered to `W`, as a call from outside. -/
structure Hosts (m : Machine) (c : Scope) (W : Work) (f : Frame) : Prop where
  live : m.isCanceled = false
  dynamic : c.site.backend = .dynamic
  code : W.draft.ResolvesTo f.body.code
  locals : f.body.locals = W.draft.locals
  use : f.use = .push
  tidy : Tidy c W
  params : ∀ p ∈ c.params, p.2.1 < f.argCount
  paramsDistinct : (c.params.map fun p => p.2.1).Nodup
  apart : f.args + f.argCount ≤ f.locals

theorem find?_name {α : Type} {l : List (Text × α)} {x : Text} {a : α}
    (h : (l.find? fun e => e.1 = x).map Prod.snd = some a) :
    (x, a) ∈ l := by
  obtain ⟨⟨y, b⟩, hf, rfl⟩ := Option.map_eq_some_iff.mp h
  have hy : y = x := by simpa using List.find?_some hf
  exact hy ▸ List.mem_of_find?_eq_some hf

/-! ### Names -/

theorem Tidy.index {c : Scope} {w : Work} (h : Tidy c w) (e : Text × LocalSlot) (he : e ∈ w.locals) :
    e.2.index < w.draft.locals.size := by
  obtain ⟨t, -, ht, -⟩ := h.numbers e he
  exact (Array.getElem?_eq_some_iff.mp ht).1

theorem Tidy.local?_of_mem {c : Scope} {w : Work} {x : Text} {l : LocalSlot} (h : Tidy c w) (hl : (x, l) ∈ w.locals) :
    w.local? x = some l := by
  cases hx : w.local? x with
  | some k =>
    have heq := List.inj_on_of_nodup_map h.names (find?_name hx) hl rfl
    simp only [Prod.mk.injEq, true_and] at heq
    rw [heq]
  | none =>
    rw [Work.local?, Option.map_eq_none_iff, List.find?_eq_none] at hx
    simpa using hx _ hl

/-- A name keeps its local. -/
theorem Tidy.local?_kept {c : Scope} {w W : Work} {x : Text} {l : LocalSlot} (h : Tidy c W) (hg : w.Grows W)
    (hl : w.local? x = some l) : W.local? x = some l :=
  h.local?_of_mem (hg.names.subset (find?_name hl))

/-- No local takes the name of a parameter. -/
theorem Tidy.local?_param {c : Scope} {w : Work} {x : Text} {p : Nat × Ty} (h : Tidy c w) (hp : c.param? x = some p) :
    w.local? x = none := by
  cases hx : w.local? x with
  | none => rfl
  | some l =>
    have := (h.fresh _ (find?_name hx)).1
    rw [hp] at this
    cases this

namespace Hosts
variable {m : Machine} {c : Scope} {W w w' : Work} {f : Frame} {world world' : World} {σ : Slots} {x y : Text} {n : Nat}

/-! ### Cells -/

/-- No two names share a cell. -/
theorem cell?_inj (h : Hosts m c W f) (hx : cell? c W f x = some n) (hy : cell? c W f y = some n) : x = y := by
  unfold cell? at hx hy
  have arg_lt : ∀ {z : Text} {p : Nat × Ty}, c.param? z = some p → p.1 < f.argCount := fun hp => h.params _ (find?_name hp)
  have apart := h.apart
  cases hlx : W.local? x with
  | some l =>
    rw [hlx] at hx
    cases hly : W.local? y with
    | some k =>
      rw [hly] at hy
      have hlk : l.index = k.index := by
        simp only [Option.some.injEq] at hx hy
        omega
      exact congrArg Prod.fst (List.inj_on_of_nodup_map h.tidy.distinct (find?_name hlx) (find?_name hly) hlk)
    | none =>
      rw [hly] at hy
      obtain ⟨p, hp, hy⟩ := Option.map_eq_some_iff.mp hy
      have := arg_lt hp
      simp only [Option.some.injEq] at hx
      omega
  | none =>
    rw [hlx] at hx
    obtain ⟨p, hp, hx⟩ := Option.map_eq_some_iff.mp hx
    have := arg_lt hp
    cases hly : W.local? y with
    | some k =>
      rw [hly] at hy
      simp only [Option.some.injEq] at hy
      omega
    | none =>
      rw [hly] at hy
      obtain ⟨q, hq, hy⟩ := Option.map_eq_some_iff.mp hy
      have hpq : p.1 = q.1 := by omega
      exact congrArg Prod.fst (List.inj_on_of_nodup_map h.paramsDistinct (find?_name hp) (find?_name hq) hpq)

/-- Storing a number in a cell that belongs to no other name. -/
theorem store (hσ : Holds c W f world σ) (hn : ∀ {z}, cell? c W f z = some n → z = x)
    (hx : ∀ {k}, cell? c W f x = some k → k = n)
    (v : Int32) : Holds c W f { world with heap := world.heap.store (.cell n) (.int v) } (σ.set x v) := by
  intro z k hz
  have hz' := hσ hz
  simp only [Heap.store, Array.getElem?_setIfInBounds, Slots.set]
  by_cases hzx : z = x
  · subst hzx
    have hlt := (Array.getElem?_eq_some_iff.mp hz').1
    obtain rfl := hx hz
    simp [hlt]
  · have hkn : n ≠ k := fun heq => hzx (hn (heq ▸ hz))
    simp only [hkn, if_false, hzx]
    exact hz'

theorem load (hσ : Holds c W f world σ) (hx : cell? c W f x = some n) : world.heap.load (.cell n) = .int (σ x) := by
  have := hσ hx
  simp [Heap.load, Array.getD_eq_getD_getElem?, this]

theorem local?_cell (h : Hosts m c W f) {i : Nat} (hlt : i < W.draft.locals.size) (hle : i ≤ 65534) :
    f.local? (Int32.ofNat i) = some (f.locals + i) := by
  have hi : (Int32.ofNat i).toInt = i := Int32.toInt_ofNat_of_lt (by omega)
  simp only [Frame.local?, hi, h.locals]
  rw [if_pos (by omega)]
  simp

theorem local?_eq (h : Hosts m c W f) {l : LocalSlot} (hl : W.local? x = some l) (hle : l.index ≤ 65534) :
    cell? c W f x = some (f.locals + l.index) ∧ f.local? (Int32.ofNat l.index) = some (f.locals + l.index) :=
  ⟨by simp [cell?, hl], h.local?_cell (h.tidy.index _ (find?_name hl)) hle⟩

theorem arg?_eq (h : Hosts m c W f) {i : Nat} {t : Ty} (hl : W.local? x = none) (hp : c.param? x = some (i, t))
    (hle : i ≤ 65534) :
    cell? c W f x = some (f.args + i) ∧ f.arg? (Int32.ofNat i) = some (f.args + i) := by
  have hlt := h.params _ (find?_name hp)
  have hi : (Int32.ofNat i).toInt = i := Int32.toInt_ofNat_of_lt (by omega)
  refine ⟨by simp [cell?, hl, hp], ?_⟩
  simp only [Frame.arg?, hi]
  rw [if_pos (by dsimp only at hlt; omega)]
  simp

/-! ### Code -/

/-- Where an emission stands in the body. -/
theorem emitted (h : Hosts m c W f) {e : Emission} {u : Unit} (he : Lower.emit e c w = .ok (u, w')) (hg : w'.Grows W) :
    w'.draft.code.size = w.draft.code.size + 1 ∧
      ∃ i j, e.encode c.site = .ok i ∧ f.body.code[w.draft.code.size]? = some j ∧ W.draft.Resolves i j := by
  obtain ⟨i, hi, rfl⟩ := (Lower.emit_ok h.dynamic).mp he
  refine ⟨by simp [Draft.push], ?_⟩
  have hW : W.draft.code[w.draft.code.size]? = some i := by
    have := hg.code
    simp only [Draft.push, Array.toList_push] at this
    rw [← Array.getElem?_toList]
    exact List.prefix_iff_getElem?.mp this w.draft.code.size (by simp) |>.trans (by simp)
  obtain ⟨j, hj, hr⟩ := h.code.each hW
  exact ⟨i, j, hi, hj, hr⟩

/-- Runs an instruction that is no branch as its long form. -/
theorem exec (h : Hosts m c W f) {e : Emission} {u : Unit} (he : Lower.emit e c w = .ok (u, w')) (hg : w'.Grows W)
    (hb : e.long.op.isBranch = false) : w'.draft.code.size = w.draft.code.size + 1 ∧
      ∃ j, f.body.code[w.draft.code.size]? = some j ∧ ∀ (g : Frame) (world : World),
        g.exec m world j = g.execLong m world e.long := by
  obtain ⟨hsize, i, j, hi, hj, hr⟩ := h.emitted he hg
  have hlong := Emission.encode_long hi
  obtain rfl := hr.plain (by rw [← Instr.isBranch_expanded, hlong]; exact hb)
  exact ⟨hsize, j, hj, fun g world => by rw [Frame.exec, hlong]⟩

theorem next (h : Hosts m c W f) {e : Emission} {u : Unit} (he : Lower.emit e c w = .ok (u, w')) (hg : w'.Grows W)
    (hb : e.long.op.isBranch = false) {S S' : List Value}
    (hx : (f.place w.draft.code.size S).execLong m world e.long = (.next (f.place w.draft.code.size S'), world')) :
    m.Goes (f.place w.draft.code.size S) world (f.place w'.draft.code.size S') world' := by
  obtain ⟨hsize, j, hj, hexec⟩ := h.exec he hg hb
  rw [hsize]
  exact Machine.Goes.next h.live hj ((hexec _ _).trans hx)

theorem fails (h : Hosts m c W f) {e : Emission} {u : Unit} (he : Lower.emit e c w = .ok (u, w')) (hg : w'.Grows W)
    (hb : e.long.op.isBranch = false) {S : List Value} {k : InstrCause}
    (hx : (f.place w.draft.code.size S).execLong m world e.long = (.fail k, world')) :
    m.Ends (f.place w.draft.code.size S) world (.halted (Machine.faultAt f.method w.draft.code.size k) world') := by
  obtain ⟨-, j, hj, hexec⟩ := h.exec he hg hb
  exact Machine.Ends.fail h.live hj ((hexec _ _).trans hx)

theorem returns (h : Hosts m c W f) {u : Unit} (he : Lower.emit (.plain .ret) c w = .ok (u, w')) (hg : w'.Grows W)
    (S : List Value) :
    m.Ends (f.place w.draft.code.size S) world (.done (S.headD .null) world) := by
  obtain ⟨-, j, hj, hexec⟩ := h.exec he hg rfl
  exact Machine.Ends.ret h.live hj h.use (hexec _ _)

/-- A branch stands in the body with the place where its label is marked. -/
theorem branch (h : Hosts m c W f) {op : Opcode} {l : Label} {u : Unit}
    (he : Lower.emit (.label op (some l)) c w = .ok (u, w'))
    (hg : w'.Grows W) (hl : W.draft.marks[l.id]? = some (some n)) :
    w'.draft.code.size = w.draft.code.size + 1 ∧ f.body.code[w.draft.code.size]? = some { op, operand := .offset n } := by
  obtain ⟨hsize, i, j, hi, hj, hr⟩ := h.emitted he hg
  have hlabel : Emission.encodeLabel c.site op (some l) = .ok i := hi
  obtain ⟨l', hl', rfl⟩ := Emission.encodeLabel_ok hlabel
  cases hl'
  have hoff : j.offset? = some n := by
    rw [hr.target]
    simp [Draft.target?, hl]
  obtain ⟨op', operand⟩ := j
  have hop : op' = op := hr.op
  subst hop
  refine ⟨hsize, ?_⟩
  rw [hj]
  cases operand <;> simp_all [Instr.offset?]

/-- A branch goes to its place, or on. -/
theorem branches (h : Hosts m c W f) {op : Opcode} {l : Label} {u : Unit}
    (he : Lower.emit (.label op (some l)) c w = .ok (u, w'))
    (hg : w'.Grows W) (hl : W.draft.marks[l.id]? = some (some n)) {S S' : List Value} (taken : Bool)
    (hx : (f.place w.draft.code.size S).exec m world { op, operand := .offset n } =
      (if taken then .jump (f.place w.draft.code.size S') n else .next (f.place w.draft.code.size S'), world)) :
    m.Goes (f.place w.draft.code.size S) world (f.place (if taken then n else w'.draft.code.size) S') world := by
  obtain ⟨hsize, hj⟩ := h.branch he hg hl
  cases taken with
  | true => exact Machine.Goes.jump h.live hj hx
  | false =>
    simp only [Bool.false_eq_true, if_false] at hx ⊢
    rw [hsize]
    exact Machine.Goes.next h.live hj hx

end Hosts

end CilCompiler.Numeric
