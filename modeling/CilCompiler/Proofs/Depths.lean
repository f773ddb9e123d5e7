import CilCompiler.Proofs.Depths.Search
import CilCompiler.Proofs.Outcome

/-!
Finishing a body is exact. A body in the making, however it was built, is accepted exactly when it is not
empty, every branch goes to a label marked inside it, and there is a depth assignment; the largest stack is
then the largest depth, branches hold the marked positions, and no order of the search changes the answer.
-/

namespace CilCompiler

namespace Draft

/-! ### Bodies in the making -/

/-- The bodies of `m` in the making that calls on a dynamic module lead to, refused calls included. -/
inductive Built (m : Method) : Draft → Prop
  | new : Built m {}
  | emit {d : Draft} {s : Site} (e : Emission) : Built m d → s.backend = .dynamic → s.method = m → Built m (d.emit s e).2
  | declareLocal {d d' : Draft} {s : Site} {t : Option Ty} {l : LocalSlot} : Built m d → s.backend = .dynamic →
      s.method = m → d.declareLocal s t = .ok (l, d') → Built m d'
  | defineLabel {d d' : Draft} {s : Site} {l : Label} : Built m d → s.backend = .dynamic → s.method = m →
      d.defineLabel s = .ok (l, d') → Built m d'
  | mark {d d' : Draft} {s : Site} {l : Option Label} : Built m d → s.backend = .dynamic → s.method = m →
      d.mark s l = .ok d' → Built m d'

/-- Where the branch of an instruction goes: to the position its label is marked at. -/
def target? (d : Draft) (i : Instr) : Option Nat :=
  match i.operand with
  | .label id => d.marks[id]?.join
  | _ => none

/-- Every branch goes to a label that is marked inside the body. -/
def LabelsInside (d : Draft) : Prop :=
  ∀ {pc : Nat} {i : Instr}, d.code[pc]? = some i → i.op.isBranch = true → ∃ n, d.target? i = some n ∧ n < d.code.size

/-- The instructions with a label are the branches, and no position is resolved yet. -/
def Labelled (i : Instr) : Prop :=
  (i.op.isBranch = true ↔ ∃ id, i.operand = .label id) ∧ i.offset? = none

theorem check_ok {s : Site} {op : Opcode} {k : OperandKind} {u : Unit} (h : s.check op k = .ok u) :
    op.accepts k = true := by
  obtain ⟨_, -, h⟩ := bind_eq_ok.mp h
  split at h
  · assumption
  · cases h

/-- What is encoded behind a check, where the check passed. -/
theorem encode_checked {s : Site} {op : Opcode} {k : OperandKind} {f : Unit → Except Fault Instr} {i : Instr}
    (h : (s.check op k >>= f) = .ok i) : op.accepts k = true ∧ f () = .ok i := by
  obtain ⟨_, hc, h⟩ := bind_eq_ok.mp h
  exact ⟨check_ok hc, h⟩

theorem operand_eq_label_iff (op : Opcode) : op.operand = .label ↔ op.isBranch = true := by
  cases op with
  | unassigned n => exact ⟨fun h => (by cases h), fun h => (by cases h)⟩
  | _ => decide

theorem isBranch_iff {op : Opcode} : op.isBranch = true ↔ op = .br ∨ op = .brtrue ∨ op = .brfalse := by
  constructor
  · cases op <;> simp [Opcode.isBranch]
  · rintro (rfl | rfl | rfl) <;> rfl

theorem accepts_label_iff {op : Opcode} {k : OperandKind} (h : op.accepts k = true) :
    op.isBranch = true ↔ k = .label := by
  rw [← operand_eq_label_iff]
  simp only [Opcode.accepts, Bool.and_eq_true, Bool.or_eq_true, decide_eq_true_eq] at h
  rcases h.2 with (⟨rfl, rfl⟩ | ⟨rfl, rfl⟩) | rfl
  · decide
  · decide
  · rfl

/-- An operand of another kind than a label makes no branch. -/
theorem labelled_of_accepts {op : Opcode} {k : OperandKind} {x : Operand} (h : op.accepts k = true) (hk : k ≠ .label)
    (hx : ∀ id, x ≠ .label id) (ho : ∀ n, x ≠ .offset n) : Labelled { op, operand := x } := by
  refine ⟨⟨fun hb => absurd ((accepts_label_iff h).mp hb) hk, fun ⟨id, hid⟩ => absurd hid (hx id)⟩, ?_⟩
  unfold Instr.offset?
  cases x with
  | offset n => exact absurd rfl (ho n)
  | _ => rfl

theorem labelled_ite {c : Prop} [Decidable c] {i j : Instr} (hi : Labelled i) (hj : Labelled j) :
    Labelled (if c then i else j) := by
  split <;> assumption

theorem labelled_ofInt (v : Int32) : Labelled (ShortForm.ofInt v) := by
  unfold ShortForm.ofInt
  repeat' apply labelled_ite
  all_goals exact ⟨by simp [Opcode.isBranch], rfl⟩

theorem labelled_ofLocal {op : Opcode} {n : Int} {i : Instr} (h : ShortForm.ofLocal op n = .ok i) : Labelled i := by
  unfold ShortForm.ofLocal at h
  split at h
  · cases h
  · split at h <;> cases h
    all_goals repeat' apply labelled_ite
    all_goals exact ⟨by simp [Opcode.isBranch], rfl⟩

theorem labelled_ofArg {op : Opcode} {n : Int} {i : Instr} (h : ShortForm.ofArg op n = .ok i) : Labelled i := by
  unfold ShortForm.ofArg at h
  split at h
  · cases h
  · split at h <;> cases h
    all_goals repeat' apply labelled_ite
    all_goals exact ⟨by by_cases hn : n ≤ 255 <;> simp [Opcode.isBranch, hn], rfl⟩

theorem labelled_encode {s : Site} {e : Emission} {i : Instr} (hs : s.backend = .dynamic)
    (h : e.encode s = .ok i) : Labelled i := by
  -- What `check` lets through decides; the short forms have no label at all.
  cases e with
  | plain op =>
    simp only [Emission.encode, hs] at h
    rw [if_neg (by simp)] at h
    obtain ⟨ha, h⟩ := encode_checked h
    cases h
    exact labelled_of_accepts ha (by simp) (by simp) (by simp)
  | int op v =>
    simp only [Emission.encode] at h
    split at h
    · obtain ⟨_, -, h⟩ := bind_eq_ok.mp h
      cases h
      exact labelled_ofInt v
    · cases h
  | str op t =>
    obtain ⟨ha, h⟩ := encode_checked h
    cases h
    exact labelled_of_accepts ha (by simp) (by simp) (by simp)
  | type op t =>
    obtain ⟨ha, h⟩ := encode_checked h
    cases t with
    | none => cases h
    | some t =>
      cases h
      exact labelled_of_accepts ha (by simp) (by simp) (by simp)
  | field op f =>
    obtain ⟨ha, h⟩ := encode_checked h
    rw [if_pos hs] at h
    split at h
    · cases h
    · split at h
      · cases h
      · cases h
        exact labelled_of_accepts ha (by simp) (by simp) (by simp)
  | method op m =>
    obtain ⟨ha, h⟩ := encode_checked h
    rw [if_pos hs] at h
    split at h
    · cases h
    · split at h
      · cases h
      · cases h
        exact labelled_of_accepts ha (by simp) (by simp) (by simp)
  | ctor op c =>
    obtain ⟨ha, h⟩ := encode_checked h
    split at h
    · cases h
    · cases h
      exact labelled_of_accepts ha (by simp) (by simp) (by simp)
  | «local» op l =>
    simp only [Emission.encode, Emission.encodeLocal, hs] at h
    obtain ⟨-, h⟩ := encode_checked h
    cases l with
    | none => cases h
    | some l =>
      simp only at h
      split at h
      · exact labelled_ofLocal h
      · cases h
  | arg op n =>
    simp only [Emission.encode, Emission.encodeArg, hs] at h
    obtain ⟨-, h⟩ := encode_checked h
    split at h
    · cases h
    · exact labelled_ofArg h
  | label op l =>
    simp only [Emission.encode, Emission.encodeLabel, hs] at h
    obtain ⟨ha, h⟩ := encode_checked h
    cases l with
    | none => cases h
    | some l =>
      simp only at h
      split at h
      · cases h
        exact ⟨⟨fun _ => ⟨l.id, rfl⟩, fun _ => (accepts_label_iff ha).mpr rfl⟩, rfl⟩
      · cases h

/-- However a body is built, its branches are the instructions with a label. -/
theorem Built.labelled {m : Method} {d : Draft} (h : Built m d) {pc : Nat} {i : Instr} (hi : d.code[pc]? = some i) :
    Labelled i := by
  induction h generalizing pc i with
  | new => simp at hi
  | @emit d s e _ hs _ ih =>
    unfold Draft.emit at hi
    cases he : e.encode s with
    | error f => rw [he] at hi; exact ih hi
    | ok j =>
      simp only [he, Draft.record, hs, Draft.push] at hi
      rw [Array.getElem?_push] at hi
      split at hi
      · cases hi
        exact labelled_encode hs he
      · exact ih hi
  | @declareLocal d d' s t l _ hs _ hd ih =>
    have : d'.code = d.code := by
      obtain ⟨_, -, hd⟩ := bind_eq_ok.mp hd
      cases t with
      | none => cases hd
      | some t => cases hd; rfl
    exact ih (this ▸ hi)
  | @defineLabel d d' s l _ hs _ hd ih =>
    have : d'.code = d.code := by
      simp only [Draft.defineLabel, hs] at hd
      obtain ⟨_, -, hd⟩ := bind_eq_ok.mp hd
      cases hd
      rfl
    exact ih (this ▸ hi)
  | @mark d d' s l _ hs _ hd ih =>
    have : d'.code = d.code := by
      simp only [Draft.mark, hs] at hd
      cases l with
      | none => cases hd
      | some l =>
        simp only at hd
        split at hd
        · split at hd
          · cases hd; rfl
          · cases hd
        · cases hd
    exact ih (this ▸ hi)

/-! ### Resolved bodies -/

/-- `j` is `i` with its label turned into the marked position. -/
structure Resolves (d : Draft) (i j : Instr) : Prop where
  op : j.op = i.op
  target : j.offset? = d.target? i
  inside : ∀ {n}, j.offset? = some n → n < d.code.size
  plain : i.op.isBranch = false → j = i

theorem resolve_ok {d : Draft} {pc : Nat} {i j : Instr} (hi : Labelled i) (h : d.resolve pc i = .ok j) :
    d.Resolves i j := by
  unfold resolve at h
  split at h
  · rename_i id hid
    split at h
    · rename_i n hn
      split at h
      · rename_i hlt
        injection h with h
        subst h
        refine ⟨rfl, ?_, fun hm => ?_, fun hb => ?_⟩
        · simp [Instr.offset?, target?, hid, hn]
        · simp only [Instr.offset?, Option.some.injEq] at hm
          exact hm ▸ hlt
        · exact Bool.noConfusion (hb.symm.trans (hi.1.mpr ⟨id, hid⟩))
      · cases h
    · cases h
  · rename_i hid
    injection h with h
    subst h
    refine ⟨rfl, ?_, fun hm => ?_, fun _ => rfl⟩
    · rw [hi.2]
      unfold target?
      split
      · exact absurd ‹_› (hid _)
      · rfl
    · rw [hi.2] at hm
      cases hm

/-- A label can be resolved exactly when it is marked inside the body. -/
theorem resolve_total {d : Draft} {pc : Nat} {i : Instr} (hi : Labelled i) :
    (∃ j, d.resolve pc i = .ok j) ↔ (i.op.isBranch = true → ∃ n, d.target? i = some n ∧ n < d.code.size) := by
  by_cases hlabel : ∃ id, i.operand = .label id
  · obtain ⟨id, hid⟩ := hlabel
    simp only [resolve, target?, hid]
    have hb : i.op.isBranch = true := hi.1.mpr ⟨id, hid⟩
    split
    · rename_i n hn
      simp only [hn, Option.join_some, Option.some.injEq, exists_eq_left', hb, true_imp_iff]
      by_cases hlt : n < d.code.size
      · simp [hlt]
      · simp [hlt]
    · rename_i hn
      constructor
      · rintro ⟨j, hj⟩
        cases hj
      · intro h
        obtain ⟨n, hn', -⟩ := h hb
        exact absurd (Option.join_eq_some_iff.mp hn') (hn n)
  · have hplain : d.resolve pc i = .ok i := by
      unfold resolve
      split
      · exact absurd ⟨_, ‹_›⟩ hlabel
      · rfl
    rw [hplain]
    exact ⟨fun _ hb => absurd (hi.1.mp hb) hlabel, fun _ => ⟨i, rfl⟩⟩

theorem resolveFrom_ok {d : Draft} {pc : Nat} {l l' : List Instr} (h : d.resolveFrom pc l = .ok l') :
    l'.length = l.length ∧ ∀ {k i}, l[k]? = some i → ∃ j, d.resolve (pc + k) i = .ok j ∧ l'[k]? = some j := by
  induction l generalizing pc l' with
  | nil =>
    cases h
    exact ⟨rfl, fun hi => by simp at hi⟩
  | cons x l ih =>
    obtain ⟨y, hy, h⟩ := bind_eq_ok.mp h
    obtain ⟨r, hr, h⟩ := bind_eq_ok.mp h
    cases h
    obtain ⟨hlen, hget⟩ := ih hr
    refine ⟨by simp [hlen], fun {k i} hi => ?_⟩
    cases k with
    | zero =>
      cases hi
      exact ⟨y, hy, rfl⟩
    | succ k =>
      obtain ⟨j, hj, hjr⟩ := hget hi
      exact ⟨j, by rw [← hj]; congr 1; omega, hjr⟩

theorem resolveFrom_total {d : Draft} {pc : Nat} {l : List Instr}
    (h : ∀ {k i}, l[k]? = some i → ∃ j, d.resolve (pc + k) i = .ok j) : ∃ l', d.resolveFrom pc l = .ok l' := by
  induction l generalizing pc with
  | nil => exact ⟨[], rfl⟩
  | cons x l ih =>
    obtain ⟨y, hy⟩ := h (k := 0) rfl
    obtain ⟨r, hr⟩ := @ih (pc + 1) fun {k i} hi => by
      obtain ⟨j, hj⟩ := h (k := k + 1) hi
      exact ⟨j, by rw [← hj]; congr 1; omega⟩
    refine ⟨y :: r, ?_⟩
    simp only [resolveFrom]
    rw [show d.resolve pc x = .ok y from hy, hr]
    rfl

/-- The code of a body and its resolved form, instruction by instruction. -/
structure ResolvesTo (d : Draft) (code : Array Instr) : Prop where
  size : code.size = d.code.size
  each : ∀ {pc : Nat} {i : Instr}, d.code[pc]? = some i → ∃ j, code[pc]? = some j ∧ d.Resolves i j

theorem resolvesTo_of_resolveFrom {d : Draft} {l : List Instr}
    (hl : ∀ {pc : Nat} {i : Instr}, d.code[pc]? = some i → Labelled i) (h : d.resolveFrom 0 d.code.toList = .ok l) :
    d.ResolvesTo l.toArray := by
  obtain ⟨hlen, hget⟩ := resolveFrom_ok h
  refine ⟨by simpa using hlen, fun {pc i} hi => ?_⟩
  obtain ⟨j, hj, hjl⟩ := hget (k := pc) (i := i) (by simpa using hi)
  exact ⟨j, by simpa using hjl, resolve_ok (hl hi) hj⟩

namespace ResolvesTo
variable {d : Draft} {code : Array Instr}

/-- The instruction an instruction of the resolved form comes from. -/
theorem source (h : d.ResolvesTo code) {pc : Nat} {j : Instr} (hj : code[pc]? = some j) :
    ∃ i, d.code[pc]? = some i ∧ d.Resolves i j := by
  have hpc : pc < d.code.size := h.size ▸ (Array.getElem?_eq_some_iff.mp hj).1
  obtain ⟨j', hj', hr⟩ := h.each (Array.getElem?_eq_getElem hpc)
  rw [hj] at hj'
  cases hj'
  exact ⟨_, Array.getElem?_eq_getElem hpc, hr⟩

theorem next_iff (h : d.ResolvesTo code) {pc n : Nat} :
    Next code Instr.offset? pc n ↔ Next d.code d.target? pc n := by
  constructor
  · intro hn
    cases hn with
    | branch hj hb ht =>
      obtain ⟨i, hi, hr⟩ := h.source hj
      exact .branch hi (hr.op ▸ hb) (hr.target ▸ ht)
    | fall hj hterm =>
      obtain ⟨i, hi, hr⟩ := h.source hj
      exact .fall hi (hr.op ▸ hterm)
  · intro hn
    cases hn with
    | branch hi hb ht =>
      obtain ⟨j, hj, hr⟩ := h.each hi
      exact .branch hj (hr.op.symm ▸ hb) (hr.target.trans ht)
    | fall hi hterm =>
      obtain ⟨j, hj, hr⟩ := h.each hi
      exact .fall hj (hr.op.symm ▸ hterm)

theorem reached_iff (h : d.ResolvesTo code) {pc : Nat} :
    Reached code Instr.offset? pc ↔ Reached d.code d.target? pc := by
  constructor
  · intro hr
    induction hr with
    | start => exact .start
    | next _ hn ih => exact .next ih (h.next_iff.mp hn)
  · intro hr
    induction hr with
    | start => exact .start
    | next _ hn ih => exact .next ih (h.next_iff.mpr hn)

/-- Resolving a label changes no effect: only branches have labels. -/
theorem effect_eq {ret : Option Ty} {i j : Instr} (hr : d.Resolves i j) : j.effect ret = i.effect ret := by
  by_cases hb : i.op.isBranch = true
  · obtain ⟨op, x⟩ := i
    obtain ⟨op', y⟩ := j
    obtain rfl : op' = op := hr.op
    rcases isBranch_iff.mp hb with rfl | rfl | rfl <;> rfl
  · rw [hr.plain (by simpa using hb)]

theorem assignment_iff (h : d.ResolvesTo code) {ret : Option Ty} {depth : Nat → Nat} :
    DepthAssignment ret code Instr.offset? depth ↔ DepthAssignment ret d.code d.target? depth := by
  have after : ∀ {i j : Instr} {n : Nat}, d.Resolves i j → j.depthAfter ret n = i.depthAfter ret n := by
    intro i j n hr
    rw [Instr.depthAfter, Instr.depthAfter, effect_eq hr]
  constructor
  · intro hD
    refine ⟨hD.start, fun {pc i} hr hi => ?_⟩
    obtain ⟨j, hj, hij⟩ := h.each hi
    have b := hD.balanced (h.reached_iff.mpr hr) hj
    exact {
      pops := by rw [← effect_eq hij]; exact b.pops
      returns := fun hret => by rw [← after hij]; exact b.returns (hij.op.trans hret)
      inside := fun hterm => by rw [← h.size]; exact b.inside (hij.op.symm ▸ hterm)
      next := fun hn => by rw [← after hij]; exact b.next (h.next_iff.mpr hn) }
  · intro hD
    refine ⟨hD.start, fun {pc j} hr hj => ?_⟩
    obtain ⟨i, hi, hij⟩ := h.source hj
    have b := hD.balanced (h.reached_iff.mp hr) hi
    exact {
      pops := by rw [effect_eq hij]; exact b.pops
      returns := fun hret => by rw [after hij]; exact b.returns (hij.op.symm.trans hret)
      inside := fun hterm => by rw [h.size]; exact b.inside (hij.op ▸ hterm)
      next := fun hn => by rw [after hij]; exact b.next (h.next_iff.mp hn) }

theorem targetsInside (h : d.ResolvesTo code) (hl : ∀ {pc : Nat} {i : Instr}, d.code[pc]? = some i → Labelled i) :
    Flow.TargetsInside code := by
  intro pc n j hj hn
  obtain ⟨i, hi, hr⟩ := h.source hj
  refine ⟨?_, by rw [h.size]; exact hr.inside hn⟩
  cases hb : i.op.isBranch with
  | true => rw [hr.op, hb]
  | false =>
    rw [hr.plain hb, (hl hi).2] at hn
    cases hn

end ResolvesTo

/-! ### Finishing -/

/-- A body that has been verified has the locals and, but for labels, the instructions that were recorded. -/
theorem verify_parts {d : Draft} {ret : Option Ty} {b : Body} (h : d.verify ret = .ok b) :
    b.locals = d.locals ∧ ∀ j ∈ b.code, ∃ pc, ∃ i ∈ d.code, d.resolve pc i = .ok j := by
  obtain ⟨l, hl, h⟩ := bind_eq_ok.mp h
  dsimp only at h
  split at h
  · cases h
  · obtain ⟨f, -, h⟩ := bind_eq_ok.mp h
    cases h
    refine ⟨rfl, fun j hj => ?_⟩
    obtain ⟨hlen, hget⟩ := resolveFrom_ok hl
    obtain ⟨k, hk⟩ := List.mem_iff_getElem?.mp (List.mem_toArray.mp hj)
    have hlt : k < d.code.toList.length := hlen ▸ (List.getElem?_eq_some_iff.mp hk).1
    obtain ⟨j', hj', hk'⟩ := hget (List.getElem?_eq_getElem hlt)
    rw [hk] at hk'
    cases hk'
    exact ⟨_, _, Array.mem_toList_iff.mp (List.getElem_mem hlt), hj'⟩

/-- Finishes a body as `verify` does, with the search in another order. -/
def verifyBy (choose : Flow → Nat) (d : Draft) (ret : Option Ty) : Except Fault Body := do
  let code := (← d.resolveFrom 0 d.code.toList).toArray
  if code.isEmpty then .error (.backend .emptyBody)
  else
    let flow ← Flow.search choose ret code code.size (Flow.start code.size)
    return { code, locals := d.locals, maxStack := flow.peak }

theorem verify_eq_verifyBy (d : Draft) (ret : Option Ty) : d.verify ret = d.verifyBy (fun _ => 0) ret := by
  unfold verify verifyBy Flow.ofCode
  simp only [Flow.run_eq_search]

/-- `peak` is the largest number of values that an instruction control reaches leaves on the stack. -/
structure IsPeak (d : Draft) (ret : Option Ty) (depth : Nat → Nat) (peak : Nat) : Prop where
  le : ∀ {pc : Nat} {i : Instr}, Reached d.code d.target? pc → d.code[pc]? = some i → i.depthAfter ret (depth pc) ≤ peak
  attained : peak = 0 ∨ ∃ (pc : Nat) (i : Instr), Reached d.code d.target? pc ∧ d.code[pc]? = some i ∧
    i.depthAfter ret (depth pc) = peak

theorem IsPeak.unique {d : Draft} {ret : Option Ty} {depth : Nat → Nat} {p q : Nat} (hp : d.IsPeak ret depth p)
    (hq : d.IsPeak ret depth q) : p = q := by
  have le : ∀ {p q : Nat}, d.IsPeak ret depth p → d.IsPeak ret depth q → p ≤ q := by
    intro p q hp hq
    rcases hp.attained with rfl | ⟨pc, i, hr, hi, rfl⟩
    · exact Nat.zero_le _
    · exact hq.le hr hi
  exact Nat.le_antisymm (le hp hq) (le hq hp)

/-- What a finished body has to do with the body in the making. -/
structure Finishes (d : Draft) (ret : Option Ty) (b : Body) : Prop where
  code : d.ResolvesTo b.code
  locals : b.locals = d.locals
  depths : ∃ depth, DepthAssignment ret d.code d.target? depth ∧ d.IsPeak ret depth b.maxStack

theorem Finishes.isPeak {d : Draft} {ret : Option Ty} {b : Body} (h : d.Finishes ret b) {depth : Nat → Nat}
    (hD : DepthAssignment ret d.code d.target? depth) : d.IsPeak ret depth b.maxStack := by
  obtain ⟨e, hE, hp⟩ := h.depths
  refine ⟨fun hr hi => ?_, ?_⟩
  · rw [hD.unique hE hr]
    exact hp.le hr hi
  · rcases hp.attained with h0 | ⟨pc, i, hr, hi, he⟩
    · exact .inl h0
    · exact .inr ⟨pc, i, hr, hi, by rw [hD.unique hE hr]; exact he⟩

/-- The end of a search as an answer about the body. -/
theorem isPeak_of_sound {d : Draft} {ret : Option Ty} {code : Array Instr} {f : Flow} (h : d.ResolvesTo code)
    (hf : Flow.Sound ret code f) (hw : f.work = []) :
    ∃ depth, DepthAssignment ret d.code d.target? depth ∧ d.IsPeak ret depth f.peak := by
  have hD := Flow.assignment_of_sound hf hw
  have known : ∀ {pc d : Nat}, f.depths[pc]? = some (some d) → (f.depths[pc]?.join).getD 0 = d := by
    intro pc d hd
    simp [hd]
  have after : ∀ {i j : Instr} {n : Nat}, d.Resolves i j → i.depthAfter ret n = j.depthAfter ret n := by
    intro i j n hr
    rw [Instr.depthAfter, Instr.depthAfter, ResolvesTo.effect_eq hr]
  refine ⟨_, h.assignment_iff.mp hD, fun {pc i} hr hi => ?_, ?_⟩
  · obtain ⟨j, hj, hij⟩ := h.each hi
    obtain ⟨n, hn⟩ := hf.known hw (h.reached_iff.mpr hr)
    rw [after hij, known hn]
    exact (hf.settled hn (by simp [hw]) hj).peak
  · rcases hf.peak with h0 | ⟨pc, n, j, hn, hj, he⟩
    · exact .inl h0
    · obtain ⟨i, hi, hij⟩ := h.source hj
      exact .inr ⟨pc, i, h.reached_iff.mp (hf.reached hn), hi, by rw [after hij, known hn]; exact he⟩

/-- Finishing in any order ends in one of three ways, and the order does not decide in which. -/
theorem verifyBy_cases {d : Draft} (hl : ∀ {pc : Nat} {i : Instr}, d.code[pc]? = some i → Labelled i) (ret : Option Ty) :
    (¬d.LabelsInside ∧ ∃ e, ∀ choose, d.verifyBy choose ret = .error e) ∨
    (d.code = #[] ∧ ∃ e, ∀ choose, d.verifyBy choose ret = .error e) ∨
    (d.code ≠ #[] ∧ d.LabelsInside ∧
      ((∃ b, d.Finishes ret b ∧ ∀ choose, d.verifyBy choose ret = .ok b) ∨
        (¬∃ depth, DepthAssignment ret d.code d.target? depth) ∧
          ∀ choose, ∃ e, d.verifyBy choose ret = .error e ∧ e.code? = some .stackImbalance)) := by
  cases hres : d.resolveFrom 0 d.code.toList with
  | error e =>
    refine .inl ⟨fun hin => ?_, e, fun choose => by rw [verifyBy, hres]; rfl⟩
    obtain ⟨l, hl'⟩ := @resolveFrom_total d 0 d.code.toList fun {k i} hi => by
      have hi' : d.code[k]? = some i := by simpa using hi
      exact (resolve_total (hl hi')).mpr (hin hi')
    rw [hres] at hl'
    cases hl'
  | ok l =>
    have hto := resolvesTo_of_resolveFrom hl hres
    have hinside : d.LabelsInside := fun {pc i} hi => by
      obtain ⟨j, hj, -⟩ := (resolveFrom_ok hres).2 (k := pc) (i := i) (by simpa using hi)
      exact (resolve_total (hl hi)).mp ⟨j, hj⟩
    by_cases hempty : d.code = #[]
    · refine .inr (.inl ⟨hempty, .backend .emptyBody, fun choose => ?_⟩)
      have : l.toArray.isEmpty = true := by
        rw [Array.isEmpty_iff_size_eq_zero, hto.size, hempty]
        rfl
      rw [verifyBy, hres]
      show (if l.toArray.isEmpty then _ else _) = _
      rw [if_pos this]
    · refine .inr (.inr ⟨hempty, hinside, ?_⟩)
      have hpos : 0 < l.toArray.size := by
        rw [hto.size]
        exact Array.size_pos_iff.mpr hempty
      have hne : ¬l.toArray.isEmpty = true := by
        rw [Array.isEmpty_iff_size_eq_zero]
        omega
      have unfolded : ∀ choose, d.verifyBy choose ret =
          (Flow.search choose ret l.toArray l.toArray.size (Flow.start l.toArray.size)).map fun flow =>
            { code := l.toArray, locals := d.locals, maxStack := flow.peak } := by
        intro choose
        rw [verifyBy, hres]
        show (if l.toArray.isEmpty then _ else _) = _
        rw [if_neg hne]
        rfl
      have ends := fun choose => Flow.search_ends choose (hto.targetsInside hl) l.toArray.size (Flow.start l.toArray.size)
        (Flow.sound_start hpos : Flow.Sound ret _ _) (Nat.le_of_eq (Flow.left_start hpos))
      rcases ends (fun _ => 0) with ⟨f, hf, hsound, hw⟩ | ⟨e, -, -, hnone⟩
      · obtain ⟨depth, hD, hpeak⟩ := isPeak_of_sound hto hsound hw
        refine .inl ⟨{ code := l.toArray, locals := d.locals, maxStack := f.peak }, ⟨hto, rfl, depth, hD, hpeak⟩,
          fun choose => ?_⟩
        rcases ends choose with ⟨g, hg, hsound', hw'⟩ | ⟨e, -, -, hnone⟩
        · obtain ⟨depth', hD', hpeak'⟩ := isPeak_of_sound hto hsound' hw'
          have hfin : d.Finishes ret { code := l.toArray, locals := d.locals, maxStack := g.peak } :=
            ⟨hto, rfl, depth', hD', hpeak'⟩
          rw [unfolded, hg]
          have : g.peak = f.peak := (hfin.isPeak hD).unique hpeak
          simp [Except.map, this]
        · exact absurd ⟨depth, hto.assignment_iff.mpr hD⟩ hnone
      · refine .inr ⟨fun ⟨depth, hD⟩ => hnone ⟨depth, hto.assignment_iff.mpr hD⟩, fun choose => ?_⟩
        rcases ends choose with ⟨g, -, hsound', hw'⟩ | ⟨e, he, hcode, -⟩
        · exact absurd ⟨_, Flow.assignment_of_sound hsound' hw'⟩ hnone
        · exact ⟨e, by rw [unfolded, he]; rfl, hcode⟩

/-- A body with a depth assignment and its labels inside is finished. -/
theorem Built.finishes {m : Method} {d : Draft} (h : Built m d) {ret : Option Ty} {depth : Nat → Nat} (hne : d.code ≠ #[])
    (hin : d.LabelsInside) (hD : DepthAssignment ret d.code d.target? depth) :
    ∃ b, d.verify ret = .ok b ∧ d.Finishes ret b := by
  rw [verify_eq_verifyBy]
  rcases verifyBy_cases h.labelled ret with ⟨hnot, -⟩ | ⟨hempty, -⟩ | ⟨-, -, ⟨b, hb, hall⟩ | ⟨hnone, -⟩⟩
  · exact absurd @hin hnot
  · exact absurd hempty hne
  · exact ⟨b, hall _, hb⟩
  · exact absurd ⟨depth, hD⟩ hnone

/-- Finishing accepts a body exactly when it is not empty, its branches go to labels marked inside it, and it
    has a depth assignment. The finished body has the largest of these depths as its largest stack, and the
    marked positions in its branches. Another order of the search gives the same body, or fails with the same
    code. -/
theorem verify_exact {m : Method} {d : Draft} (h : Built m d) (ret : Option Ty) :
    ((∃ b, d.verify ret = .ok b) ↔
      d.code ≠ #[] ∧ d.LabelsInside ∧ ∃ depth, DepthAssignment ret d.code d.target? depth) ∧
    (∀ b, d.verify ret = .ok b → d.Finishes ret b) ∧
    ∀ choose, (d.verifyBy choose ret).mapError Fault.code? = (d.verify ret).mapError Fault.code? := by
  rw [verify_eq_verifyBy]
  rcases verifyBy_cases h.labelled ret with ⟨hnot, e, he⟩ | ⟨hempty, e, he⟩ | ⟨hne, hin, ⟨b, hb, hall⟩ | ⟨hnone, hall⟩⟩
  · refine ⟨⟨fun ⟨b, hb⟩ => ?_, fun ⟨_, hin, _⟩ => absurd @hin hnot⟩, fun b hb => ?_, fun choose => by rw [he, he]⟩
    · rw [he] at hb
      cases hb
    · rw [he] at hb
      cases hb
  · refine ⟨⟨fun ⟨b, hb⟩ => ?_, fun ⟨hne, _⟩ => absurd hempty hne⟩, fun b hb => ?_, fun choose => by rw [he, he]⟩
    · rw [he] at hb
      cases hb
    · rw [he] at hb
      cases hb
  · obtain ⟨depth, hD, -⟩ := hb.depths
    refine ⟨⟨fun _ => ⟨hne, hin, depth, hD⟩, fun _ => ⟨b, hall _⟩⟩, fun b' hb' => ?_, fun choose => by rw [hall, hall]⟩
    rw [hall] at hb'
    cases hb'
    exact hb
  · obtain ⟨e, he, hcode⟩ := hall (fun _ => 0)
    refine ⟨⟨fun ⟨b, hb⟩ => ?_, fun ⟨_, _, hD⟩ => absurd hD hnone⟩, fun b hb => ?_, fun choose => ?_⟩
    · rw [he] at hb
      cases hb
    · rw [he] at hb
      cases hb
    · obtain ⟨e', he', hcode'⟩ := hall choose
      rw [he, he']
      show Except.error _ = Except.error _
      rw [hcode, hcode']

/-- A loop that tests a constant at its end. -/
theorem verify_exact_loop : ∃ d b, Built default d ∧ d.code.size = 3 ∧ d.verify none = .ok b ∧ d.Finishes none b ∧
    b.maxStack = 1 := by
  let s : Site := { backend := .dynamic, moduleName := "Loop", method := default, isSealed := false }
  let l : Label := { method := default, id := 0 }
  have h0 : Built default { marks := #[none] } := .defineLabel (s := s) (l := l) .new rfl rfl rfl
  have h1 : Built default { marks := #[some 0] } := .mark (s := s) (l := some l) h0 rfl rfl rfl
  have h2 := Built.emit (s := s) (.int .ldc 1) h1 rfl rfl
  have h3 := Built.emit (s := s) (.label .brtrue (some l)) h2 rfl rfl
  have h4 := Built.emit (s := s) (.plain .ret) h3 rfl rfl
  exact ⟨_, _, h4, rfl, rfl, (verify_exact h4 none).2.1 _ rfl, rfl⟩

end Draft
end CilCompiler
