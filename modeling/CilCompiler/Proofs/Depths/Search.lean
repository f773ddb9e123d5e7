import CilCompiler.Module.Balance
import CilCompiler.Proofs.Outcome
import Mathlib.Data.List.Perm.Basic

/-!
The search for stack depths. Control goes from an instruction to its branch target and, unless the
instruction terminates, to the next one; a depth assignment says how many values are on the stack at every
instruction that control can reach. `Flow.search` looks at the reached instructions in any order. It ends
within as many visits as there are instructions, finds the depth assignment if there is one, and fails if
there is none.
-/

namespace CilCompiler

/-! ### Control flow -/

/-- The position in a resolved branch. -/
def Instr.offset? (i : Instr) : Option Nat :=
  match i.operand with
  | .offset target => some target
  | _ => none

/-- What an instruction leaves of `depth` values on the stack. -/
def Instr.depthAfter (ret : Option Ty) (i : Instr) (depth : Nat) : Nat :=
  depth - (i.effect ret).1 + (i.effect ret).2

/-- Control can go from `pc` to a position: along a branch, whose target is `target`, or behind an
    instruction that does not terminate. -/
inductive Next (code : Array Instr) (target : Instr → Option Nat) (pc : Nat) : Nat → Prop
  | branch {i : Instr} {n : Nat} : code[pc]? = some i → i.op.isBranch = true → target i = some n → Next code target pc n
  | fall {i : Instr} : code[pc]? = some i → i.op.terminates = false → Next code target pc (pc + 1)

/-- Control can come to a position. -/
inductive Reached (code : Array Instr) (target : Instr → Option Nat) : Nat → Prop
  | start : Reached code target 0
  | next {pc n : Nat} : Reached code target pc → Next code target pc n → Reached code target n

/-- The stack is deep enough for the instruction at `pc`, `ret` leaves nothing, control does not fall off the
    end, and every position behind is assigned what the instruction leaves. -/
structure BalancedAt (ret : Option Ty) (code : Array Instr) (target : Instr → Option Nat) (depth : Nat → Nat)
    (pc : Nat) (i : Instr) : Prop where
  pops : (i.effect ret).1 ≤ depth pc
  returns : i.op = .ret → i.depthAfter ret (depth pc) = 0
  inside : i.op.terminates = false → pc + 1 < code.size
  next : ∀ {n}, Next code target pc n → depth n = i.depthAfter ret (depth pc)

/-- Depths for the instructions that control can reach. -/
structure DepthAssignment (ret : Option Ty) (code : Array Instr) (target : Instr → Option Nat) (depth : Nat → Nat) :
    Prop where
  start : depth 0 = 0
  balanced : ∀ {pc i}, Reached code target pc → code[pc]? = some i → BalancedAt ret code target depth pc i

theorem Next.instr {code : Array Instr} {target : Instr → Option Nat} {pc n : Nat} (h : Next code target pc n) :
    ∃ i, code[pc]? = some i := by
  cases h with
  | branch hi _ _ => exact ⟨_, hi⟩
  | fall hi _ => exact ⟨_, hi⟩

/-- There is one depth assignment at most. -/
theorem DepthAssignment.unique {ret : Option Ty} {code : Array Instr} {target : Instr → Option Nat} {d e : Nat → Nat}
    (hd : DepthAssignment ret code target d) (he : DepthAssignment ret code target e) {pc : Nat}
    (h : Reached code target pc) : d pc = e pc := by
  induction h with
  | start => rw [hd.start, he.start]
  | @next pc n hr hn ih =>
    obtain ⟨i, hi⟩ := hn.instr
    rw [(hd.balanced hr hi).next hn, (he.balanced hr hi).next hn, ih]

namespace Flow

/-! ### Reaching instructions -/

/-- How many visits are left at most: instructions in the list, and instructions that were not reached. -/
def left (f : Flow) : Nat := f.work.length + f.depths.toList.count none

/-- `f'` is `f` after reaching the instructions `ns` with a depth. -/
structure Spread (f f' : Flow) (ns : List Nat) (depth : Nat) : Prop where
  size : f'.depths.size = f.depths.size
  peak : f'.peak = f.peak
  left : f'.left = f.left
  kept : ∀ {pc d : Nat}, f.depths[pc]? = some (some d) → f'.depths[pc]? = some (some d)
  found : ∀ {pc d : Nat}, f'.depths[pc]? = some (some d) →
    f.depths[pc]? = some (some d) ∨ pc ∈ ns ∧ d = depth ∧ pc ∈ f'.work
  all : ∀ n ∈ ns, f'.depths[n]? = some (some depth)
  queued : ∀ pc ∈ f.work, pc ∈ f'.work
  work : ∀ pc ∈ f'.work, pc ∈ f.work ∨ pc ∈ ns

theorem Spread.refl (f : Flow) (depth : Nat) : Spread f f [] depth where
  size := rfl
  peak := rfl
  left := rfl
  kept h := h
  found h := .inl h
  all := by simp
  queued _ h := h
  work _ h := .inl h

theorem Spread.trans {f g h : Flow} {ns ms : List Nat} {depth : Nat} (a : Spread f g ns depth) (b : Spread g h ms depth) :
    Spread f h (ns ++ ms) depth where
  size := b.size.trans a.size
  peak := b.peak.trans a.peak
  left := b.left.trans a.left
  kept hd := b.kept (a.kept hd)
  found hd := by
    rcases b.found hd with hg | ⟨hm, rfl, hw⟩
    · rcases a.found hg with hf | ⟨hn, rfl, hw⟩
      · exact .inl hf
      · exact .inr ⟨List.mem_append_left _ hn, rfl, b.queued _ hw⟩
    · exact .inr ⟨List.mem_append_right _ hm, rfl, hw⟩
  all n hn := by
    rcases List.mem_append.mp hn with hn | hn
    · exact b.kept (a.all n hn)
    · exact b.all n hn
  queued pc hpc := b.queued pc (a.queued pc hpc)
  work pc hpc := by
    rcases b.work pc hpc with hg | hm
    · rcases a.work pc hg with hf | hn
      · exact .inl hf
      · exact .inr (List.mem_append_left _ hn)
    · exact .inr (List.mem_append_right _ hm)

theorem count_none_set {depths : Array (Option Nat)} {n : Nat} (depth : Nat) (h : depths[n]? = some none) :
    (depths.setIfInBounds n (some depth)).toList.count none + 1 = depths.toList.count none := by
  have hn : n < depths.toList.length := by
    rw [Array.length_toList]
    exact (Array.getElem?_eq_some_iff.mp h).1
  have hget : depths.toList[n] = none := by
    have := (Array.getElem?_eq_some_iff.mp h).2
    simpa using this
  have hpos : 0 < depths.toList.count none := List.count_pos_iff.mpr (hget ▸ List.getElem_mem hn)
  rw [Array.toList_setIfInBounds, List.count_set hn, hget, if_pos (beq_self_eq_true _), if_neg (by simp)]
  omega

theorem reach_ok {f f' : Flow} {n depth : Nat} (hn : n < f.depths.size) (h : f.reach n depth = .ok f') :
    Spread f f' [n] depth := by
  unfold reach at h
  split at h
  · rename_i d hd
    split at h
    · rename_i hdd
      subst hdd
      injection h with h
      subst h
      exact { Spread.refl f d with
        all := fun m hm => by rw [List.mem_singleton.mp hm]; exact hd
        found := fun h => .inl h
        work := fun pc hpc => .inl hpc }
    · cases h
  · rename_i hd
    injection h with h
    subst h
    have hnone : f.depths[n]? = some none := by
      obtain ⟨x, hx⟩ : ∃ x, f.depths[n]? = some x := ⟨_, Array.getElem?_eq_getElem hn⟩
      cases x with
      | none => exact hx
      | some d => exact absurd hx (hd d)
    have hset : ∀ pc, (f.depths.setIfInBounds n (some depth))[pc]? =
        if n = pc then some (some depth) else f.depths[pc]? := by
      intro pc
      rw [Array.getElem?_setIfInBounds, if_pos hn]
    exact {
      size := by simp
      peak := rfl
      left := by
        have := count_none_set depth hnone
        simp only [left, List.length_cons]
        omega
      kept := fun {pc d} hd' => by
        rw [hset]
        split
        · rename_i hpc
          rw [← hpc, hnone] at hd'
          cases hd'
        · exact hd'
      found := fun {pc d} hd' => by
        rw [hset] at hd'
        split at hd'
        · rename_i hpc
          injection hd' with hd'
          injection hd' with hd'
          exact .inr ⟨by simp [hpc], hd'.symm, by simp [hpc]⟩
        · exact .inl hd'
      all := fun m hm => by
        rw [List.mem_singleton.mp hm, hset, if_pos rfl]
      queued := fun pc hpc => List.mem_cons_of_mem _ hpc
      work := fun pc hpc => by
        rcases List.mem_cons.mp hpc with rfl | hpc
        · exact .inr (by simp)
        · exact .inl hpc }

theorem reachAll_ok {ns : List Nat} {f f' : Flow} {depth : Nat} (hn : ∀ n ∈ ns, n < f.depths.size)
    (h : ns.foldlM (fun f n => f.reach n depth) f = .ok f') : Spread f f' ns depth := by
  induction ns generalizing f with
  | nil =>
    injection h with h
    subst h
    exact .refl f depth
  | cons n ns ih =>
    obtain ⟨g, hg, h⟩ := foldlM_cons_ok h
    have hfg := reach_ok (hn n (by simp)) hg
    have hgf' := ih (f := g) (fun m hm => by rw [hfg.size]; exact hn m (by simp [hm])) h
    exact hfg.trans hgf'

/-- Reaching succeeds where the depths found so far agree with the new one. -/
theorem reachAll_total {ns : List Nat} {f : Flow} {depth : Nat} (hn : ∀ n ∈ ns, n < f.depths.size)
    (h : ∀ n ∈ ns, ∀ d, f.depths[n]? = some (some d) → d = depth) :
    ∃ f', ns.foldlM (fun f n => f.reach n depth) f = .ok f' := by
  induction ns generalizing f with
  | nil => exact ⟨f, rfl⟩
  | cons n ns ih =>
    obtain ⟨g, hg⟩ : ∃ g, f.reach n depth = .ok g := by
      unfold reach
      split
      · rename_i d hd
        rw [if_pos (h n (by simp) d hd)]
        exact ⟨_, rfl⟩
      · exact ⟨_, rfl⟩
    have hfg := reach_ok (hn n (by simp)) hg
    obtain ⟨f', hf'⟩ := ih (f := g) (fun m hm => by rw [hfg.size]; exact hn m (by simp [hm])) (fun m hm d hd => by
      rcases hfg.found hd with hd | ⟨-, hd, -⟩
      · exact h m (by simp [hm]) d hd
      · exact hd)
    exact ⟨f', by rw [List.foldlM_cons, hg]; exact hf'⟩

/-! ### Visits -/

section Visits
variable {ret : Option Ty} {code : Array Instr}

/-- The branch targets of resolved code lie inside it. -/
def TargetsInside (code : Array Instr) : Prop :=
  ∀ {pc n : Nat} {i : Instr}, code[pc]? = some i → i.offset? = some n → i.op.isBranch = true ∧ n < code.size

/-- What is known of an instruction that was looked at with `depth` values on the stack. -/
structure Settled (ret : Option Ty) (code : Array Instr) (f : Flow) (pc : Nat) (i : Instr) (depth : Nat) : Prop where
  pops : (i.effect ret).1 ≤ depth
  returns : i.op = .ret → i.depthAfter ret depth = 0
  inside : i.op.terminates = false → pc + 1 < code.size
  peak : i.depthAfter ret depth ≤ f.peak
  next : ∀ {n : Nat}, Next code Instr.offset? pc n → f.depths[n]? = some (some (i.depthAfter ret depth))

/-- What holds between two visits: the depths found are those of any depth assignment and belong to reached
    instructions, and an instruction that waits no more is settled. -/
structure Sound (ret : Option Ty) (code : Array Instr) (f : Flow) : Prop where
  size : f.depths.size = code.size
  start : f.depths[0]? = some (some 0)
  reached : ∀ {pc d : Nat}, f.depths[pc]? = some (some d) → Reached code Instr.offset? pc
  agrees : ∀ {depth : Nat → Nat}, DepthAssignment ret code Instr.offset? depth → ∀ {pc d : Nat},
    f.depths[pc]? = some (some d) → d = depth pc
  work : ∀ pc ∈ f.work, ∃ d : Nat, f.depths[pc]? = some (some d)
  settled : ∀ {pc d : Nat} {i : Instr}, f.depths[pc]? = some (some d) → pc ∉ f.work → code[pc]? = some i →
    Settled ret code f pc i d
  peak : f.peak = 0 ∨ ∃ (pc d : Nat) (i : Instr), f.depths[pc]? = some (some d) ∧ code[pc]? = some i ∧
    i.depthAfter ret d = f.peak

theorem sound_start (h : 0 < code.size) : Sound ret code (start code.size) where
  size := by simp [start]
  start := by simp [start, h]
  reached {pc d} hd := by
    rcases Nat.eq_zero_or_pos pc with rfl | hpc
    · exact .start
    · rw [start, Array.getElem?_setIfInBounds_ne (by omega)] at hd
      simp [Array.getElem?_replicate] at hd
  agrees {_} hD {pc d} hd := by
    rcases Nat.eq_zero_or_pos pc with rfl | hpc
    · simp [start, h] at hd
      rw [hD.start, ← hd]
    · rw [start, Array.getElem?_setIfInBounds_ne (by omega)] at hd
      simp [Array.getElem?_replicate] at hd
  work pc hpc := by
    simp only [start, List.mem_singleton] at hpc
    subst hpc
    exact ⟨0, by simp [start, h]⟩
  settled {pc d i} hd hpc _ := by
    simp only [start, List.mem_singleton] at hpc
    rw [start, Array.getElem?_setIfInBounds_ne (by omega)] at hd
    simp [Array.getElem?_replicate] at hd
  peak := .inl rfl

theorem left_start (h : 0 < code.size) : (start code.size).left = code.size := by
  have hnone : (Array.replicate code.size (none : Option Nat))[0]? = some none := by
    simp [h]
  have := count_none_set 0 hnone
  simp only [left, start, List.length_singleton]
  rw [Array.toList_replicate, List.count_replicate_self] at this
  omega

theorem successors_eq (size pc : Nat) (i : Instr) : successors size pc i =
    if i.op.terminates then .ok i.offset?.toList
    else if pc + 1 < size then .ok (i.offset?.toList ++ [pc + 1])
    else .error (.backend (.fallsOffEnd pc)) := by
  unfold successors Instr.offset?
  cases i.operand <;> rfl

/-- The positions behind an instruction other than `ret`. -/
theorem successors_ok {pc : Nat} {i : Instr} {ns : List Nat} (ht : TargetsInside code) (hi : code[pc]? = some i)
    (h : successors code.size pc i = .ok ns) :
    (i.op.terminates = false → pc + 1 < code.size) ∧ ∀ n, n ∈ ns ↔ Next code Instr.offset? pc n := by
  have branch : ∀ n, Next code Instr.offset? pc n ↔ i.offset? = some n ∨ i.op.terminates = false ∧ n = pc + 1 := by
    intro n
    constructor
    · intro hn
      cases hn with
      | branch hi' _ hn =>
        rw [hi] at hi'
        cases hi'
        exact .inl hn
      | fall hi' hterm =>
        rw [hi] at hi'
        cases hi'
        exact .inr ⟨hterm, rfl⟩
    · rintro (hn | ⟨hterm, rfl⟩)
      · exact .branch hi (ht hi hn).1 hn
      · exact .fall hi hterm
  rw [successors_eq] at h
  split at h
  · rename_i hterm
    injection h with h
    subst h
    refine ⟨fun hf => Bool.noConfusion (hterm.symm.trans hf), fun n => ?_⟩
    rw [branch, Option.mem_toList]
    simp [hterm]
  · rename_i hterm
    split at h
    · rename_i hlt
      injection h with h
      subst h
      refine ⟨fun _ => hlt, fun n => ?_⟩
      rw [branch, List.mem_append, Option.mem_toList]
      simp [hterm]
    · cases h

/-- Nothing stands behind `ret`. -/
theorem not_next_of_ret {pc n : Nat} {i : Instr} (hi : code[pc]? = some i) (hret : i.op = .ret) :
    ¬Next code Instr.offset? pc n := by
  intro hn
  cases hn with
  | branch hi' hb _ =>
    cases hi.symm.trans hi'
    rw [hret] at hb
    cases hb
  | fall hi' hterm =>
    cases hi.symm.trans hi'
    rw [hret] at hterm
    cases hterm

/-- Control goes to positions of the code. -/
theorem TargetsInside.next {pc n : Nat} {i : Instr} (ht : TargetsInside code) (hi : code[pc]? = some i)
    (hinside : i.op.terminates = false → pc + 1 < code.size) (hn : Next code Instr.offset? pc n) : n < code.size := by
  cases hn with
  | branch hi' _ hn => exact (ht hi' hn).2
  | fall hi' hterm =>
    cases hi.symm.trans hi'
    exact hinside hterm

/-- What waits is an instruction, and its depth is known. -/
theorem Sound.waiting {f : Flow} {pc : Nat} (hf : Sound ret code f) (hpc : pc ∈ f.work) :
    ∃ depth i, f.depths[pc]? = some (some depth) ∧ code[pc]? = some i := by
  obtain ⟨depth, hdepth⟩ := hf.work pc hpc
  have hlt : pc < code.size := hf.size ▸ (Array.getElem?_eq_some_iff.mp hdepth).1
  exact ⟨depth, _, hdepth, Array.getElem?_eq_getElem hlt⟩

/-- A flow from whose list `pc` was taken, after the stack behind `pc` is counted. -/
def taken (f : Flow) (rest : List Nat) (after : Nat) : Flow :=
  { f with work := rest, peak := max f.peak after }

section Visited
variable {f f' : Flow} {pc depth : Nat} {rest ns : List Nat} {i : Instr}

/-- The maximum counted is that of a reached instruction. -/
theorem Sound.peak_taken (hf : Sound ret code f) (hdepth : f.depths[pc]? = some (some depth)) (hi : code[pc]? = some i) :
    (taken f rest (i.depthAfter ret depth)).peak = 0 ∨ ∃ (n d : Nat) (j : Instr), f.depths[n]? = some (some d) ∧
      code[n]? = some j ∧ j.depthAfter ret d = (taken f rest (i.depthAfter ret depth)).peak := by
  rw [taken]
  rcases Nat.le_total (i.depthAfter ret depth) f.peak with hle | hle
  · rw [Nat.max_eq_left hle]
    exact hf.peak
  · rw [Nat.max_eq_right hle]
    exact .inr ⟨pc, depth, i, hdepth, hi, rfl⟩

/-- Once the positions behind `pc` are reached, `pc` is settled and needs to wait no more. -/
theorem Sound.visited (hf : Sound ret code f) (hwork : ∀ n, n ∈ f.work ↔ n = pc ∨ n ∈ rest)
    (hdepth : f.depths[pc]? = some (some depth)) (hi : code[pc]? = some i) (hpops : (i.effect ret).1 ≤ depth)
    (hret : i.op = .ret → i.depthAfter ret depth = 0) (hinside : i.op.terminates = false → pc + 1 < code.size)
    (hns : ∀ n, n ∈ ns ↔ Next code Instr.offset? pc n)
    (hs : Spread (taken f rest (i.depthAfter ret depth)) f' ns (i.depthAfter ret depth)) : Sound ret code f' := by
  have hreach := hf.reached hdepth
  have kept : ∀ {n d : Nat}, f.depths[n]? = some (some d) → f'.depths[n]? = some (some d) := hs.kept
  have hsettled : Settled ret code f' pc i depth :=
    { pops := hpops
      returns := hret
      inside := hinside
      peak := hs.peak ▸ Nat.le_max_right _ _
      next := fun hn => hs.all _ ((hns _).mpr hn) }
  exact {
    size := hs.size.trans hf.size
    start := kept hf.start
    reached := fun hd => by
      rcases hs.found hd with hd | ⟨hn, -, -⟩
      · exact hf.reached hd
      · exact .next hreach ((hns _).mp hn)
    agrees := fun {_} hD {n d} hd => by
      rcases hs.found hd with hd | ⟨hn, rfl, -⟩
      · exact hf.agrees hD hd
      · rw [(hD.balanced hreach hi).next ((hns _).mp hn), ← hf.agrees hD hdepth]
    work := fun n hn => by
      rcases hs.work n hn with hn | hn
      · obtain ⟨d, hd⟩ := hf.work n ((hwork n).mpr (.inr hn))
        exact ⟨d, kept hd⟩
      · exact ⟨_, hs.all n hn⟩
    settled := fun {n d j} hd hn hj => by
      rcases hs.found hd with hd | ⟨-, -, hw⟩
      · have hd : f.depths[n]? = some (some d) := hd
        by_cases hnpc : n = pc
        · subst hnpc
          cases hdepth.symm.trans hd
          cases hi.symm.trans hj
          exact hsettled
        · have hnf : n ∉ f.work := fun hw => by
            rcases (hwork n).mp hw with hw | hw
            · exact hnpc hw
            · exact hn (hs.queued n hw)
          have old := hf.settled hd hnf hj
          exact { old with
            peak := hs.peak ▸ Nat.le_trans old.peak (Nat.le_max_left _ _)
            next := fun hm => kept (old.next hm) }
      · exact absurd hw hn
    peak := by
      rw [hs.peak]
      rcases hf.peak_taken hdepth hi with h0 | ⟨n, d, j, hd, hj, he⟩
      · exact .inl h0
      · exact .inr ⟨n, d, j, kept hd, hj, he⟩ }

end Visited

/-- One visit keeps what holds between visits, and uses one of the visits that are left. -/
theorem visit_ok {f f' : Flow} {pc : Nat} {rest : List Nat} (ht : TargetsInside code) (hf : Sound ret code f)
    (hpc : pc ∈ f.work) (hwork : ∀ n, n ∈ f.work ↔ n = pc ∨ n ∈ rest)
    (h : visit ret code { f with work := rest } pc = .ok f') :
    Sound ret code f' ∧ f'.left = rest.length + f.depths.toList.count none := by
  obtain ⟨depth, i, hdepth, hi⟩ := hf.waiting hpc
  simp only [visit, hi, hdepth] at h
  split at h
  · cases h
  rename_i hpops
  have hpops := Nat.le_of_not_lt hpops
  split at h
  · rename_i hret
    split at h
    · rename_i hzero
      cases h
      have hns : ∀ n, n ∈ [] ↔ Next code Instr.offset? pc n := fun n =>
        ⟨fun hn => absurd hn List.not_mem_nil, fun hn => absurd hn (not_next_of_ret hi hret)⟩
      exact ⟨hf.visited hwork hdepth hi hpops (fun _ => hzero) (fun hterm => by rw [hret] at hterm; cases hterm)
          hns (.refl _ _), rfl⟩
    · cases h
  · rename_i hret
    obtain ⟨ns, hs, h⟩ := bind_eq_ok.mp h
    obtain ⟨hinside, hns⟩ := successors_ok ht hi hs
    have spread : Spread (taken f rest (i.depthAfter ret depth)) f' ns (i.depthAfter ret depth) :=
      reachAll_ok (fun n hn => lt_of_lt_of_eq (ht.next hi hinside ((hns n).mp hn)) hf.size.symm) h
    exact ⟨hf.visited hwork hdepth hi hpops (fun hr => absurd hr hret) hinside hns spread, spread.left⟩

/-- Where there is a depth assignment every visit succeeds. -/
theorem visit_total {f : Flow} {pc : Nat} (rest : List Nat) {D : Nat → Nat} (ht : TargetsInside code)
    (hf : Sound ret code f) (hpc : pc ∈ f.work) (hD : DepthAssignment ret code Instr.offset? D) :
    ∃ f', visit ret code { f with work := rest } pc = .ok f' := by
  obtain ⟨depth, i, hdepth, hi⟩ := hf.waiting hpc
  have bal := hD.balanced (hf.reached hdepth) hi
  have hdD := hf.agrees hD hdepth
  simp only [visit, hi, hdepth]
  rw [if_neg (by rw [hdD]; exact Nat.not_lt.mpr bal.pops)]
  split
  · rename_i hret
    have := bal.returns hret
    rw [← hdD, Instr.depthAfter] at this
    rw [if_pos this]
    exact ⟨_, rfl⟩
  · have hsucc : ∃ ns, successors code.size pc i = .ok ns := by
      rw [successors_eq]
      split
      · exact ⟨_, rfl⟩
      · rename_i hterm
        rw [if_pos (bal.inside (by simpa using hterm))]
        exact ⟨_, rfl⟩
    obtain ⟨ns, hs⟩ := hsucc
    obtain ⟨hinside, hns⟩ := successors_ok ht hi hs
    rw [hs]
    refine reachAll_total (fun n hn => lt_of_lt_of_eq (ht.next hi hinside ((hns n).mp hn)) hf.size.symm) fun n hn d hd => ?_
    rw [hf.agrees hD hd, bal.next ((hns n).mp hn), hdD]
    rfl

/-! Every failure of a visit is one of balance. -/

theorem reach_error {f : Flow} {n depth : Nat} {e : Fault} (h : f.reach n depth = .error e) :
    e.code? = some .stackImbalance := by
  unfold reach at h
  split at h
  · split at h
    · cases h
    · cases h
      rfl
  · cases h

theorem reachAll_error {ns : List Nat} {f : Flow} {depth : Nat} {e : Fault}
    (h : ns.foldlM (fun f n => f.reach n depth) f = .error e) : e.code? = some .stackImbalance := by
  induction ns generalizing f with
  | nil => cases h
  | cons n ns ih =>
    rw [List.foldlM_cons] at h
    cases hg : f.reach n depth with
    | error e' =>
      rw [hg] at h
      cases h
      exact reach_error hg
    | ok g =>
      rw [hg] at h
      exact ih h

theorem successors_error {size pc : Nat} {i : Instr} {e : Fault} (h : successors size pc i = .error e) :
    e.code? = some .stackImbalance := by
  rw [successors_eq] at h
  split at h
  · cases h
  · split at h
    · cases h
    · cases h
      rfl

theorem visit_error {f : Flow} {pc : Nat} {e : Fault} (h : visit ret code f pc = .error e) :
    e.code? = some .stackImbalance := by
  unfold visit at h
  split at h
  · simp only at h
    split at h
    · cases h
      rfl
    · split at h
      · split at h
        · cases h
        · cases h
          rfl
      · rename_i i _ _ _ _ _
        cases hs : successors code.size pc i with
        | error e' =>
          rw [hs] at h
          cases h
          exact successors_error hs
        | ok ns =>
          rw [hs] at h
          exact reachAll_error h
  · cases h

/-! ### The search in any order -/

/-- Looks at instructions until none is left, at most `fuel` of them; `choose` says which of those that wait
    is next. -/
def search (choose : Flow → Nat) (ret : Option Ty) (code : Array Instr) : (fuel : Nat) → Flow → Except Fault Flow
  | 0, f => .ok f
  | fuel + 1, f =>
    match f.work[choose f % f.work.length]? with
    | none => .ok f
    | some pc => do
      let f ← visit ret code { f with work := f.work.eraseIdx (choose f % f.work.length) } pc
      search choose ret code fuel f

/-- Taking the one reached last is one of the orders. -/
theorem run_eq_search (fuel : Nat) (f : Flow) : run ret code fuel f = search (fun _ => 0) ret code fuel f := by
  induction fuel generalizing f with
  | zero => rfl
  | succ fuel ih =>
    cases hw : f.work with
    | nil => simp [run, search, hw]
    | cons pc rest =>
      simp only [run, search, hw, Nat.zero_mod, List.getElem?_cons_zero, List.eraseIdx_cons_zero]
      cases visit ret code { f with work := rest } pc with
      | error e => rfl
      | ok f' => exact ih f'

theorem mem_iff_eq_or_mem_eraseIdx {l : List Nat} {k pc : Nat} (h : l[k]? = some pc) (n : Nat) :
    n ∈ l ↔ n = pc ∨ n ∈ l.eraseIdx k := by
  have hk := (List.getElem?_eq_some_iff.mp h).1
  have hp := (List.getElem?_eq_some_iff.mp h).2
  have perm := List.getElem_cons_eraseIdx_perm hk
  rw [← perm.mem_iff, List.mem_cons, hp]

/-- The search ends with every reached instruction settled, or there is no depth assignment. -/
theorem search_ends (choose : Flow → Nat) (ht : TargetsInside code) (fuel : Nat) (f : Flow) (hf : Sound ret code f)
    (hfuel : f.left ≤ fuel) :
    (∃ f', search choose ret code fuel f = .ok f' ∧ Sound ret code f' ∧ f'.work = []) ∨
    (∃ e, search choose ret code fuel f = .error e ∧ e.code? = some .stackImbalance ∧
      ¬∃ D, DepthAssignment ret code Instr.offset? D) := by
  induction fuel generalizing f with
  | zero =>
    refine .inl ⟨f, rfl, hf, ?_⟩
    rw [left] at hfuel
    exact List.length_eq_zero_iff.mp (by omega)
  | succ fuel ih =>
    cases hk : f.work[choose f % f.work.length]? with
    | none =>
      refine .inl ⟨f, by simp only [search, hk], hf, ?_⟩
      rw [List.getElem?_eq_none_iff] at hk
      cases hw : f.work with
      | nil => rfl
      | cons pc rest =>
        rw [hw] at hk
        exact absurd (Nat.mod_lt (choose f) (Nat.succ_pos rest.length)) (Nat.not_lt.mpr hk)
    | some pc =>
      have hpc := List.mem_of_getElem? hk
      cases hv : visit ret code { f with work := f.work.eraseIdx (choose f % f.work.length) } pc with
      | error e =>
        refine .inr ⟨e, by simp only [search, hk, hv]; rfl, visit_error hv, ?_⟩
        rintro ⟨D, hD⟩
        obtain ⟨f', hf'⟩ := visit_total (f.work.eraseIdx (choose f % f.work.length)) ht hf hpc hD
        rw [hv] at hf'
        cases hf'
      | ok g =>
        obtain ⟨hg, hleft⟩ := visit_ok ht hf hpc (mem_iff_eq_or_mem_eraseIdx hk) hv
        have hlen := List.length_eraseIdx_add_one (List.getElem?_eq_some_iff.mp hk).1
        have hless : g.left ≤ fuel := by
          rw [left] at hfuel
          omega
        have step : search choose ret code (fuel + 1) f = search choose ret code fuel g := by
          simp only [search, hk, hv]
          rfl
        rw [step]
        exact ih g hg hless

/-- At the end of a search every reached instruction has its depth. -/
theorem Sound.known {f : Flow} (hf : Sound ret code f) (hw : f.work = []) {pc : Nat}
    (h : Reached code Instr.offset? pc) : ∃ d : Nat, f.depths[pc]? = some (some d) := by
  induction h with
  | start => exact ⟨0, hf.start⟩
  | @next pc n _ hn ih =>
    obtain ⟨d, hd⟩ := ih
    obtain ⟨i, hi⟩ := hn.instr
    exact ⟨_, (hf.settled hd (by simp [hw]) hi).next hn⟩

/-- The depths at the end of a search. -/
theorem assignment_of_sound {f : Flow} (hf : Sound ret code f) (hw : f.work = []) :
    DepthAssignment ret code Instr.offset? (fun pc => (f.depths[pc]?.join).getD 0) := by
  refine ⟨by simp [hf.start], fun {pc i} hr hi => ?_⟩
  obtain ⟨d, hd⟩ := hf.known hw hr
  have s := hf.settled hd (by simp [hw]) hi
  exact {
    pops := by simpa [hd] using s.pops
    returns := by simpa [hd] using s.returns
    inside := s.inside
    next := fun hn => by simp [hd, s.next hn] }

end Visits
end Flow
end CilCompiler
