import CilCompiler.Proofs.Outcome
import CilCompiler.Proofs.Lowering.Forward
import CilCompiler.Proofs.Typed.Balance
import Mathlib.Data.Finset.Lattice.Fold
import Mathlib.Order.Lattice.Nat

/-! What a listing counts. A listing counts the values on the stack while its body grows, where a body that can be run
    is looked at as a whole in the end. Lowering without labels that succeeds for a body that can be run, and leaves
    code in which every instruction finds its operands, takes down the same code in a listing (`Lower.Lists`).

Bodies without branches. Their labels need not be resolved, so they are finished with the code that was recorded. The
largest stack that is found is that of the instructions control comes to; a listing counts them all, and so finds the
same where nothing follows a return (`Draft.Finishes.maxStack_eq`). -/

namespace CilCompiler

variable {ret : Option Ty} {code code' : Array Instr} {i : Instr}

/-! ### Depths -/

theorem depthAt_of_isPrefix (h : code.toList <+: code'.toList) {n : Nat} (hn : n ≤ code.size) :
    depthAt ret code' n = depthAt ret code n := by
  obtain ⟨rest, hrest⟩ := h
  rw [depthAt, depthAt, ← hrest, List.take_append_of_le_length (by simpa using hn)]

theorem depthBehind_push : depthBehind ret (code.push i) = i.depthPast ret (depthBehind ret code) := by
  rw [depthBehind, depthBehind, depthAt, depthAt, List.take_of_length_le (by simp), List.take_of_length_le (by simp),
    Array.toList_push, List.foldl_append]
  rfl

/-- The most values there are in front of an instruction or behind the last one. -/
def peakBehind (ret : Option Ty) (code : Array Instr) : Nat := (Finset.range (code.size + 1)).sup (depthAt ret code)

theorem peakBehind_push : peakBehind ret (code.push i) = max (peakBehind ret code) (depthBehind ret (code.push i)) := by
  have before : ∀ n ∈ Finset.range (code.size + 1), depthAt ret (code.push i) n = depthAt ret code n := fun n hn =>
    depthAt_of_isPrefix (by simp) (Nat.lt_succ_iff.mp (Finset.mem_range.mp hn))
  rw [peakBehind, Array.size_push, Finset.range_add_one, Finset.sup_insert, Finset.sup_congr rfl before, ← peakBehind,
    depthBehind, Array.size_push, sup_comm]

theorem depthAt_le_peakBehind {n : Nat} (hn : n ≤ code.size) : depthAt ret code n ≤ peakBehind ret code :=
  Finset.le_sup (f := depthAt ret code) (Finset.mem_range.mpr (Nat.lt_succ_of_le hn))

/-- Every instruction finds its operands on the stack, and a return leaves nothing there. -/
def Accountable (ret : Option Ty) (code : Array Instr) : Prop :=
  ∀ ⦃n : Nat⦄ ⦃i : Instr⦄, code[n]? = some i → (i.effect ret).1 ≤ depthAt ret code n ∧
    (i.op = .ret → i.depthAfter ret (depthAt ret code n) = 0)

theorem Accountable.of_prefix (h : Accountable ret code') (hc : code.toList <+: code'.toList) : Accountable ret code := by
  intro n i hi
  have hlt := (Array.getElem?_eq_some_iff.mp hi).1
  rw [← depthAt_of_isPrefix hc (Nat.le_of_lt hlt)]
  refine h ?_
  obtain ⟨rest, hrest⟩ := hc
  rw [← Array.getElem?_toList] at hi ⊢
  rw [← hrest, List.getElem?_append_left (by simpa using hlt)]
  exact hi

/-- Typed code finds its operands. -/
theorem Setting.Typed.accountable {Γ : Setting} (hv : Γ.Voidless) {d : Draft} {S : List Slot} (h : Γ.Typed d S) :
    Accountable (some Γ.scope.ret) d.code := by
  obtain ⟨layout, hc, -⟩ := h
  intro n i hi
  have hlt := (Array.getElem?_eq_some_iff.mp hi).1
  obtain ⟨T, hT⟩ := hc.stack (Nat.le_of_lt hlt)
  obtain ⟨T', hT'⟩ := hc.stack (Nat.succ_le_of_lt hlt)
  have ht := hc.step hi hT hT'
  obtain ⟨hpops, hafter⟩ := ht.depth hv
  rw [Instr.effect_expanded] at hpops
  rw [Instr.depthAfter, Instr.effect_expanded, ← Instr.depthAfter] at hafter
  rw [hc.depthAt hv (Nat.le_of_lt hlt) hT]
  refine ⟨hpops, fun hop => ?_⟩
  rw [← hafter, ht.past hv, Instr.depthPast, if_pos (by rw [hop]; rfl)]

/-! ### Counting -/

/-- A body with the counts of a listing. -/
def Draft.counted (ret : Option Ty) (d : Draft) : Draft :=
  { d with depth := depthBehind ret d.code, peak := peakBehind ret d.code }

/-- Work on a body with the counts of a listing. -/
def Work.counted (ret : Option Ty) (w : Work) : Work := { w with draft := w.draft.counted ret }

theorem Opcode.terminates_straight {op : Opcode} (hb : op.isBranch = false) (ht : op.terminates = true) : op = .ret := by
  cases op <;> first | rfl | (cases hb; done) | cases ht

/-- A listing takes down an instruction that finds its operands, and counts what it leaves. -/
theorem Draft.record_counted {s : Site} (hs : s.backend = .textual) (hb : i.op.isBranch = false) {d : Draft}
    (h : Accountable s.method.ret (d.code.push i)) :
    (d.counted s.method.ret).record s i = (.ok (), (d.push i).counted s.method.ret) := by
  obtain ⟨hpops, hret⟩ := h (n := d.code.size) (i := i) (by simp)
  rw [depthAt_of_isPrefix (by simp) (Nat.le_refl _), ← depthBehind] at hpops hret
  have hpast : i.depthPast s.method.ret (depthBehind s.method.ret d.code) =
      i.depthAfter s.method.ret (depthBehind s.method.ret d.code) := by
    unfold Instr.depthPast
    split
    · exact (hret (Opcode.terminates_straight hb ‹_›)).symm
    · rfl
  have hdepth : depthBehind s.method.ret (d.code.push i) = i.depthPast s.method.ret (depthBehind s.method.ret d.code) :=
    depthBehind_push
  have hpeak : peakBehind s.method.ret (d.code.push i) =
      max (peakBehind s.method.ret d.code) (depthBehind s.method.ret (d.code.push i)) :=
    peakBehind_push
  rw [hpast] at hdepth
  rw [hdepth] at hpeak
  have taken : (d.push i).counted s.method.ret = { (d.counted s.method.ret).push i with
      depth := i.depthAfter s.method.ret (depthBehind s.method.ret d.code),
      peak := max (peakBehind s.method.ret d.code) (i.depthAfter s.method.ret (depthBehind s.method.ret d.code)) } := by
    rw [← hpeak, ← hdepth]
    rfl
  rw [taken]
  unfold record
  rw [hs]
  have hpops : ¬(d.counted s.method.ret).depth < (i.effect s.method.ret).1 := Nat.not_lt.mpr hpops
  have hret : ¬(i.op = .ret ∧ (d.counted s.method.ret).depth - (i.effect s.method.ret).1 + (i.effect s.method.ret).2 ≠ 0) :=
    fun h => h.2 (hret h.1)
  dsimp only
  rw [if_neg hpops, if_neg hret]
  rfl

/-! ### Emissions -/

/-- Whether the operand of an emission belongs where code that can be run allows it: a type that there is, or a member
    of the module, used as its kind allows. -/
def Emission.Native (s : Site) : Emission → Prop
  | .plain op => op.isBranch = false
  | .field op f => s.owns f.owner = true ∧ op.isStaticField = f.isStatic
  | .method op m => s.owns m.owner = true ∧ ¬(op = .ldvirtftn ∧ m.isStatic = true)
  | .ctor _ c => s.owns c.owner = true
  | .local op _ | .arg op _ => op.isAssigned = true
  | .label .. => False
  | .type _ t => t.isSome = true
  | .int .. | .str .. => True

namespace Emission
variable {s : Site} {e : Emission}

theorem check_ok {op : Opcode} {k : OperandKind} {u : Unit} :
    s.check op k = .ok u ↔ s.isSealed = false ∧ op.accepts k = true := by
  unfold Site.check Site.requireOpen
  cases s.isSealed <;> cases op.accepts k <;> simp [bind, Except.bind]

theorem accepts_branch {op : Opcode} {k : OperandKind} (hb : op.isBranch = true)
    (h : op.accepts k = true) : k = .label := by
  rcases Draft.isBranch_iff.mp hb with rfl | rfl | rfl <;> cases k <;> first | rfl | cases h

/-- An emission that is allowed in code that can be run is native there. -/
theorem native_of_ok (hs : s.backend = .dynamic) (hl : e.hasLabel = false) (h : e.encode s = .ok i) : e.Native s := by
  cases e with
  | plain op =>
    simp only [encode, hs, reduceCtorEq, false_and, if_false] at h
    obtain ⟨_, hc, -⟩ := bind_eq_ok.mp h
    by_contra hb
    cases accepts_branch (by simpa [Native] using hb) (check_ok.mp hc).2
  | field op f =>
    obtain ⟨_, -, h⟩ := bind_eq_ok.mp h
    rw [if_pos hs] at h
    split at h
    · cases h
    · split at h
      · cases h
      · exact ⟨by simpa using ‹¬(!s.owns f.owner) = true›, by simpa using ‹¬(op.isStaticField != f.isStatic) = true›⟩
  | method op m =>
    obtain ⟨_, -, h⟩ := bind_eq_ok.mp h
    rw [if_pos hs] at h
    split at h
    · cases h
    · split at h
      · cases h
      · exact ⟨by simpa using ‹¬(!s.owns m.owner) = true›, ‹_›⟩
  | ctor op c =>
    obtain ⟨_, -, h⟩ := bind_eq_ok.mp h
    split at h
    · cases h
    · rename_i ho
      have owned : s.owns c.owner = true := by simpa [hs] using ho
      exact owned
  | «local» op l =>
    simp only [encode, encodeLocal, hs] at h
    obtain ⟨_, hc, -⟩ := bind_eq_ok.mp h
    have := (check_ok.mp hc).2
    simp only [Opcode.accepts, Bool.and_eq_true] at this
    exact this.1
  | arg op n =>
    simp only [encode, encodeArg, hs] at h
    obtain ⟨_, hc, -⟩ := bind_eq_ok.mp h
    have := (check_ok.mp hc).2
    simp only [Opcode.accepts, Bool.and_eq_true] at this
    exact this.1
  | label op l => cases hl
  | type op t =>
    obtain ⟨_, -, h⟩ := bind_eq_ok.mp h
    cases t with
    | none => cases h
    | some t => rfl
  | int op v => trivial
  | str op t => trivial

theorem check_operand {op : Opcode} (h : op.isAssigned = true) : s.check op op.operand = s.requireOpen "instructions" := by
  unfold Site.check
  rw [if_pos (by simp [Opcode.accepts, h])]
  cases s.requireOpen "instructions" <;> rfl

/-- A native emission becomes the same instruction in a listing. -/
theorem Native.encode (hs : s.backend = .dynamic) (he : e.Native s) :
    Agree (fun i i' => i' = i) (e.encode s) (e.encode (s.on .textual)) := by
  cases e with
  | plain op =>
    have hb : ¬((s.on .textual).backend = .textual ∧ op.isBranch = true) := fun h => by
      rw [show op.isBranch = false from he] at h
      cases h.2
    simp only [Emission.encode]
    rw [if_neg hb, if_neg fun h => by rw [hs] at h; cases h.1]
    exact .refl _
  | field op f =>
    have ho : s.owns f.owner = true := he.1
    have hf : op.isStaticField = f.isStatic := he.2
    simp only [Emission.encode, encodeField, Site.on, hs, ho, hf, Bool.not_true, bne_self_eq_false, Bool.false_eq_true,
      if_true, if_false, reduceCtorEq]
    exact .refl _
  | method op m =>
    have ho : s.owns m.owner = true := he.1
    simp only [Emission.encode, encodeMethod, Site.on, hs, ho, if_neg he.2, Bool.not_true, Bool.false_eq_true,
        if_true, if_false,
      reduceCtorEq]
    exact .refl _
  | ctor op c =>
    have ho : s.owns c.owner = true := he
    simp only [Emission.encode, encodeCtor, Site.on, hs, ho, Bool.not_true, Bool.false_eq_true, and_false,
        if_false, reduceCtorEq,
      false_and]
    exact .refl _
  | «local» op l =>
    simp only [Emission.encode, encodeLocal, hs, Site.on]
    rw [check_operand he]
    refine (Agree.refl (s.requireOpen _)).bind fun _ _ _ => ?_
    cases l with
    | none => exact .error rfl
    | some l => exact .ite Iff.rfl (fun _ => .refl _) fun _ => .error rfl
  | arg op n =>
    simp only [Emission.encode, encodeArg, hs, Site.on]
    rw [check_operand he]
    exact (Agree.refl (s.requireOpen _)).bind fun _ _ _ => .refl _
  | type op t =>
    obtain ⟨t, rfl⟩ := Option.isSome_iff_exists.mp he
    exact .refl _
  | label op l => cases he
  | int op v => exact .refl _
  | str op t => exact .refl _

/-- An instruction without a label is no branch. -/
theorem Native.isBranch (he : e.Native s) (h : e.encode s = .ok i) : i.op.isBranch = false := by
  have straight : ∀ {op : Opcode} {k : OperandKind} {x : Operand} {u : Unit}, s.check op k = .ok u → k ≠ .label →
      (Instr.expanded { op, operand := x }).op.isBranch = false := by
    intro op k x u hc hk
    rw [Instr.isBranch_expanded]
    by_contra hb
    exact hk (accepts_branch (by simpa using hb) (check_ok.mp hc).2)
  rw [← Instr.isBranch_expanded, encode_long h]
  cases e with
  | plain op =>
    rw [long, Instr.isBranch_expanded]
    exact he
  | int op v => rfl
  | «local» op l =>
    obtain ⟨x, rfl, -, h⟩ := encodeLocal_ok h
    by_contra hb
    rcases Draft.isBranch_iff.mp (show op.isBranch = true by simpa [long] using hb) with rfl | rfl | rfl
    all_goals
      unfold ShortForm.ofLocal at h
      split at h <;> cases h
  | arg op n =>
    obtain ⟨k, rfl, -, h⟩ := encodeArg_ok h
    by_contra hb
    rcases Draft.isBranch_iff.mp (show op.isBranch = true by simpa [long] using hb) with rfl | rfl | rfl
    all_goals
      unfold ShortForm.ofArg at h
      split at h <;> cases h
  | label op l => cases he
  | _ =>
    obtain ⟨_, hc, -⟩ := bind_eq_ok.mp h
    exact straight hc (by decide)

end Emission

/-! ### Lowering -/

/-- What succeeds for a body that can be run and leaves code whose instructions find their operands succeeds in a
    listing. -/
def Lower.Lists {α : Type} (x : Lower α) : Prop :=
  ∀ ⦃c : Scope⦄ ⦃w w' : Work⦄ ⦃a : α⦄, c.site.backend = .dynamic → x c w = .ok (a, w') →
    w.draft.code.toList <+: w'.draft.code.toList ∧ (Accountable c.site.method.ret w'.draft.code →
      x (c.on .textual) (w.counted c.site.method.ret) = .ok (a, w'.counted c.site.method.ret))

namespace Lower.Lists

/-- A step that takes nothing down. -/
theorem still {α : Type} {x : Lower α} (h : ∀ {c : Scope} {w w' : Work} {a : α}, x c w = .ok (a, w') →
    w'.draft.code = w.draft.code ∧ x (c.on .textual)
      (w.counted c.site.method.ret) = .ok (a, w'.counted c.site.method.ret)) :
    Lists x := by
  intro c w w' a _ hx
  obtain ⟨hcode, hx⟩ := h hx
  exact ⟨by rw [hcode], fun _ => hx⟩

theorem bind {α β : Type} {x : Lower α} {f : α → Lower β} (hx : Lists x) (hf : ∀ a, Lists (f a)) : Lists (x >>= f) := by
  intro c w w' b hdyn h
  obtain ⟨a, w₁, h1, h2⟩ := bind_ok.mp h
  obtain ⟨k1, hx⟩ := hx hdyn h1
  obtain ⟨k2, hf⟩ := hf a hdyn h2
  exact ⟨k1.trans k2, fun hacc => (bind_of_ok (hx (hacc.of_prefix k2))).trans (hf hacc)⟩

theorem declareLocal (name : Text) (t : Ty) : Lists (Lower.declareLocal name t) := by
  intro c w w' l hdyn h
  obtain ⟨⟨l', d⟩, hd, he⟩ := map_eq_ok.mp h
  cases he
  obtain ⟨_, hopen, hd⟩ := bind_eq_ok.mp hd
  cases hd
  refine ⟨List.prefix_refl _, fun _ => ?_⟩
  have hopen : c.site.isSealed = false := by
    unfold Site.requireOpen at hopen
    split at hopen
    · cases hopen
    · simpa using ‹¬c.site.isSealed = true›
  simp only [Lower.declareLocal, Draft.declareLocal, Site.requireOpen, Scope.on, Site.on, hopen,
      Work.counted, Draft.counted]
  rfl

theorem emit {e : Emission} (hl : e.hasLabel = false) : Lists (Lower.emit e) := by
  intro c w w' u hdyn h
  obtain ⟨i, hi, rfl⟩ := (emit_ok hdyn).mp h
  refine ⟨by simp [Draft.push], fun hacc => ?_⟩
  obtain ⟨j, he, hj⟩ := ((Emission.native_of_ok hdyn hl hi).encode hdyn).of_ok hi
  have hr := Draft.record_counted (s := (c.on .textual).site) rfl ((Emission.native_of_ok hdyn hl hi).isBranch hi) hacc
  have taken : (w.counted c.site.method.ret).draft.emit (c.on .textual).site e =
      (.ok (), (w.draft.push i).counted c.site.method.ret) := by
    unfold Draft.emit
    rw [show e.encode (c.on .textual).site = .ok j from he, hj]
    exact hr
  unfold Lower.emit
  rw [taken]
  rfl

theorem stepwise : Stepwise @Lists where
  pure a := still fun h => by
    obtain ⟨rfl, rfl⟩ := pure_ok.mp h
    exact ⟨rfl, rfl⟩
  bind := bind
  fail f := by
    intro c w w' a _ h
    cases h
  read {α f} hf h := by
    intro c w w' a hdyn hx
    obtain ⟨k, hx⟩ := h c hdyn hx
    refine ⟨k, fun hacc => ?_⟩
    rw [← hx hacc, ← hf c .textual]
    rfl
  symbols := still fun h => by
    obtain ⟨rfl, rfl⟩ := symbols_ok.mp h
    exact ⟨rfl, rfl⟩
  local? name := still fun h => by
    obtain ⟨rfl, rfl⟩ := local?_ok.mp h
    exact ⟨rfl, rfl⟩
  lookupType name := still fun h => by
    obtain ⟨s, hs, rfl⟩ := lookupType_ok.mp h
    exact ⟨rfl, lookupType_ok.mpr ⟨s, hs, rfl⟩⟩
  spill t := (declareLocal .empty t).bind fun _ => (emit rfl).bind fun _ => still fun h => by
    obtain ⟨rfl, rfl⟩ := pure_ok.mp h
    exact ⟨rfl, rfl⟩
  emit he := emit (by
    simp only [Emission.isInner, Bool.and_eq_true, Bool.not_eq_true'] at he
    exact he.1.1.1.1.1.1)
  take m := (emit rfl).bind fun _ => emit rfl
  declareLocal := declareLocal
  record he := emit (by
    simp only [Emission.goesOn, Bool.and_eq_true, Bool.not_eq_true'] at he
    exact he.1.1)
  leave := emit rfl

end Lower.Lists

/-! ### Bodies without branches -/

variable {d : Draft} {b : Body}

/-- A body has no branches. -/
def Draft.Straight (d : Draft) : Prop := ∀ ⦃pc : Nat⦄ ⦃i : Instr⦄, d.code[pc]? = some i → i.op.isBranch = false

/-- Nothing follows a return. -/
def Draft.ReturnsLast (d : Draft) : Prop :=
  ∀ ⦃pc : Nat⦄ ⦃i : Instr⦄, d.code[pc]? = some i → i.op = .ret → pc + 1 = d.code.size

theorem depthAt_succ {code : Array Instr} {n : Nat} {i : Instr} (hi : code[n]? = some i) :
    depthAt ret code (n + 1) = i.depthPast ret (depthAt ret code n) := by
  rw [depthAt, depthAt, List.take_add_one, List.foldl_append]
  simp [hi]

/-- No branch has a label where there are none. -/
theorem Setting.Complete.straight {Γ : Setting} (h : Γ.Complete d) (hm : d.marks = #[]) : d.Straight := by
  intro pc i hi
  by_contra hb
  obtain ⟨n, hn, -⟩ := h.target hi (by simpa using hb)
  unfold Draft.target? at hn
  split at hn
  · rw [hm] at hn
    cases hn
  · cases hn

namespace Draft

/-- Control comes to every instruction in front of the last return. -/
theorem Straight.reached (hs : d.Straight) (hr : d.ReturnsLast) {n : Nat} (hn : n < d.code.size) :
    Reached d.code d.target? n := by
  induction n with
  | zero => exact .start
  | succ n ih =>
    have hlt : n < d.code.size := by omega
    have hi : d.code[n]? = some d.code[n] := Array.getElem?_eq_getElem hlt
    refine .next (ih hlt) (.fall hi ?_)
    by_contra ht
    have := hr hi (Opcode.terminates_straight (hs hi) (by simpa using ht))
    omega

namespace Finishes

theorem code_eq (h : d.Finishes ret b) (hs : d.Straight) : b.code = d.code := by
  refine Array.ext_getElem? fun pc => ?_
  cases hi : d.code[pc]? with
  | none =>
    rw [Array.getElem?_eq_none_iff] at hi ⊢
    rw [h.code.size]
    exact hi
  | some i =>
    obtain ⟨j, hj, hr⟩ := h.code.each hi
    rw [hj, hr.plain (hs hi)]

variable (hD : DepthAssignment ret d.code d.target? (depthAt ret d.code))
include hD

/-- The largest stack is no larger than that of all instructions. -/
theorem maxStack_le (h : d.Finishes ret b) (hs : d.Straight) : b.maxStack ≤ peakBehind ret d.code := by
  rcases (h.isPeak hD).attained with h0 | ⟨pc, i, hr, hi, hpeak⟩
  · rw [h0]
    exact Nat.zero_le _
  · have hlt := (Array.getElem?_eq_some_iff.mp hi).1
    cases ht : i.op.terminates with
    | true =>
      rw [← hpeak, (hD.balanced hr hi).returns (Opcode.terminates_straight (hs hi) ht)]
      exact Nat.zero_le _
    | false =>
      rw [← hpeak, ← (hD.balanced hr hi).next (.fall hi ht)]
      exact depthAt_le_peakBehind hlt

/-- Where nothing follows a return, the largest stack is that of all instructions. -/
theorem maxStack_eq (h : d.Finishes ret b) (hs : d.Straight) (hr : d.ReturnsLast) : b.maxStack = peakBehind ret d.code := by
  refine Nat.le_antisymm (h.maxStack_le hD hs) (Finset.sup_le fun n hn => ?_)
  cases n with
  | zero =>
    rw [hD.start]
    exact Nat.zero_le _
  | succ n =>
    have hlt : n < d.code.size := Nat.lt_of_succ_lt_succ (Finset.mem_range.mp hn)
    have hi : d.code[n]? = some d.code[n] := Array.getElem?_eq_getElem hlt
    rw [depthAt_succ hi, Instr.depthPast]
    split
    · exact Nat.zero_le _
    · exact (h.isPeak hD).le (hs.reached hr hlt) hi

end Finishes
end Draft

/-! ### Lowering -/

/-- No labels have been added. -/
def Work.Unlabelled (w w' : Work) : Prop := w'.draft.marks = w.draft.marks

/-- Lowering without loops and choices adds no labels. -/
theorem Work.Unlabelled.stepwise : Stepwise (@Lower.Keeps Work.Unlabelled) := by
  refine Lower.Keeps.stepwise (fun _ => rfl) (fun h h' => h'.trans h) (fun name c w w' t h => ?_)
      (fun name t c w w' l h => ?_)
    fun _ c w w' u h => ?_
  · obtain ⟨s, -, rfl⟩ := Lower.lookupType_ok.mp h
    rfl
  · obtain ⟨-, rfl⟩ := Lower.declareLocal_ok h
    rfl
  · obtain ⟨i, -, -, hmarks⟩ := Lower.emit_pushes h
    exact hmarks

/-- Instructions have been added, and none of them is a return. -/
def Work.Unreturned (w w' : Work) : Prop :=
  ∃ l : List Instr, w'.draft.code.toList = w.draft.code.toList ++ l ∧ ∀ i ∈ l, i.op ≠ .ret

namespace Work.Unreturned

theorem same {w w' : Work} (h : w'.draft.code = w.draft.code) : w.Unreturned w' :=
  ⟨[], by rw [h, List.append_nil], List.forall_mem_nil _⟩

theorem trans {w w₁ w₂ : Work} (h : w.Unreturned w₁) (h' : w₁.Unreturned w₂) : w.Unreturned w₂ := by
  obtain ⟨l, hl, hret⟩ := h
  obtain ⟨l', hl', hret'⟩ := h'
  exact ⟨l ++ l', by rw [hl', hl, List.append_assoc], List.forall_mem_append.mpr ⟨hret, hret'⟩⟩

/-- Lowering without loops, choices and returns adds no return. -/
theorem ongoing : Ongoing (@Lower.Keeps Work.Unreturned) := by
  have emitted : ∀ {e : Emission}, e.long.op ≠ .ret → (Lower.emit e).Keeps Work.Unreturned := by
    intro e he c w w' u h
    obtain ⟨i, hi, hcode, -⟩ := Lower.emit_pushes h
    refine ⟨[i], by rw [hcode, Array.toList_push], fun j hj hop => he ?_⟩
    rw [List.mem_singleton.mp hj] at hop
    rw [← Emission.encode_long hi]
    obtain ⟨op, x⟩ := i
    cases hop
    rfl
  refine Lower.Keeps.ongoing (fun _ => same rfl) trans (fun name c w w' t h => ?_) (fun name t c w w' l h => ?_)
    (fun {e} he => emitted ?_) fun m c w w' u h => ?_
  · obtain ⟨s, -, rfl⟩ := Lower.lookupType_ok.mp h
    exact same rfl
  · obtain ⟨-, rfl⟩ := Lower.declareLocal_ok h
    exact same rfl
  · simp only [Emission.goesOn, Bool.and_eq_true, bne_iff_ne, ne_eq] at he
    exact he.1.2
  · obtain ⟨_, w₁, h1, h2⟩ := Lower.bind_ok.mp h
    exact trans (emitted (by decide) h1) (emitted (by rintro ⟨⟩) h2)

/-- A return adds no other one. -/
theorem returnStmt {e : Expr} {c : Scope} {w w' : Work} {u : Unit} (h : Lower.returnStmt e c w = .ok (u, w')) :
    ∃ w₁, w.Unreturned w₁ ∧ Lower.emit (.plain .ret) c w₁ = .ok ((), w') := by
  simp only [Lower.returnStmt, Lower.bind_ok, Lower.read_ok, Lower.ite_ok, Lower.fail_ok, and_false,
      or_false, false_or] at h
  obtain ⟨_, _, ⟨rfl, rfl⟩, ⟨-, -, he⟩ | ⟨-, -, o, w₁, hv, _, w₂, hx, he⟩⟩ := h
  · exact ⟨w, same rfl, he⟩
  · exact ⟨w₂, (ongoing.value e _ hv).trans (ongoing.expect _ _ _ hx), he⟩

end Work.Unreturned

theorem Lower.endsInReturn_singleton (s : Stmt) : Lower.endsInReturn [s] = s.returns := by cases s <;> rfl

theorem Lower.endsInReturn_cons (s t : Stmt) (rest : List Stmt) :
    Lower.endsInReturn (s :: t :: rest) = Lower.endsInReturn (t :: rest) := by
  unfold Lower.endsInReturn
  rw [List.getLast?_cons_cons]

/-- Instructions have been added, of which the last one alone is a return, unless a return is still to be added. -/
def Work.Concludes (c : Scope) (w : Work) (addReturn : Bool) (w' : Work) : Prop :=
  if addReturn then w.Unreturned w' else ∃ w₁, w.Unreturned w₁ ∧ Lower.emit (.plain .ret) c w₁ = .ok ((), w')

namespace Work.Concludes
variable {c : Scope} {w w₁ w' : Work} {a : Bool} {u : Unit}

theorem after (h : w.Unreturned w₁) (h' : w₁.Concludes c a w') : w.Concludes c a w' := by
  cases a with
  | true => exact h.trans h'
  | false =>
    obtain ⟨w₂, h2, he⟩ := h'
    exact ⟨w₂, h.trans h2, he⟩

/-- Statements of which none but the last is a return. -/
theorem block {ss : List Stmt} (hb : ss.any Stmt.branches = false) (hr : ∀ s ∈ ss.dropLast, s.returns = false)
    (h : Lower.block ss c w = .ok (u, w')) : w.Concludes c (!Lower.endsInReturn ss) w' := by
  induction ss generalizing w with
  | nil =>
    rw [Lower.block] at h
    exact Unreturned.ongoing.pure () h
  | cons s rest ih =>
    rw [List.any_cons, Bool.or_eq_false_iff] at hb
    rw [Lower.block] at h
    obtain ⟨_, w₁, h1, h2⟩ := Lower.bind_ok.mp h
    cases rest with
    | nil =>
      rw [Lower.block] at h2
      obtain ⟨-, rfl⟩ := Lower.pure_ok.mp h2
      rw [Lower.endsInReturn_singleton]
      cases hs : s.returns with
      | false => exact Unreturned.ongoing.stmt s hb.1 hs h1
      | true =>
        cases s with
        | «return» e =>
          rw [Lower.stmt] at h1
          exact Unreturned.returnStmt h1
        | _ => cases hs
    | cons t rest =>
      rw [Lower.endsInReturn_cons]
      rw [List.dropLast_cons_cons] at hr
      exact after (Unreturned.ongoing.stmt s hb.1 (hr s List.mem_cons_self) h1)
          (ih hb.2 (fun x hx => hr x (List.mem_cons_of_mem _ hx)) h2)

theorem statements {body : List Stmt} (hb : body.any Stmt.branches = false) (hr : ∀ s ∈ body.dropLast, s.returns = false)
    (h : Lower.statements body c w = .ok (a, w')) : w.Concludes c a w' := by
  simp only [Lower.statements, Lower.bind_ok, Lower.read_ok, Lower.ite_ok, Lower.pure_ok, Lower.fail_ok,
      and_false, or_false] at h
  obtain ⟨_, w₁, h1, _, _, ⟨rfl, rfl⟩, h⟩ := h
  have hblock := block hb hr h1
  rcases h with ⟨he, rfl, rfl⟩ | ⟨he, -, rfl, rfl⟩
  · rw [he] at hblock
    exact hblock
  · rw [Bool.not_eq_true] at he
    rw [he] at hblock
    exact hblock

theorem constructor {inits : List (Field × Expr)} {body : List Stmt} (hb : body.any Stmt.branches = false)
    (hr : ∀ s ∈ body.dropLast, s.returns = false) (h : Lower.constructor inits body c w = .ok (a, w')) :
      w.Concludes c a w' := by
  have whole : ∀ {ss : List Stmt}, ss.any Stmt.branches = false → (∀ s ∈ ss.dropLast, s.returns = false) → (do
      Lower.baseCall
      for x in inits do Lower.initField x.1 x.2
      Lower.statements ss : Lower Bool) c w = .ok (a, w') → w.Concludes c a w' := by
    intro ss hb hr h
    obtain ⟨_, w₁, h1, h⟩ := Lower.bind_ok.mp h
    obtain ⟨_, w₂, h2, h3⟩ := Lower.bind_ok.mp h
    have start := Unreturned.ongoing.forIn inits fun x => Unreturned.ongoing.initField x.1 x.2
    exact after ((Unreturned.ongoing.baseCall h1).trans (start h2)) (statements hb hr h3)
  unfold Lower.constructor at h
  split at h
  · rename_i rest
    rw [List.any_cons, Bool.or_eq_false_iff] at hb
    refine whole hb.2 (fun s hs => hr s ?_) h
    cases rest with
    | nil => cases hs
    | cons t rest =>
      rw [List.dropLast_cons_cons]
      exact List.mem_cons_of_mem _ hs
  · exact whole hb hr h

/-- A body that starts from nothing has one return at most, behind everything else. -/
theorem returnsLast {s : Symbols} (h : ({ symbols := s } : Work).Unreturned w)
    (he : Lower.emit (.plain .ret) c w = .ok (u, w')) :
    w'.draft.ReturnsLast := by
  obtain ⟨l, hl, hret⟩ := h
  obtain ⟨i, -, hcode, -⟩ := Lower.emit_pushes he
  intro pc j hj hop
  rw [hcode, Array.getElem?_push] at hj
  rw [hcode, Array.size_push]
  split at hj
  · omega
  · rw [← Array.getElem?_toList, hl] at hj
    exact absurd hop (hret j (by simpa using List.mem_of_getElem? hj))

end Work.Concludes
end CilCompiler
