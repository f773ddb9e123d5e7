import CilCompiler.Proofs.Compilation.Finished
import CilCompiler.Proofs.Module.Built

/-! Types that are not finished. A call on a module leaves the bodies of all members alone and gives none to new ones
    (`Change.keepsBodies`); only finishing a type keeps bodies, one member after another. So a member of an unfinished
    type has a body exactly if finishing the type has failed before at a later member (`History.body_iff`). -/

namespace CilCompiler

/-! ### Finishing up to a member -/

/-- The constructors and then the methods, up to the one that a reference stands for. -/
def TypeDef.upTo (d : TypeDef) (r : Method) : List Routine :=
  if r.isCtor then d.ctors.toList.take (r.index + 1) else d.ctors.toList ++ d.methods.toList.take (r.index + 1)

theorem TypeDef.mem_upTo {d : TypeDef} {r : Method} {x : Routine} (h : d.routine? r = some x) : x ∈ d.upTo r := by
  have taken : ∀ xs : Array Routine, xs[r.index]? = some x → x ∈ xs.toList.take (r.index + 1) := by
    intro xs hx
    rw [← Array.getElem?_toList] at hx
    exact List.mem_of_getElem? (i := r.index) (by rw [List.getElem?_take_of_lt (Nat.lt_succ_self _)]; exact hx)
  unfold routine? at h
  unfold upTo
  split at h
  · rw [if_pos ‹_›]
    exact taken _ h
  · rw [if_neg ‹_›]
    exact List.mem_append_right _ (taken _ h)

/-- Finishing the type fails, but not before the body of a member has been verified. -/
structure TypeDef.ChecksInVain (d : TypeDef) (r : Method) : Prop where
  base : ∀ {b : Ty}, d.type.base? = some b → Module.supportsBase b = true
  fails : ¬d.Finishable
  recorded : ∃ x, d.routine? r = some x ∧ x.impl ≠ .runtime
  upTo : ∀ x ∈ d.upTo r, x.Finishable

open Classical in
/-- What finishing makes of a member when all members in `before` and the member itself are to be finished. -/
noncomputable def Routine.finishedAfter (before : List Routine) (x : Routine) : Routine :=
  if ∀ y ∈ before, y.Finishable then x.finished else x

theorem Routine.native_finishedAfter (before : List Routine) (x : Routine) :
    (x.finishedAfter before).native = x.native := by
  unfold finishedAfter finished
  repeat' split
  all_goals rfl

theorem Routine.body_finishedAfter {before : List Routine} {x : Routine} (hx : x ∈ before) :
    (x.finishedAfter before).body ≠ none ↔ x.body ≠ none ∨ x.impl ≠ .runtime ∧ ∀ y ∈ before, y.Finishable := by
  unfold finishedAfter
  split
  · rename_i hall
    unfold finished
    split
    · simp [*]
    · rename_i himpl
      rcases hall x hx with h | ⟨b, hb⟩
      · exact absurd h himpl
      · simpa [hb, Except.toOption, himpl] using Or.inr hall
  · rename_i hnot
    exact ⟨.inl, fun h => h.elim id fun h => absurd h.2 hnot⟩

theorem Routine.finishedAfter_append {before rest : List Routine} (h : ∀ y ∈ before, y.Finishable) :
    finishedAfter (before ++ rest) = finishedAfter rest := by
  have hiff : (∀ y ∈ before ++ rest, y.Finishable) ↔ ∀ y ∈ rest, y.Finishable :=
    ⟨fun hall y hy => hall y (List.mem_append_right _ hy), fun hall => List.forall_mem_append.mpr ⟨h, hall⟩⟩
  funext x
  by_cases hall : ∀ y ∈ rest, y.Finishable
  · rw [finishedAfter, finishedAfter, if_pos hall, if_pos (hiff.mpr hall)]
  · rw [finishedAfter, finishedAfter, if_neg hall, if_neg (mt hiff.mp hall)]

theorem Routine.finishedAfter_cons {x : Routine} {rest : List Routine} (h : x.Finishable) :
    finishedAfter (x :: rest) = finishedAfter rest := by
  have hone : ∀ y ∈ [x], y.Finishable := by simpa using h
  exact finishedAfter_append hone

theorem Module.finishRoutine_error {x : Routine} {f : Fault} (h : finishRoutine x = .error f) : ¬x.Finishable := by
  intro hx
  rw [finishRoutine_ok_iff.mpr ⟨hx, rfl⟩] at h
  cases h

theorem Module.finishRoutines_getElem? (xs : List Routine) (k : Nat) :
    (finishRoutines xs).2[k]? = xs[k]?.map (Routine.finishedAfter (xs.take (k + 1))) := by
  induction xs generalizing k with
  | nil => simp [finishRoutines]
  | cons x rest ih =>
    unfold finishRoutines
    split
    · rename_i f hf
      have hnot : ¬∀ y ∈ (x :: rest).take (k + 1), y.Finishable := fun h => finishRoutine_error hf (h x (by simp))
      cases hx : (x :: rest)[k]? with
      | none => rfl
      | some y =>
        rw [Option.map_some, Routine.finishedAfter, if_neg hnot]
    · rename_i y hy
      obtain ⟨hx, rfl⟩ := finishRoutine_ok_iff.mp hy
      cases k with
      | zero => simp [Routine.finishedAfter, hx]
      | succ k =>
        rw [List.take_succ_cons, Routine.finishedAfter_cons hx, List.getElem?_cons_succ, List.getElem?_cons_succ, ih]

theorem Module.finishRoutines_fails {xs : List Routine} {f : Fault} {ys : List Routine}
    (h : finishRoutines xs = (.error f, ys)) :
    ¬∀ y ∈ xs, y.Finishable := by
  intro hall
  rw [finishRoutines_total hall] at h
  cases h

theorem Module.routine?_finishMembers (d : TypeDef) (r : Method) :
    (finishMembers d).2.routine? r = (d.routine? r).map (Routine.finishedAfter (d.upTo r)) := by
  have hctors := finishRoutines_getElem? d.ctors.toList r.index
  have hmethods := finishRoutines_getElem? d.methods.toList r.index
  unfold finishMembers TypeDef.upTo
  cases hc : finishRoutines d.ctors.toList with
  | mk result ctors =>
  rw [hc] at hctors
  cases hr : r.isCtor with
  | true => cases result <;> simpa [TypeDef.routine?, hr] using hctors
  | false =>
    cases result with
    | error f =>
      have hnot : ∀ l, ¬∀ y ∈ d.ctors.toList ++ l, y.Finishable := fun l h =>
        finishRoutines_fails hc fun y hy => h y (List.mem_append_left l hy)
      have same : ({ d with ctors := ctors.toArray } : TypeDef).routine? r = d.routine? r :=
        by simp only [TypeDef.routine?, hr]; rfl
      simp only [same, Bool.false_eq_true, if_false]
      cases d.routine? r with
      | none => rfl
      | some x => rw [Option.map_some, Routine.finishedAfter, if_neg (hnot _)]
    | ok u =>
      simp only [Bool.false_eq_true, if_false]
      rw [Routine.finishedAfter_append (finishRoutines_ok hc).1]
      simpa [TypeDef.routine?, hr] using hmethods

/-- Finishing an open type in vain leaves it open, and a member has a body then if it had one or has been verified. -/
theorem Module.finishDef_open {d d' : TypeDef} {result : Except Fault Unit} (h : finishDef d = (result, d'))
    (hopen : d'.isCreated = false) {r : Method} {x' : Routine} (hx' : d'.routine? r = some x') :
    ∃ x, d.routine? r = some x ∧ x'.native = x.native ∧ (x'.body ≠ none ↔ x.body ≠ none ∨ d.ChecksInVain r) := by
  have fails : ¬d.Finishable := by
    intro hall
    rw [finishDef_total hall] at h
    cases h
    cases hopen
  unfold finishDef at h
  split at h
  · rename_i b hb
    cases h
    refine ⟨x', hx', rfl, .inl, fun hor => hor.elim (fun hbody => hbody) fun hvain => ?_⟩
    obtain ⟨hb, hnot⟩ := Option.filter_eq_some_iff.mp hb
    rw [hvain.base hb] at hnot
    cases hnot
  · rename_i hbase
    have base : ∀ {b : Ty}, d.type.base? = some b → supportsBase b = true := by
      intro b hb
      rw [hb] at hbase
      simpa [Option.filter] using hbase
    have hmembers := routine?_finishMembers d r
    split at h
    · rename_i f e hm
      cases h
      rw [hm] at hmembers
      rw [hmembers] at hx'
      obtain ⟨x, hx, rfl⟩ := Option.map_eq_some_iff.mp hx'
      refine ⟨x, hx, x.native_finishedAfter _, (Routine.body_finishedAfter (TypeDef.mem_upTo hx)).trans (or_congr_right ?_)⟩
      refine ⟨fun h => ⟨base, fails, ⟨x, hx, h.1⟩, h.2⟩, fun hvain => ?_⟩
      obtain ⟨y, hy, hrecorded⟩ := hvain.recorded
      rw [hx] at hy
      cases hy
      exact ⟨hrecorded, hvain.upTo⟩
    · cases h
      cases hopen

/-! ### What a call keeps -/

/-- The members of a type have the bodies they had, and new ones have none. -/
structure TypeDef.KeepsBodies (d d' : TypeDef) : Prop where
  isCreated : d'.isCreated = d.isCreated
  members : ∀ {r : Method} {x' : Routine}, d'.routine? r = some x' →
    (∃ x, d.routine? r = some x ∧ x'.body = x.body ∧ x'.native = x.native) ∨
      d.routine? r = none ∧ x'.body = none ∧ x'.native = none

/-- All types keep their bodies, and a new type has no members. -/
structure Module.KeepsBodies (m m' : Module) : Prop where
  types : ∀ {i : Nat} {d' : TypeDef}, m'.types[i]? = some d' →
    (∃ d, m.types[i]? = some d ∧ d.KeepsBodies d') ∨ m.types[i]? = none ∧ ∀ r, d'.routine? r = none

namespace TypeDef.KeepsBodies

variable {d : TypeDef}

theorem of_members {d' : TypeDef} (hc : d'.isCreated = d.isCreated) (h : ∀ r, d'.routine? r = d.routine? r) :
    d.KeepsBodies d' where
  isCreated := hc
  members {r x} hx := .inl ⟨x, by rw [← h]; exact hx, rfl, rfl⟩

theorem refl (d : TypeDef) : d.KeepsBodies d := .of_members rfl fun _ => rfl

theorem pushed {xs : Array Routine} {x x' : Routine} {k : Nat} (hb : x.body = none) (hn : x.native = none)
    (h : (xs.push x)[k]? = some x') :
    (∃ y, xs[k]? = some y ∧ x'.body = y.body ∧ x'.native = y.native) ∨ xs[k]? = none ∧ x'.body = none ∧
      x'.native = none := by
  rw [Array.getElem?_push] at h
  split at h
  · rename_i hk
    cases h
    exact .inr ⟨by simp [hk], hb, hn⟩
  · exact .inl ⟨x', h, rfl, rfl⟩

theorem pushCtor {x : Routine} (hb : x.body = none) (hn : x.native = none) :
    d.KeepsBodies { d with ctors := d.ctors.push x } where
  isCreated := rfl
  members {r x'} hx' := by
    cases hr : r.isCtor with
    | true =>
      simp only [TypeDef.routine?, hr, if_true] at hx' ⊢
      exact pushed hb hn hx'
    | false =>
      simp only [TypeDef.routine?, hr, Bool.false_eq_true, if_false] at hx' ⊢
      exact .inl ⟨x', hx', rfl, rfl⟩

theorem pushMethod {x : Routine} (hb : x.body = none) (hn : x.native = none) :
    d.KeepsBodies { d with methods := d.methods.push x } where
  isCreated := rfl
  members {r x'} hx' := by
    cases hr : r.isCtor with
    | true =>
      simp only [TypeDef.routine?, hr, if_true] at hx' ⊢
      exact .inl ⟨x', hx', rfl, rfl⟩
    | false =>
      simp only [TypeDef.routine?, hr, Bool.false_eq_true, if_false] at hx' ⊢
      exact pushed hb hn hx'

theorem modifyRoutine {r : Method} {f : Routine → Routine} (hb : ∀ x, (f x).body = x.body)
    (hn : ∀ x, (f x).native = x.native) :
    d.KeepsBodies (d.modifyRoutine r f) where
  isCreated := d.isCreated_modifyRoutine r f
  members {q x'} hx' := by
    have modified : ∀ xs : Array Routine, (xs.modify r.index f)[q.index]? = some x' →
        ∃ x, xs[q.index]? = some x ∧ x'.body = x.body ∧ x'.native = x.native := by
      intro xs h
      rw [Array.getElem?_modify] at h
      split at h
      · obtain ⟨x, hx, rfl⟩ := Option.map_eq_some_iff.mp h
        exact ⟨x, hx, hb x, hn x⟩
      · exact ⟨x', h, rfl, rfl⟩
    unfold TypeDef.modifyRoutine at hx'
    cases hq : q.isCtor with
    | true =>
      simp only [TypeDef.routine?, hq, if_true] at hx' ⊢
      split at hx'
      · exact .inl (modified _ hx')
      · exact .inl ⟨x', hx', rfl, rfl⟩
    | false =>
      simp only [TypeDef.routine?, hq, Bool.false_eq_true, if_false] at hx' ⊢
      split at hx'
      · exact .inl ⟨x', hx', rfl, rfl⟩
      · exact .inl (modified _ hx')

end TypeDef.KeepsBodies

namespace Module

variable {m m' : Module}

theorem KeepsBodies.of_types (h : m'.types = m.types) : m.KeepsBodies m' where
  types {i d} hd := .inl ⟨d, by rw [← h]; exact hd, .refl d⟩

theorem KeepsBodies.modifyDef {t : Ty} {f : TypeDef → TypeDef} (hf : ∀ d, TypeDef.KeepsBodies d (f d)) :
    m.KeepsBodies (m.modifyDef t f) where
  types {i d} hd := by
    have hd : (m.types.modify t.declared.index f)[i]? = some d := hd
    rw [Array.getElem?_modify] at hd
    split at hd
    · obtain ⟨e, he, rfl⟩ := Option.map_eq_some_iff.mp hd
      exact .inl ⟨e, he, hf e⟩
    · exact .inl ⟨d, hd, .refl d⟩

theorem KeepsBodies.setDraft {r : Method} {D : Draft} : m.KeepsBodies (m.setDraft r D) :=
  .modifyDef fun _ => .modifyRoutine (fun _ => rfl) fun _ => rfl

/-- A call keeps all bodies, unless it is to finish a type. -/
theorem Change.keepsBodies (h : m.Change m') : m.KeepsBodies m' ∨ ∃ t, m' = (m.createType t).2 := by
  cases h with
  | defineType h =>
    unfold Module.defineType at h
    split at h
    · cases h
    cases h
    refine .inl ⟨fun {i d} hd => ?_⟩
    have hd : (m.types.push _)[i]? = some d := hd
    rw [Array.getElem?_push] at hd
    split at hd
    · rename_i hi
      cases hd
      exact .inr ⟨by simp [hi], fun r => by simp [TypeDef.routine?]⟩
    · exact .inl ⟨d, hd, .refl d⟩
  | defineField _ h =>
    obtain ⟨d, -, h⟩ := bind_eq_ok.mp h
    cases h
    exact .inl (.modifyDef fun d => .of_members rfl fun r => rfl)
  | defineMethod _ h =>
    obtain ⟨d, -, h⟩ := bind_eq_ok.mp h
    cases h
    exact .inl (.modifyDef fun e => .pushMethod rfl rfl)
  | defineConstructor _ h =>
    obtain ⟨d, -, h⟩ := bind_eq_ok.mp h
    cases h
    exact .inl (.modifyDef fun e => .pushCtor rfl rfl)
  | defineParameter _ h =>
    unfold Module.defineParameter at h
    split at h
    · cases h
    · cases h
      exact .inl (.modifyDef fun _ => .modifyRoutine (fun _ => rfl) fun _ => rfl)
  | setImplementation _ h =>
    obtain ⟨d, -, h⟩ := bind_eq_ok.mp h
    cases h
    exact .inl (.modifyDef fun _ => .modifyRoutine (fun _ => rfl) fun _ => rfl)
  | setEntryPoint h =>
    unfold Module.setEntryPoint at h
    repeat' split at h
    all_goals cases h
    all_goals exact .inl (.of_types rfl)
  | emit e _ _ => exact .inl .setDraft
  | declareLocal _ h =>
    obtain ⟨⟨l, D⟩, -, h⟩ := bind_eq_ok.mp h
    cases h
    exact .inl .setDraft
  | defineLabel _ h =>
    obtain ⟨⟨l, D⟩, -, h⟩ := bind_eq_ok.mp h
    cases h
    exact .inl .setDraft
  | markLabel _ h =>
    obtain ⟨D, -, h⟩ := bind_eq_ok.mp h
    cases h
    exact .inl .setDraft
  | createType _ => exact .inr ⟨_, rfl⟩

/-! ### Histories -/

/-- The modules that calls lead to one after another, the last one first. -/
inductive History (id : Nat) : List Module → Prop
  | new (name runtime : Text) : History id [.new id .dynamic name runtime]
  | change {m m' : Module} {past : List Module} : History id (m :: past) → m.Change m' → History id (m' :: m :: past)

/-- In the past, a call that failed to finish the type of a member had verified the member. -/
def CheckedInVain (past : List Module) (r : Method) : Prop :=
  ∃ m d, [(m.createType r.owner).2, m] <:+: past ∧ m.open? r.owner "type body" = .ok d ∧ d.ChecksInVain r

variable {id : Nat} {past : List Module}

theorem History.built (h : History id (m :: past)) : m.Built id := by
  induction past generalizing m with
  | nil =>
    cases h
    exact .new _ _
  | cons m₁ past ih =>
    cases h with
    | change h hc => exact .change (ih h) hc

theorem Built.history (h : m.Built id) : ∃ past, History id (m :: past) := by
  induction h with
  | new name runtime => exact ⟨[], .new name runtime⟩
  | change _ hc ih =>
    obtain ⟨past, h⟩ := ih
    exact ⟨_, .change h hc⟩

theorem checkedInVain_new {r : Method} : ¬CheckedInVain [m] r := by
  rintro ⟨m', d, hin, -⟩
  have := hin.length_le
  simp at this

theorem checkedInVain_cons {r : Method} : CheckedInVain (m' :: m :: past) r ↔
    (m' = (m.createType r.owner).2 ∧ ∃ d, m.open? r.owner "type body" = .ok d ∧ d.ChecksInVain r) ∨
      CheckedInVain (m :: past) r := by
  constructor
  · rintro ⟨m₀, d, hin, hopen, hvain⟩
    rcases List.infix_cons_iff.mp hin with hpre | hin
    · obtain ⟨hm', hpre⟩ := List.cons_prefix_cons.mp hpre
      obtain ⟨rfl, -⟩ := List.cons_prefix_cons.mp hpre
      exact .inl ⟨hm'.symm, d, hopen, hvain⟩
    · exact .inr ⟨m₀, d, hin, hopen, hvain⟩
  · rintro (⟨rfl, d, hopen, hvain⟩ | ⟨m₀, d, hin, hopen, hvain⟩)
    · exact ⟨m, d, (List.prefix_append _ past).isInfix, hopen, hvain⟩
    · exact ⟨m₀, d, hin.trans (List.suffix_cons _ _).isInfix, hopen, hvain⟩

/-- A member that has been verified was there then, and so it is now. -/
theorem CheckedInVain.routine? (h : History id (m :: past)) {r : Method} (hc : CheckedInVain (m :: past) r) :
    ∃ x, m.routine? r = some x := by
  induction past generalizing m with
  | nil => exact absurd hc checkedInVain_new
  | cons m₁ past ih =>
    cases h with
    | change h hchange =>
      have there : ∃ x, m₁.routine? r = some x := by
        rcases checkedInVain_cons.mp hc with ⟨-, d, hopen, hvain⟩ | hc
        · obtain ⟨x, hx, -⟩ := hvain.recorded
          exact ⟨x, by rw [Module.routine?, (open?_ok hopen).1]; exact hx⟩
        · exact ih h hc
      obtain ⟨x, hx⟩ := there
      obtain ⟨x', hx', -⟩ := (hchange.grows h.built.checked.dynamic).routine? hx
      exact ⟨x', hx'⟩

/-- Finishing a type puts what becomes of the open definition in its place. -/
theorem createType_eq (hm : m.backend = .dynamic) {t : Ty} :
    (m.createType t).2 = m ∨ ∃ d, m.open? t "type body" = .ok d ∧
      (m.createType t).2 = m.modifyDef t fun _ => (finishDef d).2 := by
  unfold createType
  cases m.open? t "type body" with
  | error f => exact .inl rfl
  | ok d => exact .inr ⟨d, rfl, by simp only [hm]⟩

theorem isCreated_new {backend : Backend} {name runtime : Text} {i : Nat} {d : TypeDef}
    (h : (Module.new id backend name runtime).types[i]? = some d) : d.isCreated = true := by
  obtain ⟨e, -, rfl⟩ := List.mem_map.mp (List.mem_toArray.mp (Array.mem_of_getElem? h))
  rfl

/-- A member of an unfinished type has a body exactly if it was verified by a call that failed to finish the type. -/
theorem History.body_iff (h : History id (m :: past)) {r : Method} {d : TypeDef} {x : Routine}
    (hd : m.def? r.owner = some d)
    (hopen : d.isCreated = false) (hx : d.routine? r = some x) :
      x.native = none ∧ (x.body ≠ none ↔ CheckedInVain (m :: past) r) := by
  induction past generalizing m d x with
  | nil =>
    cases h
    rw [isCreated_new (def?_some hd).1] at hopen
    cases hopen
  | cons m₁ past ih =>
    cases h with
    | change h hchange =>
    have hm₁ := h.built.checked.dynamic
    have hgrows := hchange.grows hm₁
    obtain ⟨htype, harray, hmodule⟩ := def?_some hd
    have before : ∀ {e}, m₁.types[r.owner.declared.index]? = some e → m₁.def? r.owner = some e := fun he => by
      rw [def?_eq harray, if_pos (hmodule.trans hgrows.id), he]
    rw [checkedInVain_cons]
    -- A member that this call has verified has a body now.
    have now : (m = (m₁.createType r.owner).2 ∧ ∃ e, m₁.open? r.owner "type body" = .ok e ∧ e.ChecksInVain r) →
        x.body ≠ none := by
      rintro ⟨rfl, e, he, hvain⟩
      have hdef : (m₁.modifyDef r.owner fun _ => (finishDef e).2).def? r.owner = some (finishDef e).2 := by
        rw [def?_modifyDef m₁ harray, (open?_ok he).1]
        rfl
      have hd' : (m₁.createType r.owner).2.def? r.owner = some (finishDef e).2 := by
        simpa only [createType, he, hm₁] using hdef
      rw [hd] at hd'
      cases hd'
      obtain ⟨y, hy, -, hiff⟩ := finishDef_open rfl hopen hx
      exact hiff.mpr (.inr hvain)
    -- A member that this call leaves alone is as it was.
    have kept : ∀ {e y}, m₁.types[r.owner.declared.index]? = some e → e.isCreated = false →
        e.routine? r = some y → x.body = y.body →
        x.native = y.native → x.native = none ∧ (x.body ≠ none ↔
          (m = (m₁.createType r.owner).2 ∧ ∃ e, m₁.open? r.owner "type body" = .ok e ∧ e.ChecksInVain r) ∨
            CheckedInVain (m₁ :: past) r) := by
      intro e y he hopen hy hbody hnative
      obtain ⟨hn, hiff⟩ := ih h (before he) hopen hy
      exact ⟨hnative.trans hn, fun hb => .inr (hiff.mp (hbody ▸ hb)), fun hor => hor.elim now fun hc => hbody ▸ hiff.mpr hc⟩
    rcases hchange.keepsBodies with hkeeps | ⟨t, ht⟩
    · rcases hkeeps.types htype with ⟨e, he, hed⟩ | ⟨-, hnone⟩
      · rcases hed.members hx with ⟨y, hy, hbody, hnative⟩ | ⟨hnew, hbody, hnative⟩
        · exact kept he (hed.isCreated ▸ hopen) hy hbody hnative
        · refine ⟨hnative, fun hb => absurd hbody hb, fun hor => hor.elim now fun hc => ?_⟩
          obtain ⟨y, hy⟩ := hc.routine? h
          rw [Module.routine?, before he, Option.bind_some, hnew] at hy
          cases hy
      · rw [hnone r] at hx
        cases hx
    · rcases createType_eq hm₁ with hsame | ⟨e, he, hput⟩
      · rw [ht, hsame] at htype
        exact kept htype hopen hx rfl rfl
      · have hfinished := htype
        rw [ht, hput] at hfinished
        have hfinished : (m₁.types.modify t.declared.index fun _ => (finishDef e).2)[r.owner.declared.index]? =
            some d := hfinished
        rw [Array.getElem?_modify] at hfinished
        split at hfinished
        · rename_i hi
          have hte := (def?_some (open?_ok he).1).1
          rw [hi] at hte
          rw [hte] at hfinished
          cases hfinished
          obtain ⟨y, hy, hnative, hiff⟩ := finishDef_open rfl hopen hx
          obtain ⟨hn, hiff'⟩ := ih h (before hte) (open?_ok he).2 hy
          have howner : m₁.open? r.owner "type body" = .ok e := by
            simp only [open?, before hte, (open?_ok he).2, Bool.false_eq_true, if_false]
          have hm : m = (m₁.createType r.owner).2 := by
            rw [ht, hput]
            simp only [createType, howner, hm₁, modifyDef, hi]
          refine ⟨hnative.trans hn, hiff.trans ⟨fun hor => ?_,
              fun hor => hor.elim (fun hnow => hiff.mp (now hnow)) fun hc => .inl (hiff'.mpr hc)⟩⟩
          rcases hor with hb | hvain
          · exact .inr (hiff'.mp hb)
          · exact .inl ⟨hm, e, howner, hvain⟩
        · exact kept hfinished hopen hx rfl rfl

end Module

end CilCompiler
