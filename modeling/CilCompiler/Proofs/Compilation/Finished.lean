import CilCompiler.Proofs.Compilation.Recorded

/-!
Finishing types. A type can be finished when its base is supported and each of its bodies can be verified; then
its members have the bodies that were verified, and no other definition changes.
-/

namespace CilCompiler

/-- The member once its type is finished. -/
def Routine.finished (x : Routine) : Routine :=
  if x.impl = .runtime then x else { x with body := (x.draft.verify x.method.ret).toOption }

/-- The runtime implements the member, or its body can be verified. -/
def Routine.Finishable (x : Routine) : Prop := x.impl = .runtime ∨ ∃ b, x.draft.verify x.method.ret = .ok b

/-- The definition once it is finished. -/
def TypeDef.finished (d : TypeDef) : TypeDef :=
  { d with ctors := d.ctors.map Routine.finished, methods := d.methods.map Routine.finished, isCreated := true }

/-- The definition has a supported base and members that can be finished. -/
structure TypeDef.Finishable (d : TypeDef) : Prop where
  base : ∀ {b : Ty}, d.type.base? = some b → Module.supportsBase b = true
  routines : ∀ x ∈ d.routines, x.Finishable

theorem Routine.method_finished (x : Routine) : x.finished.method = x.method := by
  unfold Routine.finished
  split <;> rfl

theorem Routine.draft_finished (x : Routine) : x.finished.draft = x.draft := by
  unfold Routine.finished
  split <;> rfl

theorem TypeDef.Shaped.finished {d : TypeDef} {id i : Nat} (h : d.Shaped id i) : d.finished.Shaped id i := by
  refine ⟨h.notArray, h.module, h.index, h.fields, h.slots, fun {k x} hx => ?_, fun {k x} hx => ?_⟩
  · have hx : (d.ctors.map Routine.finished)[k]? = some x := hx
    rw [Array.getElem?_map] at hx
    obtain ⟨y, hy, rfl⟩ := Option.map_eq_some_iff.mp hx
    rw [y.method_finished]
    exact h.ctors hy
  · have hx : (d.methods.map Routine.finished)[k]? = some x := hx
    rw [Array.getElem?_map] at hx
    obtain ⟨y, hy, rfl⟩ := Option.map_eq_some_iff.mp hx
    rw [y.method_finished]
    exact h.methods hy

theorem Module.finishRoutine_ok_iff {x y : Routine} : finishRoutine x = .ok y ↔ x.Finishable ∧ y = x.finished := by
  unfold finishRoutine Routine.finished Routine.Finishable
  split
  · rename_i h
    simp [h, eq_comm]
  · rename_i h
    cases hv : x.draft.verify x.method.ret with
    | error f => simp [h]
    | ok b => simp [Except.toOption, eq_comm]

theorem Module.finishRoutines_ok {l l' : List Routine} (h : finishRoutines l = (.ok (), l')) :
    (∀ x ∈ l, x.Finishable) ∧ l' = l.map Routine.finished := by
  induction l generalizing l' with
  | nil =>
    cases h
    exact ⟨fun x hx => (by cases hx), rfl⟩
  | cons x l ih =>
    unfold finishRoutines at h
    split at h
    · cases h
    · rename_i y hy
      obtain ⟨hx, rfl⟩ := finishRoutine_ok_iff.mp hy
      cases hr : finishRoutines l with
      | mk r rest =>
        rw [hr] at h
        cases h
        obtain ⟨hl, rfl⟩ := ih hr
        refine ⟨fun z hz => ?_, rfl⟩
        rcases List.mem_cons.mp hz with rfl | hz
        · exact hx
        · exact hl z hz

theorem Module.finishRoutines_total {l : List Routine} (h : ∀ x ∈ l, x.Finishable) :
    finishRoutines l = (.ok (), l.map Routine.finished) := by
  induction l with
  | nil => rfl
  | cons x l ih =>
    have hx := finishRoutine_ok_iff.mpr ⟨h x List.mem_cons_self, rfl⟩
    unfold finishRoutines
    rw [hx]
    dsimp only
    rw [ih fun y hy => h y (List.mem_cons_of_mem _ hy)]
    rfl

theorem Module.finishDef_ok {d d' : TypeDef} (h : finishDef d = (.ok (), d')) : d.Finishable ∧ d' = d.finished := by
  unfold finishDef at h
  split at h
  · cases h
  · rename_i hbase
    split at h
    · cases h
    · rename_i e hm
      cases h
      unfold finishMembers at hm
      split at hm
      · cases hm
      · rename_i ctors hc
        obtain ⟨hctors, rfl⟩ := finishRoutines_ok hc
        cases hr : finishRoutines d.methods.toList with
        | mk r rest =>
          rw [hr] at hm
          cases hm
          obtain ⟨hmethods, rfl⟩ := finishRoutines_ok hr
          refine ⟨⟨fun {b} hb => ?_, fun x hx => ?_⟩, by simp [TypeDef.finished, ← List.map_toArray]⟩
          · rw [hb] at hbase
            simpa [Option.filter] using hbase
          · rcases List.mem_append.mp hx with hx | hx
            · exact hctors x hx
            · exact hmethods x hx

theorem Module.finishDef_total {d : TypeDef} (h : d.Finishable) : finishDef d = (.ok (), d.finished) := by
  have hbase : (d.type.base?.filter fun b => !supportsBase b) = none := by
    cases hb : d.type.base? with
    | none => rfl
    | some b => simp [Option.filter, h.base hb]
  unfold finishDef finishMembers
  rw [hbase, finishRoutines_total fun x hx => h.routines x (List.mem_append_left _ hx),
    finishRoutines_total fun x hx => h.routines x (List.mem_append_right _ hx)]
  simp [TypeDef.finished, ← List.map_toArray]

/-- Finishing a type leaves the drafts of bodies as they are. -/
theorem Module.createType_draft {m m' : Module} {t : Ty} (h : m.createType t = (.ok (), m')) (r : Method) :
    m'.draft r = m.draft r := by
  unfold createType at h
  split at h
  · cases h
  · rename_i d hopen
    have hdef := (def?_some (open?_ok hopen).1).1
    split at h
    · split at h
      · rename_i m₁ hwrite
        cases h
        have hlines : m₁.draft r = m.draft r := by
          unfold writeType at hwrite
          split at hwrite
          · cases hwrite
          · obtain ⟨block, -, hwrite⟩ := bind_eq_ok.mp hwrite
            cases hwrite
            exact draft_congr rfl rfl
        rw [← hlines]
        exact draft_modifyDef fun e _ => (rfl : (e.routine? r).map Routine.draft = _)
      · cases h
    · cases hf : finishDef d with
      | mk result d' =>
        rw [hf] at h
        cases h
        obtain ⟨-, rfl⟩ := finishDef_ok hf
        refine draft_modifyDef fun e he => ?_
        rw [hdef] at he
        cases he
        unfold TypeDef.routine? TypeDef.finished
        split <;> simp [Function.comp_def, Routine.draft_finished]

namespace Compilation
variable {c c' : Compilation}

/-- Finishing a type puts the finished definition in the place of the open one. -/
theorem finishType_ok_iff {d : DeclaredType} {e : TypeDef} (hs : c.module.Shaped) (hb : c.module.backend = .dynamic)
    (he : c.module.types[index d]? = some e) (ht : e.type = d.type) :
    c.finishType d = .ok c' ↔
      e.isCreated = false ∧ e.Finishable ∧ c' = { c with module := c.module.put (index d) e.finished } := by
  have hdef : c.module.def? d.type = some e := by
    rw [← ht]
    exact hs.def? he
  have hput : c.module.modifyDef d.type (fun _ => e.finished) = c.module.put (index d) e.finished := by
    rw [← ht]
    exact Module.modifyDef_eq_put he (hs he).index _
  unfold finishType Module.createType Module.open?
  rw [hdef, hb]
  cases hc : e.isCreated with
  | true => simp [hc]
  | false =>
    simp only [hc, Bool.false_eq_true, if_false, true_and]
    constructor
    · intro h
      cases hf : Module.finishDef e with
      | mk r e' =>
        rw [hf] at h
        cases r with
        | error f => cases h
        | ok u =>
          obtain ⟨hfin, rfl⟩ := Module.finishDef_ok hf
          simp only [Except.ok.injEq] at h
          rw [hput] at h
          exact ⟨hfin, h.symm⟩
    · rintro ⟨hfin, rfl⟩
      rw [Module.finishDef_total hfin]
      simp only [hput]

/-- The definitions of some types, which differ, can be finished. -/
def AllFinishable (c : Compilation) (ds : List DeclaredType) : Prop :=
  ∀ d ∈ ds, ∃ e, c.module.types[index d]? = some e ∧ e.type = d.type ∧ e.isCreated = false ∧ e.Finishable

theorem finish_total {ds : List DeclaredType} (hs : c.module.Shaped) (hb : c.module.backend = .dynamic)
    (hnodup : (ds.map index).Nodup) (hf : c.AllFinishable ds) : ∃ c', ds.foldlM finishType c = .ok c' := by
  induction ds generalizing c with
  | nil => exact ⟨c, rfl⟩
  | cons d ds ih =>
    obtain ⟨e, he, ht, hopen, hfin⟩ := hf d List.mem_cons_self
    rw [List.map_cons, List.nodup_cons] at hnodup
    have h1 := (finishType_ok_iff hs hb he ht).mpr ⟨hopen, hfin, rfl⟩
    have hlt := (Array.getElem?_eq_some_iff.mp he).1
    have rest : ({ c with module := c.module.put (index d) e.finished } : Compilation).AllFinishable ds := by
      intro x hx
      obtain ⟨e', he', h⟩ := hf x (List.mem_cons_of_mem _ hx)
      refine ⟨e', ?_, h⟩
      show (c.module.put _ _).types[index x]? = _
      rw [Module.types_put hlt, if_neg fun heq => hnodup.1 (by rw [heq]; exact List.mem_map_of_mem hx)]
      exact he'
    obtain ⟨c', hc'⟩ :=
      ih (c := { c with module := c.module.put (index d) e.finished }) (hs.put (hs he).finished) hb hnodup.2 rest
    exact ⟨c', by rw [List.foldlM_cons, h1]; exact hc'⟩

/-- What is left when types have been finished. -/
theorem finish_ok {ds : List DeclaredType} (hs : c.module.Shaped) (hb : c.module.backend = .dynamic)
    (hnodup : (ds.map index).Nodup) (hd : ∀ d ∈ ds, ∃ e, c.module.types[index d]? = some e ∧ e.type = d.type)
    (hf : ds.foldlM finishType c = .ok c') :
    c' = { c with module := { c.module with types := c'.module.types } } ∧
      (∀ i, c'.module.types[i]? = (c.module.types[i]?).map fun e => if i ∈ ds.map index then e.finished else e) ∧
      ∀ d ∈ ds, ∀ e, c.module.types[index d]? = some e → e.Finishable := by
  induction ds generalizing c with
  | nil =>
    cases hf
    refine ⟨rfl, fun i => ?_, fun d hd => (by cases hd)⟩
    cases c'.module.types[i]? <;> simp
  | cons d ds ih =>
    obtain ⟨c₁, h1, h2⟩ := foldlM_cons_ok hf
    obtain ⟨e, he, ht⟩ := hd d List.mem_cons_self
    obtain ⟨-, hfin, rfl⟩ := (finishType_ok_iff hs hb he ht).mp h1
    rw [List.map_cons, List.nodup_cons] at hnodup
    have hlt := (Array.getElem?_eq_some_iff.mp he).1
    have other : ∀ x ∈ ds, (c.module.put (index d) e.finished).types[index x]? = c.module.types[index x]? := by
      intro x hx
      rw [Module.types_put hlt, if_neg fun heq => hnodup.1 (by rw [heq]; exact List.mem_map_of_mem hx)]
    obtain ⟨hrest, htypes, hall⟩ := ih (c := { c with module := c.module.put (index d) e.finished })
      (hs.put (hs he).finished) hb hnodup.2 (fun x hx => by
      obtain ⟨e', he', h⟩ := hd x (List.mem_cons_of_mem _ hx)
      exact ⟨e', (other x hx).trans he', h⟩) h2
    refine ⟨hrest, fun i => ?_, fun x hx e' he' => ?_⟩
    · rw [htypes i]
      show ((c.module.put (index d) e.finished).types[i]?).map _ = _
      rw [Module.types_put hlt]
      by_cases hi : index d = i
      · rw [if_pos hi, ← hi, he, Option.map_some, Option.map_some, if_neg hnodup.1, if_pos (by simp)]
      · rw [if_neg hi, List.map_cons]
        simp only [List.mem_cons, Ne.symm hi, false_or]
    · rcases List.mem_cons.mp hx with rfl | hx
      · rw [he] at he'
        cases he'
        exact hfin
      · exact hall x hx e' ((other x hx).trans he')

/-- Finishing types leaves what was declared and recorded as it is. -/
theorem finish_same (h : c.finish = .ok c') : c'.types = c.types ∧ ∀ r, c'.module.draft r = c.module.draft r := by
  have keeps : ∀ (ds : List DeclaredType) {c : Compilation}, ds.foldlM finishType c = .ok c' →
      c'.types = c.types ∧ ∀ r, c'.module.draft r = c.module.draft r := by
    intro ds
    induction ds with
    | nil =>
      intro c h
      cases h
      exact ⟨rfl, fun _ => rfl⟩
    | cons d ds ih =>
      intro c h
      obtain ⟨c₁, h1, h2⟩ := foldlM_cons_ok h
      obtain ⟨htypes, hdraft⟩ := ih h2
      unfold finishType at h1
      split at h1
      · rename_i hc
        cases h1
        exact ⟨htypes, fun r => (hdraft r).trans (Module.createType_draft hc r)⟩
      · cases h1
  exact keeps c.types h

end Compilation
end CilCompiler
