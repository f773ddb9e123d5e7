import CilCompiler.Module.Finish
import CilCompiler.Proofs.Depths
import CilCompiler.Proofs.Emission
import CilCompiler.Proofs.Module

/-!
Modules in the making. `Module.Change` is one call on a dynamic module, with references that the module has given out;
`Module.Built` are the modules that any sequence of calls leads to, refused calls included. A change keeps the members
there are (`Change.grows`), so every body of a module comes from instructions that were recorded for its member and
verified, and the constructors these refer to are there (`Built.checked`).
-/

namespace CilCompiler

namespace Module

/-- The module has the member that a reference stands for. -/
def Has (m : Module) (r : Method) : Prop := ∃ x, m.routine? r = some x ∧ x.method = r

/-- The module has a type. -/
def Declares (m : Module) (t : Ty) : Prop := ∃ d, m.def? t = some d ∧ d.type = t

end Module

/-- What an emission refers to is a member of its kind that the module has, or a member of another module. -/
def Emission.Known (m : Module) : Emission → Prop
  | .method _ r => r.isCtor = false ∧ (r.owner.module = m.id → m.Has r)
  | .ctor _ r => r.isCtor = true ∧ (r.owner.module = m.id → m.Has r)
  | .field _ f => f.owner.module = m.id → ∃ d, m.def? f.owner = some d ∧ f ∈ d.fields.toList
  | _ => True

namespace Module

/-- One call on a module. A call that fails and leaves the module as it was is no change. -/
inductive Change (m : Module) : Module → Prop
  | defineType {name attrs base t m'} : m.defineType name attrs base = .ok (t, m') → Change m m'
  | defineField {t name type attrs f m'} : m.Declares t → m.defineField t name type attrs = .ok (f, m') → Change m m'
  | defineMethod {t name attrs ret params r m'} : m.Declares t → m.defineMethod t name attrs ret params = .ok (r, m') →
      Change m m'
  | defineConstructor {t attrs params r m'} : m.Declares t → m.defineConstructor t attrs params = .ok (r, m') → Change m m'
  | defineParameter {r position name m'} : m.Has r → m.defineParameter r position name = .ok m' → Change m m'
  | setImplementation {r impl m'} : m.Has r → m.setImplementation r impl = .ok m' → Change m m'
  | setEntryPoint {r m'} : m.setEntryPoint r = .ok m' → Change m m'
  | emit {r} (e : Emission) : m.Has r → e.Known m → Change m (m.emit r e).2
  | declareLocal {r t l m'} : m.Has r → m.declareLocal r t = .ok (l, m') → Change m m'
  | defineLabel {r l m'} : m.Has r → m.defineLabel r = .ok (l, m') → Change m m'
  | markLabel {r l m'} : m.Has r → m.markLabel r l = .ok m' → Change m m'
  | createType {t} : m.Declares t → Change m (m.createType t).2

/-- The dynamic modules that calls lead to, from the one with the catalog only. -/
inductive Built (id : Nat) : Module → Prop
  | new (name runtime : Text) : Built id (.new id .dynamic name runtime)
  | change {m m' : Module} : Built id m → m.Change m' → Built id m'

end Module

/-! ### What a change does to members -/

/-- A constructor that an instruction calls is there. -/
def Instr.Known (m : Module) (i : Instr) : Prop := ∀ c, i = { op := .call, operand := .ctor c } → c.isCtor = true ∧ m.Has c

/-- What a change of the module makes of a member. -/
inductive Routine.Grows (m : Module) (x : Routine) : Routine → Prop
  | same : Grows m x x
  | names (paramNames : List Text) : Grows m x { x with paramNames }
  | impl (impl : Implementation) : Grows m x { x with impl }
  | draft {draft : Draft} : (x.draft.Built x.method → draft.Built x.method) →
      (∀ i ∈ draft.code, i ∈ x.draft.code ∨ i.Known m) → Grows m x { x with draft }
  | finish {b : Body} : x.draft.verify x.method.ret = .ok b → Grows m x { x with body := some b }

theorem Routine.Grows.method {m : Module} {x x' : Routine} (h : x.Grows m x') : x'.method = x.method := by
  cases h <;> rfl

/-- A member that has just been defined. -/
def Routine.IsNew (x : Routine) : Prop := x.draft = {} ∧ x.body = none

/-- Members have changed or have been added behind. -/
structure Routine.AllGrow (m : Module) (xs xs' : Array Routine) : Prop where
  kept : ∀ {k : Nat} {x : Routine}, xs[k]? = some x → ∃ x', xs'[k]? = some x' ∧ x.Grows m x'
  found : ∀ {k : Nat} {x' : Routine}, xs'[k]? = some x' → (∃ x, xs[k]? = some x ∧ x.Grows m x') ∨ x'.IsNew

structure TypeDef.Grows (m : Module) (d d' : TypeDef) : Prop where
  type : d'.type = d.type
  ctors : Routine.AllGrow m d.ctors d'.ctors
  methods : Routine.AllGrow m d.methods d'.methods

structure Module.Grows (m m' : Module) : Prop where
  id : m'.id = m.id
  backend : m'.backend = m.backend
  kept : ∀ {i : Nat} {d : TypeDef}, m.types[i]? = some d → ∃ d', m'.types[i]? = some d' ∧ d.Grows m d'
  found : ∀ {i : Nat} {d' : TypeDef}, m'.types[i]? = some d' →
    (∃ d, m.types[i]? = some d ∧ d.Grows m d') ∨ d'.ctors = #[] ∧ d'.methods = #[]

variable {m m' : Module} {d d' : TypeDef} {x : Routine}

namespace Routine.AllGrow

theorem refl (xs : Array Routine) : AllGrow m xs xs where
  kept h := ⟨_, h, .same⟩
  found h := .inl ⟨_, h, .same⟩

theorem push {xs : Array Routine} (hx : x.IsNew) : AllGrow m xs (xs.push x) where
  kept {k y} h := by
    refine ⟨y, ?_, .same⟩
    rw [Array.getElem?_push, if_neg (by have := (Array.getElem?_eq_some_iff.mp h).1; omega)]
    exact h
  found {k y} h := by
    rw [Array.getElem?_push] at h
    split at h
    · cases h
      exact .inr hx
    · exact .inl ⟨y, h, .same⟩

/-- Each member is changed in its place. -/
theorem of_forall₂ {xs xs' : List Routine} (h : List.Forall₂ (Routine.Grows m) xs xs') :
    AllGrow m xs.toArray xs'.toArray := by
  rw [List.forall₂_iff_get] at h
  obtain ⟨hlen, hget⟩ := h
  constructor
  · intro k x hx
    rw [List.getElem?_toArray, List.getElem?_eq_some_iff] at hx
    obtain ⟨hk, rfl⟩ := hx
    exact ⟨xs'[k], by simp, hget k hk (hlen ▸ hk)⟩
  · intro k x' hx'
    rw [List.getElem?_toArray, List.getElem?_eq_some_iff] at hx'
    obtain ⟨hk, rfl⟩ := hx'
    exact .inl ⟨xs[k], by simp, hget k (hlen ▸ hk) hk⟩

theorem modify {xs : Array Routine} {n : Nat} {f : Routine → Routine} (hf : ∀ {x}, xs[n]? = some x → x.Grows m (f x)) :
    AllGrow m xs (xs.modify n f) where
  kept {k y} h := by
    rw [Array.getElem?_modify]
    by_cases hk : n = k
    · subst hk
      exact ⟨f y, by simp [h], hf h⟩
    · exact ⟨y, by simp [hk, h], .same⟩
  found {k y} h := by
    rw [Array.getElem?_modify] at h
    split at h
    · obtain ⟨z, hz, rfl⟩ := Option.map_eq_some_iff.mp h
      subst k
      exact .inl ⟨z, hz, hf hz⟩
    · exact .inl ⟨y, h, .same⟩

end Routine.AllGrow

theorem TypeDef.Grows.refl (d : TypeDef) : d.Grows m d := ⟨rfl, .refl _, .refl _⟩

theorem TypeDef.Grows.modifyRoutine {r : Method} {f : Routine → Routine}
    (hf : ∀ {x}, d.routine? r = some x → x.Grows m (f x)) :
    d.Grows m (d.modifyRoutine r f) := by
  cases hc : r.isCtor with
  | true =>
    simp only [TypeDef.modifyRoutine, hc, if_true]
    exact ⟨rfl, .modify fun h => hf (by simpa only [TypeDef.routine?, hc, if_true] using h), .refl _⟩
  | false =>
    simp only [TypeDef.modifyRoutine, hc, Bool.false_eq_true, if_false]
    exact ⟨rfl, .refl _, .modify fun h => hf (by simpa only [TypeDef.routine?, hc, Bool.false_eq_true, if_false] using h)⟩

namespace Module

/-- Nothing but the entry point has changed. -/
theorem Grows.of_types (ht : m'.types = m.types) (hi : m'.id = m.id) (hb : m'.backend = m.backend) : m.Grows m' where
  id := hi
  backend := hb
  kept h := ⟨_, by rw [ht]; exact h, .refl _⟩
  found h := .inl ⟨_, by rw [← ht]; exact h, .refl _⟩

theorem Grows.modifyDef {t : Ty} {f : TypeDef → TypeDef}
    (hf : ∀ {d}, m.types[t.declared.index]? = some d → d.Grows m (f d)) : m.Grows (m.modifyDef t f) where
  id := rfl
  backend := rfl
  kept {i d} h := by
    simp only [Module.modifyDef, Array.getElem?_modify]
    by_cases hi : t.declared.index = i
    · subst hi
      exact ⟨f d, by simp [h], hf h⟩
    · exact ⟨d, by simp [hi, h], .refl _⟩
  found {i d} h := by
    simp only [Module.modifyDef, Array.getElem?_modify] at h
    split at h
    · obtain ⟨e, he, rfl⟩ := Option.map_eq_some_iff.mp h
      subst i
      exact .inl ⟨e, he, hf he⟩
    · exact .inl ⟨d, h, .refl _⟩

/-- What is done to a member that the module has. -/
theorem Grows.modifyRoutine {r : Method} (hr : m.routine? r = some x) {f : Routine → Routine} (hf : x.Grows m (f x)) :
    m.Grows (m.modifyRoutine r f) := by
  obtain ⟨d, hd, hx⟩ := Option.bind_eq_some_iff.mp hr
  refine Grows.modifyDef fun {e} he => ?_
  rw [(def?_some hd).1] at he
  cases he
  exact TypeDef.Grows.modifyRoutine fun h => by rw [hx] at h; cases h; exact hf

/-- The place of a body that a module has. -/
theorem Has.site {r : Method} (h : m.Has r) : (m.site r).method.owner.module = m.id := by
  obtain ⟨x, hx, -⟩ := h
  obtain ⟨d, hd, -⟩ := Option.bind_eq_some_iff.mp hx
  exact (def?_some hd).2.2

end Module

/-! ### Bodies in the making -/

/-- An emission that is recorded calls a constructor that is there. -/
theorem Emission.Known.instr {e : Emission} (h : e.Known m) {s : Site} (hs : s.backend = .dynamic)
    (ho : s.method.owner.module = m.id)
    {i : Instr} (he : e.encode s = .ok i) : i.Known m := by
  rintro c rfl
  have hlong : e.long = { op := .call, operand := .ctor c } := (encode_long he).symm
  cases e with
  | ctor op c' =>
    cases Instr.expanded_eq_call hlong
    refine ⟨h.1, h.2 ?_⟩
    obtain ⟨_, -, he⟩ := bind_eq_ok.mp he
    split at he
    · cases he
    · rename_i hown
      simp only [hs, true_and, Site.owns, Bool.not_eq_true', decide_eq_false_iff_not, not_not] at hown
      rw [hown, ho]
  | plain op | str op s | field op f | method op r => exact nomatch congrArg Instr.operand (Instr.expanded_eq_call hlong)
  | type op t => cases t <;> exact nomatch congrArg Instr.operand (Instr.expanded_eq_call hlong)
  | label op l => cases l <;> exact nomatch congrArg Instr.operand (Instr.expanded_eq_call hlong)
  | int op v => exact nomatch congrArg Instr.operand hlong
  | «local» op l => cases l <;> exact nomatch congrArg Instr.operand hlong
  | arg op n => exact nomatch congrArg Instr.operand hlong

theorem Module.draft_of_routine {r : Method} (h : m.routine? r = some x) : m.draft r = x.draft := by
  simp only [Module.draft, h]

/-- Recording something in the body of a member. -/
theorem Module.Grows.setDraft {r : Method} (hr : m.routine? r = some x) {D : Draft}
    (hb : x.draft.Built x.method → D.Built x.method) (hk : ∀ i ∈ D.code, i ∈ x.draft.code ∨ i.Known m) :
    m.Grows (m.setDraft r D) :=
  .modifyRoutine hr (.draft hb hk)

/-- Recording an instruction. -/
theorem Module.Grows.emit (hm : m.backend = .dynamic) {r : Method} (hr : m.Has r) {e : Emission} (he : e.Known m) :
    m.Grows (m.emit r e).2 := by
  have hsite := hr.site
  obtain ⟨x, hx, rfl⟩ := hr
  refine .setDraft hx (fun hb => ?_) fun i hi => ?_
  · rw [draft_of_routine hx]
    exact .emit e hb hm rfl
  · rw [draft_of_routine hx] at hi
    split at hi
    · rename_i j hj
      simp only [Draft.record, show (m.site x.method).backend = .dynamic from hm, Draft.push, Array.mem_push] at hi
      rcases hi with hi | rfl
      · exact .inl hi
      · exact .inr (he.instr hm hsite hj)
    · exact .inl hi

/-! ### Finishing -/

theorem Module.finishRoutines_grow {xs xs' : List Routine} {result : Except Fault Unit}
    (h : finishRoutines xs = (result, xs')) : List.Forall₂ (Routine.Grows m) xs xs' := by
  induction xs generalizing result xs' with
  | nil =>
    cases h
    exact .nil
  | cons x rest ih =>
    unfold finishRoutines at h
    split at h
    · cases h
      exact List.forall₂_same.mpr fun _ _ => .same
    · rename_i y hy
      cases h
      refine .cons ?_ (ih rfl)
      unfold finishRoutine at hy
      split at hy
      · cases hy
        exact .same
      · split at hy
        · cases hy
          exact .finish ‹_›
        · cases hy

theorem Module.finishMembers_grows {result : Except Fault Unit} (h : finishMembers d = (result, d')) :
    d.Grows m d' := by
  unfold finishMembers at h
  split at h
  · rename_i ctors hc
    cases h
    exact ⟨rfl, .of_forall₂ (finishRoutines_grow hc), .refl _⟩
  · rename_i ctors hc
    cases h
    exact ⟨rfl, .of_forall₂ (finishRoutines_grow hc), .of_forall₂ (finishRoutines_grow rfl)⟩

theorem Module.finishDef_grows {result : Except Fault Unit} (h : finishDef d = (result, d')) : d.Grows m d' := by
  unfold finishDef at h
  split at h
  · cases h
    exact .refl _
  · split at h
    · rename_i hm
      cases h
      exact finishMembers_grows hm
    · rename_i hm
      cases h
      obtain ⟨type, ctors, methods⟩ := finishMembers_grows (m := m) hm
      exact ⟨type, ctors, methods⟩

theorem Module.createType_grows {t : Ty} (hm : m.backend = .dynamic) : m.Grows (m.createType t).2 := by
  unfold createType
  split
  · exact .of_types rfl rfl rfl
  · rename_i d hd
    simp only [hm]
    refine .modifyDef fun {e} he => ?_
    rw [(def?_some (open?_ok hd).1).1] at he
    cases he
    exact finishDef_grows rfl

theorem Module.Grows.defineField {t : Ty} {name : Text} {type : Option Ty} {attrs : FieldAttributes} {f : Field}
    (h : m.defineField t name type attrs = .ok (f, m')) : m.Grows m' := by
  obtain ⟨d, hd, h⟩ := bind_eq_ok.mp h
  cases h
  exact .modifyDef fun _ => ⟨rfl, .refl _, .refl _⟩

theorem Module.Grows.defineMethod {t : Ty} {name : Text} {attrs : MethodAttributes} {ret : Option Ty}
    {params : List (Option Ty)}
    {r : Method} (h : m.defineMethod t name attrs ret params = .ok (r, m')) : m.Grows m' := by
  obtain ⟨d, hd, h⟩ := bind_eq_ok.mp h
  cases h
  exact .modifyDef fun _ => ⟨rfl, .refl _, .push ⟨rfl, rfl⟩⟩

theorem Module.Grows.defineConstructor {t : Ty} {attrs : MethodAttributes} {params : List (Option Ty)} {r : Method}
    (h : m.defineConstructor t attrs params = .ok (r, m')) : m.Grows m' := by
  obtain ⟨d, hd, h⟩ := bind_eq_ok.mp h
  cases h
  exact .modifyDef fun _ => ⟨rfl, .push ⟨rfl, rfl⟩, .refl _⟩

theorem Module.Grows.defineParameter {r : Method} {position : Int} {name : Text}
    (h : m.defineParameter r position name = .ok m') : m.Grows m' := by
  unfold Module.defineParameter at h
  split at h
  · cases h
  · cases h
    exact .modifyDef fun _ => .modifyRoutine fun _ => .names _

theorem Module.Grows.setImplementation {r : Method} {impl : Implementation} (h : m.setImplementation r impl = .ok m') :
    m.Grows m' := by
  obtain ⟨d, hd, h⟩ := bind_eq_ok.mp h
  cases h
  exact .modifyDef fun _ => .modifyRoutine fun _ => .impl _

theorem Module.Grows.setEntryPoint {r : Method} (h : m.setEntryPoint r = .ok m') : m.Grows m' := by
  unfold Module.setEntryPoint at h
  repeat' split at h
  all_goals cases h
  all_goals exact .of_types rfl rfl rfl

/-- One call on a module keeps its members. -/
theorem Module.Change.grows (hm : m.backend = .dynamic) (h : m.Change m') : m.Grows m' := by
  cases h with
  | defineType h =>
    unfold Module.defineType at h
    split at h
    · cases h
    cases h
    refine ⟨rfl, rfl, fun {i d} hd => ⟨d, ?_, .refl d⟩, fun {i d} hd => ?_⟩
    · rw [Array.getElem?_push, if_neg (by have := (Array.getElem?_eq_some_iff.mp hd).1; omega)]
      exact hd
    · rw [Array.getElem?_push] at hd
      split at hd
      · cases hd
        exact .inr ⟨rfl, rfl⟩
      · exact .inl ⟨d, hd, .refl d⟩
  | defineField _ h => exact .defineField h
  | defineMethod _ h => exact .defineMethod h
  | defineConstructor _ h => exact .defineConstructor h
  | defineParameter _ h => exact .defineParameter h
  | setImplementation _ h => exact .setImplementation h
  | setEntryPoint h => exact .setEntryPoint h
  | emit e hr he => exact .emit hm hr he
  | declareLocal hr h =>
    obtain ⟨x, hx, rfl⟩ := hr
    obtain ⟨⟨l, D⟩, hD, h⟩ := bind_eq_ok.mp h
    cases h
    rw [draft_of_routine hx] at hD
    refine .setDraft hx (fun hb => .declareLocal hb hm rfl hD) fun i hi => .inl ?_
    obtain ⟨_, -, hD⟩ := bind_eq_ok.mp hD
    split at hD
    · cases hD
      exact hi
    · cases hD
  | defineLabel hr h =>
    obtain ⟨x, hx, rfl⟩ := hr
    obtain ⟨⟨l, D⟩, hD, h⟩ := bind_eq_ok.mp h
    cases h
    rw [draft_of_routine hx] at hD
    refine .setDraft hx (fun hb => .defineLabel hb hm rfl hD) fun i hi => .inl ?_
    unfold Draft.defineLabel at hD
    split at hD
    · cases hD
    · obtain ⟨_, -, hD⟩ := bind_eq_ok.mp hD
      cases hD
      exact hi
  | markLabel hr h =>
    obtain ⟨x, hx, rfl⟩ := hr
    obtain ⟨D, hD, h⟩ := bind_eq_ok.mp h
    cases h
    rw [draft_of_routine hx] at hD
    refine .setDraft hx (fun hb => .mark hb hm rfl hD) fun i hi => .inl ?_
    unfold Draft.mark at hD
    repeat' split at hD
    all_goals cases hD
    exact hi
  | createType ht => exact createType_grows hm

/-! ### What holds of the members of every module -/

/-- A type or member that is there stays there. -/
theorem Module.Grows.routine? (h : m.Grows m') {r : Method} (hr : m.routine? r = some x) :
    ∃ x', m'.routine? r = some x' ∧ x'.method = x.method := by
  obtain ⟨d, hd, hx⟩ := Option.bind_eq_some_iff.mp hr
  obtain ⟨hi, ha, hmod⟩ := def?_some hd
  obtain ⟨d', hd', hg⟩ := h.kept hi
  have hdef : m'.def? r.owner = some d' := by
    unfold Module.def?
    split
    · rename_i ht
      rw [ht] at ha
      cases ha
    · rw [if_pos (by rw [hmod, h.id])]
      exact hd'
  unfold TypeDef.routine? at hx
  simp only [Module.routine?, hdef, Option.bind_some, TypeDef.routine?]
  split at hx
  · obtain ⟨x', hx', hxx⟩ := hg.ctors.kept hx
    exact ⟨x', by simp [*], hxx.method⟩
  · obtain ⟨x', hx', hxx⟩ := hg.methods.kept hx
    exact ⟨x', by simp [*], hxx.method⟩

theorem Module.Grows.has (h : m.Grows m') {r : Method} (hr : m.Has r) : m'.Has r := by
  obtain ⟨x, hx, hxr⟩ := hr
  obtain ⟨x', hx', hxx⟩ := h.routine? hx
  exact ⟨x', hx', hxx.trans hxr⟩

theorem Instr.Known.grow {i : Instr} (h : i.Known m) (hg : m.Grows m') : i.Known m' := fun c hc =>
  ⟨(h c hc).1, hg.has (h c hc).2⟩

/-- What is known of a member: what was recorded for it, and where its body comes from. -/
structure Routine.Checked (m : Module) (x : Routine) : Prop where
  built : x.draft.Built x.method
  known : ∀ i ∈ x.draft.code, i.Known m
  body : ∀ {b : Body}, x.body = some b → ∃ d : Draft, d.Built x.method ∧ d.verify x.method.ret = .ok b ∧
    ∀ i ∈ d.code, i.Known m

theorem Routine.IsNew.checked (h : x.IsNew) : x.Checked m where
  built := h.1 ▸ .new
  known i hi := by simp [h.1] at hi
  body hb := by simp [h.2] at hb

theorem Routine.Checked.grow {x' : Routine} (h : x.Checked m) (hg : x.Grows m x') (hm : m.Grows m') : x'.Checked m' := by
  have known : ∀ i ∈ x.draft.code, i.Known m' := fun i hi => (h.known i hi).grow hm
  have body : ∀ {b : Body}, x.body = some b →
      ∃ d : Draft, d.Built x.method ∧ d.verify x.method.ret = .ok b ∧ ∀ i ∈ d.code, i.Known m' := fun hb => by
    obtain ⟨d, hd, hv, hk⟩ := h.body hb
    exact ⟨d, hd, hv, fun i hi => (hk i hi).grow hm⟩
  cases hg with
  | same => exact ⟨h.built, known, body⟩
  | names ns => exact ⟨h.built, known, body⟩
  | impl n => exact ⟨h.built, known, body⟩
  | draft hb hk => exact ⟨hb h.built, fun i hi => (hk i hi).elim (known i) fun hi => hi.grow hm, body⟩
  | finish hv =>
    refine ⟨h.built, known, fun hb => ?_⟩
    cases hb
    exact ⟨x.draft, h.built, hv, known⟩

/-- All members of a dynamic module are as recorded and verified. -/
structure Module.Checked (id : Nat) (m : Module) : Prop where
  id : m.id = id
  dynamic : m.backend = .dynamic
  ctors : ∀ {i : Nat} {d : TypeDef}, m.types[i]? = some d → ∀ x ∈ d.ctors, x.Checked m
  methods : ∀ {i : Nat} {d : TypeDef}, m.types[i]? = some d → ∀ x ∈ d.methods, x.Checked m

theorem Routine.AllGrow.checked {xs xs' : Array Routine} (h : AllGrow m xs xs') (hm : m.Grows m')
    (hx : ∀ x ∈ xs, x.Checked m) :
    ∀ x' ∈ xs', x'.Checked m' := by
  intro x' hx'
  obtain ⟨k, hk⟩ := Array.mem_iff_getElem?.mp hx'
  rcases h.found hk with ⟨x, hxk, hg⟩ | hn
  · exact (hx x (Array.mem_of_getElem? hxk)).grow hg hm
  · exact hn.checked

theorem Module.Checked.grow {id : Nat} (h : m.Checked id) (hg : m.Grows m') : m'.Checked id where
  id := hg.id.trans h.id
  dynamic := hg.backend.trans h.dynamic
  ctors {i d'} hd' := by
    rcases hg.found hd' with ⟨d, hd, hdd⟩ | ⟨hc, -⟩
    · exact hdd.ctors.checked hg (h.ctors hd)
    · simp [hc]
  methods {i d'} hd' := by
    rcases hg.found hd' with ⟨d, hd, hdd⟩ | ⟨-, hm⟩
    · exact hdd.methods.checked hg (h.methods hd)
    · simp [hm]

theorem TypeDef.ofEntry_new (host : List Ty) (t : Ty) (e : Host.TypeEntry) :
    (∀ x ∈ (ofEntry host t e).ctors, x.IsNew) ∧ ∀ x ∈ (ofEntry host t e).methods, x.IsNew := by
  constructor
  · intro x hx
    obtain ⟨c, -, rfl⟩ := List.mem_map.mp (List.mem_toArray.mp hx)
    exact ⟨rfl, rfl⟩
  · intro x hx
    obtain ⟨c, -, rfl⟩ := List.mem_map.mp (List.mem_toArray.mp hx)
    exact ⟨rfl, rfl⟩

theorem Module.checked_new (id : Nat) (name runtime : Text) : (Module.new id .dynamic name runtime).Checked id := by
  have entry : ∀ {i : Nat} {d : TypeDef}, (Module.new id .dynamic name runtime).types[i]? = some d →
      ∃ host t e, d = TypeDef.ofEntry host t e := by
    intro i d hd
    obtain ⟨p, -, rfl⟩ := List.mem_map.mp (List.mem_toArray.mp (Array.mem_of_getElem? hd))
    exact ⟨_, _, _, rfl⟩
  refine ⟨rfl, rfl, fun hd x hx => ?_, fun hd x hx => ?_⟩
  all_goals obtain ⟨host, t, e, rfl⟩ := entry hd
  · exact ((TypeDef.ofEntry_new host t e).1 x hx).checked
  · exact ((TypeDef.ofEntry_new host t e).2 x hx).checked

/-- However a module is built, its bodies have been verified. -/
theorem Module.Built.checked {id : Nat} (h : m.Built id) : m.Checked id := by
  induction h with
  | new name runtime => exact checked_new id name runtime
  | change _ hc ih => exact ih.grow (hc.grows ih.dynamic)

end CilCompiler
