import CilCompiler.Proofs.Module.Bodied
import CilCompiler.Proofs.Compilation.Member
import CilCompiler.Proofs.Lowering.Stepwise
import CilCompiler.Proofs.Module.Built
import CilCompiler.Proofs.Renaming.Names
import Mathlib.Data.List.Nodup

/-!
A module with the bodies recorded so far. Recording a body changes the draft of one member and nothing else, so
a module in the making is the declared one with a draft for each member.

Recording bodies. The pass that generates bodies lowers each member once, from nothing, in the setting that the passes
before have left; the module it leaves is the declared one with these bodies as drafts (`generate_recorded`). In a
declared program every body can be lowered, and what lowering leaves is sound (`lowering_complete`). -/

namespace CilCompiler

/-- The member with a draft that depends on its reference. -/
def Routine.withDraft (f : Method → Draft) (x : Routine) : Routine := { x with draft := f x.method }

/-- The definition with drafts for its members. -/
def TypeDef.withDrafts (f : Method → Draft) (d : TypeDef) : TypeDef :=
  { d with ctors := d.ctors.map (Routine.withDraft f), methods := d.methods.map (Routine.withDraft f) }

/-- The module with drafts for all members. -/
def Module.withDrafts (m : Module) (f : Method → Draft) : Module :=
  { m with types := m.types.map (TypeDef.withDrafts f) }

theorem TypeDef.routine?_withDrafts (d : TypeDef) (f : Method → Draft) (r : Method) :
    (d.withDrafts f).routine? r = (d.routine? r).map (Routine.withDraft f) := by
  unfold TypeDef.routine? TypeDef.withDrafts
  split <;> simp

theorem TypeDef.routines_withDrafts (d : TypeDef) (f : Method → Draft) :
    (d.withDrafts f).routines = d.routines.map (Routine.withDraft f) := by
  simp [TypeDef.routines, TypeDef.withDrafts]

theorem TypeDef.Shaped.withDrafts {d : TypeDef} {id i : Nat} (h : d.Shaped id i) (f : Method → Draft) :
    (d.withDrafts f).Shaped id i := by
  refine ⟨h.notArray, h.module, h.index, h.fields, h.slots, fun {k x} hx => ?_, fun {k x} hx => ?_⟩
  · have hx : (d.ctors.map (Routine.withDraft f))[k]? = some x := hx
    rw [Array.getElem?_map] at hx
    obtain ⟨y, hy, rfl⟩ := Option.map_eq_some_iff.mp hx
    have hshape := h.ctors hy
    exact hshape
  · have hx : (d.methods.map (Routine.withDraft f))[k]? = some x := hx
    rw [Array.getElem?_map] at hx
    obtain ⟨y, hy, rfl⟩ := Option.map_eq_some_iff.mp hx
    have hshape := h.methods hy
    exact hshape

namespace Module
variable {m m' : Module} {t : Ty} {f : Method → Draft}

theorem types_withDrafts (m : Module) (f : Method → Draft) (i : Nat) :
    (m.withDrafts f).types[i]? = (m.types[i]?).map (TypeDef.withDrafts f) := by
  simp [Module.withDrafts]

theorem Shaped.withDrafts (h : m.Shaped) (f : Method → Draft) : (m.withDrafts f).Shaped := by
  intro i d hd
  rw [types_withDrafts] at hd
  obtain ⟨e, he, rfl⟩ := Option.map_eq_some_iff.mp hd
  exact (h he).withDrafts f

theorem def?_withDrafts (m : Module) (f : Method → Draft) (t : Ty) :
    (m.withDrafts f).def? t = (m.def? t).map (TypeDef.withDrafts f) := by
  have get : ∀ i : Nat, (if t.module = (m.withDrafts f).id then (m.withDrafts f).types[i]? else none) =
      (if t.module = m.id then m.types[i]? else none).map (TypeDef.withDrafts f) := by
    intro i
    rw [types_withDrafts, show (m.withDrafts f).id = m.id from rfl]
    split <;> rfl
  cases t with
  | array e => rfl
  | root d => exact get _
  | derived d b => exact get _

theorem routine?_withDrafts (m : Module) (f : Method → Draft) (r : Method) :
    (m.withDrafts f).routine? r = (m.routine? r).map (Routine.withDraft f) := by
  rw [routine?, def?_withDrafts, routine?]
  cases m.def? r.owner with
  | none => rfl
  | some d => exact TypeDef.routine?_withDrafts d f r

theorem isCreated_withDrafts (m : Module) (f : Method → Draft) (t : Ty) : (m.withDrafts f).isCreated t = m.isCreated t := by
  unfold isCreated
  rw [def?_withDrafts]
  cases m.def? t <;> rfl

theorem site_withDrafts (m : Module) (f : Method → Draft) (r : Method) : (m.withDrafts f).site r = m.site r := by
  unfold site
  rw [isCreated_withDrafts]
  rfl

theorem ctors_withDrafts (m : Module) (f : Method → Draft) (t : Ty) (sel : Binding) :
    (m.withDrafts f).ctors t sel = m.ctors t sel := by
  unfold ctors
  rw [def?_withDrafts]
  cases m.def? t with
  | none => rfl
  | some d =>
    show (if sel.selects false then (d.ctors.map (Routine.withDraft f)).toList.map Routine.method else []) = _
    have methods : (d.ctors.map (Routine.withDraft f)).toList.map Routine.method = d.ctors.toList.map Routine.method := by
      rw [Array.toList_map, List.map_map]
      rfl
    rw [methods]

theorem draft_withDrafts {r : Method} {x : Routine} (hr : m.routine? r = some x) (hx : x.method = r) :
    (m.withDrafts f).draft r = f r := by
  unfold draft
  rw [routine?_withDrafts, hr, ← hx]
  rfl

/-- What has been recorded for a member is found in the place of its type. -/
theorem draft_congr {r : Method} (hid : m'.id = m.id)
    (hget : ((m'.types[r.owner.declared.index]?).bind fun d => d.routine? r).map Routine.draft =
      ((m.types[r.owner.declared.index]?).bind fun d => d.routine? r).map Routine.draft) : m'.draft r = m.draft r := by
  have hdraft : ∀ m : Module, m.draft r = ((m.routine? r).map Routine.draft).getD {} := by
    intro m
    unfold draft
    cases m.routine? r <;> rfl
  have place : ∀ i : Nat, ∀ m : Module, ((if r.owner.module = m.id then m.types[i]? else none).bind fun d => d.routine? r) =
      if r.owner.module = m.id then (m.types[i]?).bind fun d => d.routine? r else none := by
    intro i m
    split <;> rfl
  have same : (m'.routine? r).map Routine.draft = (m.routine? r).map Routine.draft := by
    unfold routine? def?
    split
    · rfl
    · rw [place, place, hid]
      split
      · exact hget
      · rfl
  rw [hdraft, hdraft, same]

/-- Where a change of a definition leaves its drafts, it leaves those of the module. -/
theorem draft_modifyDef {f : TypeDef → TypeDef} {r : Method} (hf : ∀ d, m.types[t.declared.index]? = some d →
    ((f d).routine? r).map Routine.draft = (d.routine? r).map Routine.draft) : (m.modifyDef t f).draft r = m.draft r := by
  refine draft_congr rfl ?_
  simp only [modifyDef, Array.getElem?_modify]
  split
  · rename_i hi
    rw [← hi]
    cases hd : m.types[t.declared.index]? with
    | none => rfl
    | some d => exact hf d hd
  · rfl

/-- Where nothing has been recorded, the module is as it was declared. -/
theorem withDrafts_new (h : ∀ {i : Nat} {d : TypeDef}, m.types[i]? = some d → ∀ x ∈ d.routines, x.draft = {}) :
    m.withDrafts (fun _ => {}) = m := by
  have same : ∀ {i : Nat} {d : TypeDef}, m.types[i]? = some d → d.withDrafts (fun _ => {}) = d := by
    intro i d hd
    have hx : ∀ x ∈ d.routines, x.withDraft (fun _ => {}) = x := by
      intro x hx
      rw [Routine.withDraft, ← h hd x hx]
    have hctors : d.ctors.map (Routine.withDraft fun _ => {}) = d.ctors.map fun x => x :=
      Array.map_congr_left fun x hm => hx x (List.mem_append_left _ (Array.mem_toList_iff.mpr hm))
    have hmethods : d.methods.map (Routine.withDraft fun _ => {}) = d.methods.map fun x => x :=
      Array.map_congr_left fun x hm => hx x (List.mem_append_right _ (Array.mem_toList_iff.mpr hm))
    rw [TypeDef.withDrafts, hctors, hmethods, Array.map_id_fun', id_eq, id_eq]
  have types : m.types.map (TypeDef.withDrafts fun _ => {}) = m.types := by
    apply Array.ext_getElem?
    intro i
    rw [Array.getElem?_map]
    cases hd : m.types[i]? with
    | none => rfl
    | some d => rw [Option.map_some, same hd]
  rw [withDrafts, types]

/-- The drafts with one of them replaced. -/
def setAt (f : Method → Draft) (r : Method) (d : Draft) : Method → Draft := fun r' => if r' = r then d else f r'

section SetAt
variable {r : Method} {D : Draft} {x : Routine}

/-- Members other than the one recorded keep their drafts. -/
theorem map_withDraft_setAt {ys : Array Routine} (h : ∀ y ∈ ys, y.method ≠ r) :
    ys.map (Routine.withDraft (setAt f r D)) = ys.map (Routine.withDraft f) :=
  Array.map_congr_left fun y hy => by rw [Routine.withDraft, Routine.withDraft, setAt, if_neg (h y hy)]

/-- Among members that stand where they say, the draft goes to the one recorded. -/
theorem modify_map_withDraft {ys : Array Routine} (hx : ys[r.index]? = some x) (hr : x.method = r)
    (hplaced : ∀ {k : Nat} {y : Routine}, ys[k]? = some y → y.method.index = k) :
    (ys.map (Routine.withDraft f)).modify r.index (fun y => { y with draft := D }) =
      ys.map (Routine.withDraft (setAt f r D)) := by
  apply Array.ext_getElem?
  intro k
  rw [Array.getElem?_modify, Array.getElem?_map, Array.getElem?_map]
  split
  · rename_i hk
    rw [← hk, hx, Option.map_some, Option.map_some, Option.map_some, Routine.withDraft, Routine.withDraft, setAt, if_pos hr]
  · rename_i hk
    cases hy : ys[k]? with
    | none => rfl
    | some y =>
      have other : y.method ≠ r := fun he => hk (he ▸ hplaced hy)
      rw [Option.map_some, Option.map_some, Routine.withDraft, Routine.withDraft, setAt, if_neg other]

theorem withDrafts_setAt {d : TypeDef} (h : ∀ y ∈ d.routines, y.method ≠ r) :
    d.withDrafts (setAt f r D) = d.withDrafts f := by
  rw [TypeDef.withDrafts, TypeDef.withDrafts,
    map_withDraft_setAt fun y hy => h y (List.mem_append_left _ (Array.mem_toList_iff.mpr hy)),
    map_withDraft_setAt fun y hy => h y (List.mem_append_right _ (Array.mem_toList_iff.mpr hy))]

theorem modifyRoutine_withDrafts {i : Nat} {d : TypeDef} (hplaced : d.Placed i) (hr : d.routine? r = some x)
    (hx : x.method = r) :
    (d.withDrafts f).modifyRoutine r (fun y => { y with draft := D }) = d.withDrafts (setAt f r D) := by
  unfold TypeDef.routine? at hr
  unfold TypeDef.modifyRoutine TypeDef.withDrafts
  split
  · rename_i hc
    have others : ∀ y ∈ d.methods, y.method ≠ r := by
      rintro y hy rfl
      obtain ⟨k, hk⟩ := Array.mem_iff_getElem?.mp hy
      exact Bool.noConfusion ((hplaced.methods hk).2.1.symm.trans hc)
    rw [if_pos hc] at hr
    rw [modify_map_withDraft hr hx fun hy => (hplaced.ctors hy).2.2, map_withDraft_setAt others]
  · rename_i hc
    have others : ∀ y ∈ d.ctors, y.method ≠ r := by
      rintro y hy rfl
      obtain ⟨k, hk⟩ := Array.mem_iff_getElem?.mp hy
      exact hc (hplaced.ctors hk).2.1
    rw [if_neg hc] at hr
    rw [modify_map_withDraft hr hx fun hy => (hplaced.methods hy).2.2, map_withDraft_setAt others]

/-- Recording a body of a member that there is. -/
theorem setDraft_withDrafts {Q : Draft → Prop} (h : m.Bodied Q) (hr : m.routine? r = some x)
    (hx : x.method = r) (D : Draft) :
    (m.withDrafts f).setDraft r D = m.withDrafts (setAt f r D) := by
  obtain ⟨d, hd, hrd⟩ := Option.bind_eq_some_iff.mp hr
  have hget := (def?_some hd).1
  have types : (m.types.map (TypeDef.withDrafts f)).modify r.owner.declared.index
      (fun d => d.modifyRoutine r fun y => { y with draft := D }) = m.types.map (TypeDef.withDrafts (setAt f r D)) := by
    apply Array.ext_getElem?
    intro j
    rw [Array.getElem?_modify, Array.getElem?_map, Array.getElem?_map]
    split
    · rename_i hij
      rw [← hij, hget, Option.map_some, Option.map_some, Option.map_some,
          modifyRoutine_withDrafts (h.types hget).placed hrd hx]
    · rename_i hij
      cases he : m.types[j]? with
      | none => rfl
      | some e =>
        have foreign : ∀ y ∈ e.routines, y.method ≠ r := by
          rintro y hy rfl
          exact hij ((h.types he).placed.owner hy)
        rw [Option.map_some, Option.map_some, withDrafts_setAt foreign]
  rw [setDraft, modifyRoutine, modifyDef, withDrafts, withDrafts, types]

end SetAt

end Module

namespace Compilation

/-- How a member's body is lowered. -/
def lowering (d : DeclaredType) (x : Member) : Lower Bool :=
  if x.method.isCtor then Lower.constructor d.inits x.body else Lower.statements x.body

theorem lowering_onward (d : DeclaredType) (x : Member) : (lowering d x).Keeps Work.Onward := by
  unfold lowering
  split
  · exact Work.Onward.labelwise.constructor d.inits x.body
  · exact Work.Onward.labelwise.statements x.body

/-- A draft is what lowering a member from some work leaves, with a return behind it where that is asked for. -/
def Emits (scope : Scope) (d : DeclaredType) (x : Member) (w₀ : Work) (D : Draft) : Prop :=
  ∃ b w w', lowering d x scope w₀ = .ok (b, w) ∧
    (b = false ∧ w' = w ∨ b = true ∧ Lower.emit (.plain .ret) scope w = .ok ((), w')) ∧ D = w'.draft

/-- Lowering a member from some work leaves other work, with a return behind it where that is asked for. -/
def Leaves (scope : Scope) (d : DeclaredType) (x : Member) (w₀ w' : Work) : Prop :=
  ∃ b w, lowering d x scope w₀ = .ok (b, w) ∧
    (b = false ∧ w' = w ∨ b = true ∧ Lower.emit (.plain .ret) scope w = .ok ((), w'))

theorem Leaves.emits {scope : Scope} {d : DeclaredType} {x : Member} {w₀ w' : Work} (h : Leaves scope d x w₀ w') :
    Emits scope d x w₀ w'.draft := by
  obtain ⟨b, w, hl, hret⟩ := h
  exact ⟨b, w, w', hl, hret, rfl⟩

/-- The members of a program's types with their types, in the order in which bodies are generated. -/
def pairs (ds : List DeclaredType) : List (DeclaredType × Member) := ds.flatMap fun d => d.members.map fun x => (d, x)

theorem mem_pairs {ds : List DeclaredType} {y : DeclaredType × Member} : y ∈ pairs ds ↔ y.1 ∈ ds ∧ y.2 ∈ y.1.members := by
  simp only [pairs, List.mem_flatMap, List.mem_map]
  constructor
  · rintro ⟨d, hd, x, hx, rfl⟩
    exact ⟨hd, hx⟩
  · rintro ⟨hd, hx⟩
    exact ⟨y.1, hd, y.2, hx, rfl⟩

/-- The bodies of some members have been recorded, and nothing else has changed but the symbols, which stay of a kind. -/
structure Recorded (I : Symbols → Prop) (c : Compilation) (done : List (DeclaredType × Member)) (f : Method → Draft)
    (c' : Compilation) : Prop where
  eq : c' = { c with module := c.module.withDrafts f, symbols := c'.symbols }
  symbols : I c'.symbols
  emitted : ∀ y ∈ done, ∃ s, I s ∧ Emits (c.scopeOf y.2) y.1 y.2 { symbols := s } (f y.2.method)
  rest : ∀ r, (∀ y ∈ done, y.2.method ≠ r) → f r = {}

theorem scopeOf_withDrafts (c : Compilation) (f : Method → Draft) (s : Symbols) (x : Member) :
    ({ c with module := c.module.withDrafts f, symbols := s } : Compilation).scopeOf x = c.scopeOf x := by
  have hctors : (fun t => (c.module.withDrafts f).ctors t .instances) = fun t => c.module.ctors t .instances :=
    funext fun t => Module.ctors_withDrafts _ _ _ _
  unfold scopeOf
  simp only [Module.site_withDrafts, hctors]

/-- Members whose bodies can be recorded: their module has them, no two are the same, and lowering each of them keeps the
    symbols of a kind. -/
structure Recordable (I : Symbols → Prop) (c : Compilation) (ys : List (DeclaredType × Member)) : Prop where
  blank : c.module.Bodied (· = {})
  has : ∀ y ∈ ys, c.module.Has y.2.method
  distinct : ys.Pairwise fun y z => y.2.method ≠ z.2.method
  keeps : ∀ y ∈ ys, ∀ s, I s → ∀ {b : Bool} {w : Work},
    lowering y.1 y.2 (c.scopeOf y.2) { symbols := s } = .ok (b, w) → I w.symbols

variable {I : Symbols → Prop} {c c₁ c₂ : Compilation} {d : DeclaredType} {x : Member} {done : List (DeclaredType × Member)}
  {f : Method → Draft}

theorem Recorded.scopeOf (hr : Recorded I c done f c₁) (x : Member) : c₁.scopeOf x = c.scopeOf x := by
  rw [hr.eq]
  exact scopeOf_withDrafts c f _ x

/-- A member that none of those before it is lowers from nothing, in its setting. -/
theorem Recorded.lowerMember (h : Recordable I c (done ++ [(d, x)])) (hr : Recorded I c done f c₁) :
    c₁.lowerMember d x = lowering d x (c.scopeOf x) { symbols := c₁.symbols } := by
  have hmem : (d, x) ∈ done ++ [(d, x)] := by simp
  have hfresh : ∀ y ∈ done, y.2.method ≠ x.method := fun y hy =>
    (List.pairwise_append.mp h.distinct).2.2 y hy (d, x) (List.mem_singleton_self _)
  obtain ⟨y, hroutine, hy⟩ := h.has _ hmem
  have hdraft : c₁.module.draft x.method = {} := by
    rw [hr.eq]
    show (c.module.withDrafts f).draft x.method = {}
    rw [Module.draft_withDrafts hroutine hy, hr.rest _ hfresh]
  unfold Compilation.lowerMember lowering
  rw [hr.scopeOf, hdraft]

/-- What lowering a member leaves is recorded. -/
theorem Recorded.add (h : Recordable I c (done ++ [(d, x)])) (hr : Recorded I c done f c₁) {w' : Work}
    (hw : Leaves (c.scopeOf x) d x { symbols := c₁.symbols } w') :
    Recorded I c (done ++ [(d, x)]) (Module.setAt f x.method w'.draft)
      { c₁ with module := c₁.module.setDraft x.method w'.draft, symbols := w'.symbols } := by
  have hmem : (d, x) ∈ done ++ [(d, x)] := by simp
  have hfresh : ∀ y ∈ done, y.2.method ≠ x.method := fun y hy =>
    (List.pairwise_append.mp h.distinct).2.2 y hy (d, x) (List.mem_singleton_self _)
  obtain ⟨y, hroutine, hy⟩ := h.has _ hmem
  -- A return leaves the symbols as they are.
  have hsymbols : I w'.symbols := by
    obtain ⟨b, w, hl, ⟨-, rfl⟩ | ⟨-, he⟩⟩ := hw
    · exact h.keeps _ hmem _ hr.symbols hl
    · rw [Lower.emit_symbols he]
      exact h.keeps _ hmem _ hr.symbols hl
  refine ⟨?_, hsymbols, fun z hz => ?_, fun r hz => ?_⟩
  · rw [hr.eq]
    show ({ c with module := (c.module.withDrafts f).setDraft x.method w'.draft, symbols := w'.symbols } : Compilation) = _
    rw [Module.setDraft_withDrafts h.blank hroutine hy]
  · rcases List.mem_append.mp hz with hz | hz
    · rw [Module.setAt, if_neg (hfresh z hz)]
      exact hr.emitted z hz
    · cases List.mem_singleton.mp hz
      rw [Module.setAt, if_pos rfl]
      exact ⟨c₁.symbols, hr.symbols, hw.emits⟩
  · rw [Module.setAt, if_neg fun he => hz (d, x) hmem he.symm]
    exact hr.rest r fun z hm => hz z (List.mem_append_left _ hm)

/-- The body of a member that none of those before it is. -/
theorem Recorded.memberBody (h : Recordable I c (done ++ [(d, x)])) (hr : Recorded I c done f c₁) {w' : Work} :
    c₁.memberBody d x = .ok w' ↔ Leaves (c.scopeOf x) d x { symbols := c₁.symbols } w' := by
  rw [memberBody_ok, hr.lowerMember h, hr.scopeOf]
  rfl

theorem recordBody_recorded (h : Recordable I c (done ++ [(d, x)])) (hr : Recorded I c done f c₁)
    (hgen : recordBody d c₁ x = .ok c₂) : ∃ f', Recorded I c (done ++ [(d, x)]) f' c₂ := by
  obtain ⟨w', hbody, rfl⟩ := recordBody_ok.mp hgen
  exact ⟨_, hr.add h ((hr.memberBody h).mp hbody)⟩

theorem Recordable.of_append {ys zs : List (DeclaredType × Member)} (h : Recordable I c (ys ++ zs)) : Recordable I c ys :=
  ⟨h.blank, fun y hy => h.has y (List.mem_append_left _ hy), (List.pairwise_append.mp h.distinct).1,
    fun y hy => h.keeps y (List.mem_append_left _ hy)⟩

theorem recordEach_recorded {ms : List Member} (h : Recordable I c (done ++ ms.map fun x => (d, x)))
    (hr : Recorded I c done f c₁) (hgen : ms.foldlM (recordBody d) c₁ = .ok c₂) :
    ∃ f', Recorded I c (done ++ ms.map fun x => (d, x)) f' c₂ := by
  induction ms generalizing done f c₁ with
  | nil =>
    cases hgen
    exact ⟨f, by simpa using hr⟩
  | cons x ms ih =>
    obtain ⟨c₃, h1, h2⟩ := foldlM_cons_ok hgen
    rw [List.map_cons, List.append_cons] at h ⊢
    obtain ⟨f', hr'⟩ := recordBody_recorded h.of_append hr h1
    exact ih h hr' h2

theorem recordTypes_recorded {ds : List DeclaredType} (h : Recordable I c (done ++ pairs ds)) (hr : Recorded I c done f c₁)
    (hgen : ds.foldlM recordBodies c₁ = .ok c₂) : ∃ f', Recorded I c (done ++ pairs ds) f' c₂ := by
  induction ds generalizing done f c₁ with
  | nil =>
    cases hgen
    exact ⟨f, by simpa [pairs] using hr⟩
  | cons d ds ih =>
    obtain ⟨c₃, h1, h2⟩ := foldlM_cons_ok hgen
    have hpairs : pairs (d :: ds) = (d.members.map fun x => (d, x)) ++ pairs ds := rfl
    rw [hpairs, ← List.append_assoc] at h ⊢
    obtain ⟨f', hr'⟩ := recordEach_recorded h.of_append hr h1
    exact ih h hr' h2

/-- Nothing has been recorded yet. -/
theorem Recorded.none {ys : List (DeclaredType × Member)} (h : Recordable I c ys) (hI : I c.symbols) :
    Recorded I c [] (fun _ => {}) c :=
  ⟨by rw [Module.withDrafts_new fun he => (h.blank.types he).bodies], hI, fun y hy => (by cases hy), fun r _ => rfl⟩

/-- All bodies have been recorded. -/
theorem generate_recorded (h : Recordable I c (pairs c.types)) (hI : I c.symbols) (hgen : c.generate.Gives c₂) :
    ∃ f, Recorded I c (pairs c.types) f c₂ := by
  have hnone : Recordable I c ([] ++ pairs c.types) := by simpa using h
  have hdone := recordTypes_recorded hnone (.none h hI) ((Compilation.generate_runs c).of_gives hgen)
  simpa using hdone

/-! ### Bodies that can be generated -/

/-- Lowering members leaves drafts, whatever symbols of a kind it starts from. -/
def Emitting (I : Symbols → Prop) (c : Compilation) (ys : List (DeclaredType × Member)) : Prop :=
  ∀ y ∈ ys, ∀ s, I s → ∃ D, Emits (c.scopeOf y.2) y.1 y.2 { symbols := s } D

theorem recordBody_emitting (h : Recordable I c (done ++ [(d, x)])) (he : Emitting I c [(d, x)])
    (hr : Recorded I c done f c₁) :
    ∃ c₂, recordBody d c₁ x = .ok c₂ := by
  obtain ⟨D, b, w, w', hl, hret, -⟩ := he _ (List.mem_singleton_self _) _ hr.symbols
  exact ⟨_, recordBody_ok.mpr ⟨w', (hr.memberBody h).mpr ⟨b, w, hl, hret⟩, rfl⟩⟩

theorem recordEach_emitting {ms : List Member} (h : Recordable I c (done ++ ms.map fun x => (d, x)))
    (he : Emitting I c (ms.map fun x => (d, x))) (hr : Recorded I c done f c₁) :
      ∃ c₂, ms.foldlM (recordBody d) c₁ = .ok c₂ := by
  induction ms generalizing done f c₁ with
  | nil => exact ⟨c₁, rfl⟩
  | cons x ms ih =>
    rw [List.map_cons, List.append_cons] at h
    obtain ⟨c₃, h1⟩ := recordBody_emitting h.of_append (fun y hy => he y (List.mem_singleton.mp hy ▸ List.mem_cons_self)) hr
    obtain ⟨f', hr'⟩ := recordBody_recorded h.of_append hr h1
    obtain ⟨c₂, h2⟩ := ih h (fun y hy => he y (List.mem_cons_of_mem _ hy)) hr'
    exact ⟨c₂, by rw [List.foldlM_cons, h1]; exact h2⟩

theorem recordTypes_emitting {ds : List DeclaredType} (h : Recordable I c (done ++ pairs ds)) (he : Emitting I c (pairs ds))
    (hr : Recorded I c done f c₁) : ∃ c₂, ds.foldlM recordBodies c₁ = .ok c₂ := by
  induction ds generalizing done f c₁ with
  | nil => exact ⟨c₁, rfl⟩
  | cons d ds ih =>
    have hpairs : pairs (d :: ds) = (d.members.map fun x => (d, x)) ++ pairs ds := rfl
    rw [hpairs] at he
    rw [hpairs, ← List.append_assoc] at h
    obtain ⟨c₃, h1⟩ := recordEach_emitting h.of_append (fun y hy => he y (List.mem_append_left _ hy)) hr
    obtain ⟨f', hr'⟩ := recordEach_recorded h.of_append hr h1
    obtain ⟨c₂, h2⟩ := ih h (fun y hy => he y (List.mem_append_right _ hy)) hr'
    have hd : c₁.recordBodies d = .ok c₃ := h1
    exact ⟨c₂, by rw [List.foldlM_cons, hd]; exact h2⟩

/-- Where every body can be lowered, all bodies are generated. -/
theorem generate_emitting (h : Recordable I c (pairs c.types)) (hI : I c.symbols) (he : Emitting I c (pairs c.types)) :
    ∃ c₂, c.generate.Runs (.ok c₂) := by
  have hnone : Recordable I c ([] ++ pairs c.types) := by simpa using h
  obtain ⟨c₂, hrec⟩ := recordTypes_emitting hnone he (.none h hI)
  exact ⟨c₂, hrec ▸ generate_runs c⟩

end Compilation

/-! ### Bodies of declared programs -/

namespace Compilation

/-- A draft is what lowering a member leaves. Array types may have been entered before. -/
def Lowered (P : Ty → Prop) (c : Compilation) (d : DeclaredType) (x : Member) (D : Draft) : Prop :=
  ∃ s, c.symbols.Extends s ∧ s.All P ∧ Emits (c.scopeOf x) d x { symbols := s } D

/-- What lowering a member's body relies on: types are sound, the names that it mentions are admitted, and the initial
    values are those of fields of the receiver. -/
structure Supplied (P : Ty → Prop) (c : Compilation) (d : DeclaredType) (x : Member) : Prop where
  ok : (settingOf P c x).Ok
  names : ∀ n ∈ Stmt.typeNamesAll x.body, (settingOf P c x).Named n
  inits : ∀ z ∈ d.inits, (settingOf P c x).FieldOn (settingOf P c x).scope.owner z.1 ∧ z.1.isStatic = false ∧
    ∀ n ∈ z.2.typeNames, (settingOf P c x).Named n

variable {P : Ty → Prop} {p : Program} {c₀ c c' : Compilation} {k : Nat} {d : DeclaredType} {x : Member}

/-- Declared members can be lowered. -/
theorem Described.supplied (h : Described P p c₀ c) (helem : ∀ {e : Ty}, P (.array e) → P e)
    (hn : ∀ n ∈ p.typeNames, c₀.symbols.Names P n) (hd : c.types[k]? = some d) (hx : x ∈ d.members) : Supplied P c d x := by
  have hok := h.setting_ok helem hd hx
  obtain ⟨cd, e, m, y, hof⟩ := h.member hd hx
  have named : ∀ {n : Text}, n ∈ p.typeNames → (settingOf P c x).Named n := fun hmem => (hn _ hmem).grown h.grown
  refine ⟨hok, fun n hmem => named (hof.bodyNames hmem), fun z hz => ?_⟩
  obtain ⟨hf, hs, -⟩ := hof.made.inits z hz
  refine ⟨⟨hok.owner.admits, x.method.owner, ?_, ?_⟩, hs, fun n hmem => named (hof.initNames hz hmem)⟩
  · have head : ∀ t : Ty, t ∈ t.chain := fun t => by cases t <;> simp [Ty.chain]
    unfold Ty.lineage
    split
    · exact head _
    · exact List.mem_append_left _ (head _)
  · show z.1 ∈ c.symbols.fieldsOf x.method.owner
    rw [hof.declares.owner, ← hof.made.type, (h.coherent.lists hof.definition).fields]
    exact hf

/-- Lowering a body starts from nothing. -/
theorem start_sound {s : Symbols} (hs : c.symbols.Extends s) (ha : s.All P) : (settingOf P c x).Sound { symbols := s } [] :=
  ⟨⟨hs, ha⟩, fun hl => (by cases hl), fun hl => (by simp at hl), Setting.typed_new, fun _ => .new, fun _ => Nat.zero_le _⟩

theorem lowering_complete (h : Supplied P c d x) {s : Symbols} (hs : c.symbols.Extends s) (ha : s.All P)
    {b : Bool} {w : Work}
    (hl : lowering d x (c.scopeOf x) { symbols := s } = .ok (b, w)) :
    (settingOf P c x).Reads w.symbols ∧ (b = false → (settingOf P c x).Complete w.draft) ∧
      (b = true → ∀ {w' : Work} {u : Unit}, Lower.emit (.plain .ret) (c.scopeOf x) w = .ok (u, w') →
        (settingOf P c x).Complete w'.draft) := by
  have sound : (settingOf P c x).Sound { symbols := s } [] := start_sound hs ha
  have opened : Setting.Open { symbols := s } [] := fun id hid => by simp at hid
  unfold lowering at hl
  split at hl
  · rename_i hc
    exact Setting.constructor_complete h.ok (h.ok.ctor hc) h.inits h.names sound opened hl
  · exact Setting.statements_complete h.ok h.names sound opened hl

theorem Lowered.complete (h : Supplied P c d x) {D : Draft} (hl : Lowered P c d x D) : (settingOf P c x).Complete D := by
  obtain ⟨s, hs, ha, b, w, w', hl, hret, rfl⟩ := hl
  obtain ⟨-, h1, h2⟩ := lowering_complete h hs ha hl
  rcases hret with ⟨hb, rfl⟩ | ⟨hb, he⟩
  · exact h1 hb
  · exact h2 hb he

/-! ### Recording bodies -/

/-- The bodies of some members have been recorded, and nothing else has changed but that array types may have been
    entered. -/
structure Generated (P : Ty → Prop) (c : Compilation) (done : List (DeclaredType × Member)) (f : Method → Draft)
    (c' : Compilation) : Prop where
  eq : c' = { c with module := c.module.withDrafts f, symbols := c'.symbols }
  grown : c.symbols.Extends c'.symbols
  admits : c'.symbols.All P
  lowered : ∀ y ∈ done, Lowered P c y.1 y.2 (f y.2.method)
  rest : ∀ r, (∀ y ∈ done, y.2.method ≠ r) → f r = {}

/-- What is recorded where lowering enters array types of the kind only. -/
theorem Recorded.generated {done : List (DeclaredType × Member)} {f : Method → Draft}
    (h : Recorded (fun s => c.symbols.Extends s ∧ s.All P) c done f c') : Generated P c done f c' := by
  refine ⟨h.eq, h.symbols.1, h.symbols.2, fun y hy => ?_, h.rest⟩
  obtain ⟨s, hs, he⟩ := h.emitted y hy
  exact ⟨s, hs.1, hs.2, he⟩

/-- No two members have the same reference. -/
theorem Described.pairs_pairwise (h : Described P p c₀ c) :
    (pairs c.types).Pairwise fun y z => y.2.method ≠ z.2.method := by
  unfold pairs
  refine List.pairwise_flatMap.mpr ⟨fun d hd => ?_, List.pairwise_iff_getElem.mpr fun i j hi hj hij => ?_⟩
  · obtain ⟨k, hk⟩ := List.mem_iff_getElem?.mp hd
    obtain ⟨-, e, he, hm⟩ := h.made hk
    have hpair : (d.members.map Member.method).Pairwise (· ≠ ·) := by
      unfold Made at hm
      split at hm
      · rw [hm.members]
        exact (h.coherent.shaped he).placed.methods_pairwise
      · rw [hm.members]
        exact .nil
    rw [List.pairwise_map] at hpair ⊢
    exact hpair
  · rintro y hy z hz heq
    obtain ⟨x, hx, rfl⟩ := List.mem_map.mp hy
    obtain ⟨x', hx', rfl⟩ := List.mem_map.mp hz
    have place : ∀ {n : Nat} {d : DeclaredType} {x : Member}, c.types[n]? = some d → x ∈ d.members →
        x.method.owner.declared.index = Module.hostCount + n := by
      intro n d x hn hx
      obtain ⟨cd, e, m, y, hof⟩ := h.member hn hx
      rw [hof.declares.owner, ← hof.made.type]
      exact (h.coherent.shaped hof.definition).index
    have h1 := place (List.getElem?_eq_getElem hi) hx
    have h2 := place (List.getElem?_eq_getElem hj) hx'
    have heq : x.method = x'.method := heq
    rw [heq, h2] at h1
    omega

/-- Nothing has been recorded before. -/
theorem Described.drafts (h : Described P p c₀ c) {i : Nat} {e : TypeDef} (he : c.module.types[i]? = some e) :
    ∀ x ∈ e.routines, x.draft = {} := by
  have host : ∀ e ∈ hostModule.types.toList, ∀ x ∈ e.routines, x.draft = {} := by decide +kernel
  by_cases hi : i < Module.hostCount
  · rw [h.host i hi] at he
    exact host e (Array.mem_toList_iff.mpr (Array.mem_of_getElem? he))
  · have hlt := (Array.getElem?_eq_some_iff.mp he).1
    have hsize := h.size
    have hlen : c.types.length = p.sources.length := by rw [← h.sources, List.length_map]
    obtain ⟨-, e', he', hm⟩ := h.made (List.getElem?_eq_getElem (show i - Module.hostCount < c.types.length by omega))
    rw [show Module.hostCount + (i - Module.hostCount) = i by omega, he] at he'
    cases he'
    intro x hx
    unfold Made at hm
    split at hm
    · exact (hm.recorded x hx).draft
    · obtain ⟨ctor, invoke, hc, hi, hcs, his, -⟩ := hm.routines
      rw [TypeDef.routines, hc, hi] at hx
      simp only [List.cons_append, List.nil_append, List.mem_cons, List.not_mem_nil, or_false] at hx
      rcases hx with rfl | rfl
      · exact hcs.draft
      · exact his.draft

/-- Lowering bodies enters array types of the kind only. -/
theorem Described.recordable (h : Described P p c₀ c) (helem : ∀ {e : Ty}, P (.array e) → P e)
    (hn : ∀ n ∈ p.typeNames, c₀.symbols.Names P n) :
    Recordable (fun s => c.symbols.Extends s ∧ s.All P) c (pairs c.types) where
  blank := ⟨fun he => ⟨(h.coherent.shaped he).placed, h.drafts he⟩⟩
  has y hy := by
    obtain ⟨hd, hx⟩ := mem_pairs.mp hy
    obtain ⟨k, hk⟩ := List.mem_iff_getElem?.mp hd
    obtain ⟨cd, e, m, z, hof⟩ := h.member hk hx
    refine ⟨z, ?_, hof.method⟩
    rw [← hof.method]
    exact Module.Shaped.routine? h.coherent.shaped hof.definition hof.routine
  distinct := h.pairs_pairwise
  keeps y hy s hs b w hl := by
    obtain ⟨hd, hx⟩ := mem_pairs.mp hy
    obtain ⟨k, hk⟩ := List.mem_iff_getElem?.mp hd
    obtain ⟨hreads, -, -⟩ := lowering_complete (h.supplied helem hn hk hx) hs.1 hs.2 hl
    exact ⟨hreads.grown, hreads.admits⟩

/-- All bodies have been recorded. -/
theorem Described.generate (h : Described P p c₀ c) (helem : ∀ {e : Ty}, P (.array e) → P e)
    (hn : ∀ n ∈ p.typeNames, c₀.symbols.Names P n) (hgen : c.generate.Gives c') :
      ∃ f, Generated P c (pairs c.types) f c' := by
  obtain ⟨f, hr⟩ := generate_recorded (h.recordable helem hn) ⟨.refl _, h.admits⟩ hgen
  exact ⟨f, hr.generated⟩

end Compilation
end CilCompiler
