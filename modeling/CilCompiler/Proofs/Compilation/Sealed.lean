import CilCompiler.Proofs.Compilation.Finished
import CilCompiler.Proofs.Renaming.Catalog
import CilCompiler.Proofs.Renaming.Module

/-! Finishing types, into a listing or into a module that can be run. Whether a type can be finished, and what is
    written of it, depends on nothing that finishing another type changes; so finishing types is finishing each of
    them where it stands, and writing their blocks one behind the other (`finish_iff`). -/

namespace CilCompiler

/-- The definition once it is finished in a module of a kind. -/
def TypeDef.sealed (d : TypeDef) : Backend → TypeDef
  | .textual => { d with isCreated := true }
  | .dynamic => d.finished

/-- The member once its type is finished in a module of a kind. -/
def Routine.sealed (x : Routine) : Backend → Routine
  | .textual => x
  | .dynamic => x.finished

theorem TypeDef.routine?_sealed (d : TypeDef) (b : Backend) (r : Method) :
    (d.sealed b).routine? r = (d.routine? r).map fun x => x.sealed b := by
  cases b with
  | textual => exact Option.map_id'.symm
  | dynamic =>
    unfold TypeDef.sealed TypeDef.routine? TypeDef.finished
    split <;> exact Array.getElem?_map

namespace Module

/-- The definition can be finished: its lines can be written, or its bodies can be verified. -/
def Seals (m : Module) (d : TypeDef) : Prop :=
  match m.backend with
  | .textual => ∃ ls, m.classLines d = .ok ls
  | .dynamic => d.Finishable

/-- The lines that are written of a definition; of one that can be run there are none. -/
def block (m : Module) (d : TypeDef) : List Text :=
  match m.backend with
  | .textual => (m.classLines d).toOption.getD []
  | .dynamic => []

/-- The lines that are written of a type. -/
def typeBlock (m : Module) (t : Ty) : List Text := ((m.def? t).map m.block).getD []

/-- A type that is open and can be finished. -/
def CanFinish (m : Module) (t : Ty) : Prop := ∃ d, m.def? t = some d ∧ d.isCreated = false ∧ m.Seals d

/-- The module with some types finished. -/
def sealTypes (m : Module) (ts : List Ty) : Module :=
  { m with
    types := m.types.mapIdx fun i d => if i ∈ ts.map fun t => t.declared.index then d.sealed m.backend else d
    lines := m.lines ++ (ts.flatMap m.typeBlock).toArray }

theorem types_sealTypes (m : Module) (ts : List Ty) (i : Nat) : (m.sealTypes ts).types[i]? =
    (m.types[i]?).map fun d => if i ∈ ts.map fun t => t.declared.index then d.sealed m.backend else d := by
  simp [sealTypes]

variable {m m' : Module} {t u : Ty} {d : TypeDef}

/-! ### One type -/

theorem sealTypes_one (hd : m.def? t = some d) :
    m.sealTypes [t] = { m with lines := m.lines ++ (m.block d).toArray }.modifyDef t fun d => d.sealed m.backend := by
  have htypes : (m.sealTypes [t]).types = m.types.modify t.declared.index fun d => d.sealed m.backend := by
    apply Array.ext_getElem?
    intro i
    rw [types_sealTypes, Array.getElem?_modify]
    by_cases hi : t.declared.index = i
    · simp [hi]
    · simp [hi, Ne.symm hi]
  have hlines : (m.sealTypes [t]).lines = m.lines ++ (m.block d).toArray := by simp [sealTypes, typeBlock, hd]
  rw [modifyDef, ← htypes, ← hlines]
  rfl

theorem canFinish_iff (hd : m.def? t = some d) : m.CanFinish t ↔ d.isCreated = false ∧ m.Seals d := by
  constructor
  · rintro ⟨e, he, hc, hs⟩
    cases hd.symm.trans he
    exact ⟨hc, hs⟩
  · rintro ⟨hc, hs⟩
    exact ⟨d, hd, hc, hs⟩

theorem createType_textual (hb : m.backend = .textual) (hd : m.def? t = some d) (hc : d.isCreated = false) :
    m.createType t = (.ok (), m') ↔ m.Seals d ∧ m' = m.sealTypes [t] := by
  have hopen : m.open? t "type body" = .ok d := by simp [open?, hd, hc]
  have hmodule : ¬t.module ≠ m.id := fun h => h (def?_some hd).2.2
  rw [sealTypes_one hd, Seals, block]
  unfold createType writeType
  rw [hopen, hb, if_neg hmodule, hd, Option.getD_some]
  cases m.classLines d with
  | error f => exact ⟨fun h => (by cases h), fun h => (by obtain ⟨⟨_, h⟩, -⟩ := h; cases h)⟩
  | ok ls =>
    constructor
    · intro h
      cases h
      exact ⟨⟨ls, rfl⟩, rfl⟩
    · rintro ⟨-, rfl⟩
      rfl

theorem createType_dynamic (hb : m.backend = .dynamic) (hd : m.def? t = some d) (hc : d.isCreated = false) :
    m.createType t = (.ok (), m') ↔ m.Seals d ∧ m' = m.sealTypes [t] := by
  have hopen : m.open? t "type body" = .ok d := by simp [open?, hd, hc]
  have htypes : (m.types.modify t.declared.index fun _ => d.finished) =
      m.types.modify t.declared.index TypeDef.finished := by
    apply Array.ext_getElem?
    intro i
    rw [Array.getElem?_modify, Array.getElem?_modify]
    by_cases hi : t.declared.index = i
    · rw [if_pos hi, if_pos hi, ← hi, (def?_some hd).1]
      rfl
    · rw [if_neg hi, if_neg hi]
  have hsealed : m.sealTypes [t] = m.modifyDef t fun _ => d.finished := by
    rw [sealTypes_one hd, block, hb]
    simp [modifyDef, htypes, TypeDef.sealed, hb]
  have hcreate : m.createType t = ((finishDef d).1, m.modifyDef t fun _ => (finishDef d).2) := by
    rw [createType, hopen, hb]
  rw [hsealed, hcreate, Seals, hb]
  constructor
  · intro h
    cases hf : finishDef d with
    | mk r e =>
      rw [hf] at h
      cases h
      obtain ⟨hfin, rfl⟩ := finishDef_ok hf
      exact ⟨hfin, rfl⟩
  · rintro ⟨hfin, rfl⟩
    rw [finishDef_total hfin]

theorem createType_ok_iff : m.createType t = (.ok (), m') ↔ m.CanFinish t ∧ m' = m.sealTypes [t] := by
  cases hopen : m.open? t "type body" with
  | error f =>
    have fails : m.createType t = (.error f, m) := by rw [createType, hopen]
    rw [fails]
    refine ⟨fun h => (by cases h), fun h => ?_⟩
    obtain ⟨⟨d, hd, hc, -⟩, -⟩ := h
    rw [open?, hd] at hopen
    simp [hc] at hopen
  | ok d =>
    obtain ⟨hd, hc⟩ := open?_ok hopen
    rw [canFinish_iff hd]
    simp only [hc, true_and]
    cases hb : m.backend with
    | textual => exact createType_textual hb hd hc
    | dynamic => exact createType_dynamic hb hd hc

end Module

/-! ### Renamed types -/

namespace Renaming
variable (ρ : Renaming)

theorem finishable_routine (x : Routine) : (ρ.routine x).Finishable ↔ x.Finishable := by
  have hverify : (ρ.routine x).draft.verify (ρ.routine x).method.ret = (x.draft.verify x.method.ret).map ρ.body :=
    ρ.verify_draft _ _
  have himpl : (ρ.routine x).impl = x.impl := rfl
  rw [Routine.Finishable, Routine.Finishable, hverify, himpl]
  cases x.draft.verify x.method.ret <;> simp [Except.map]

theorem finished_routine (x : Routine) : (ρ.routine x).finished = ρ.routine x.finished := by
  have hverify : (ρ.routine x).draft.verify (ρ.routine x).method.ret = (x.draft.verify x.method.ret).map ρ.body :=
    ρ.verify_draft _ _
  have himpl : (ρ.routine x).impl = x.impl := rfl
  rw [Routine.finished, Routine.finished, hverify, himpl]
  split
  · rfl
  · cases x.draft.verify x.method.ret <;> rfl

theorem finishable_typeDef (d : TypeDef) : (ρ.typeDef d).Finishable ↔ d.Finishable := by
  have hbase : ∀ b : Ty, Module.supportsBase (ρ.ty b) = Module.supportsBase b :=
    fun b => by rw [Module.supportsBase, name_ty, Module.supportsBase]
  constructor
  · rintro ⟨hb, hx⟩
    refine ⟨fun {b} h => ?_, fun x h => (ρ.finishable_routine x).mp (hx _ ?_)⟩
    · rw [← hbase]
      exact hb (by rw [type_typeDef, base?_ty, h, Option.map_some])
    · rw [routines_typeDef]
      exact List.mem_map_of_mem h
  · rintro ⟨hb, hx⟩
    refine ⟨fun {b} h => ?_, fun x h => ?_⟩
    · rw [type_typeDef, base?_ty] at h
      obtain ⟨b', hb', rfl⟩ := Option.map_eq_some_iff.mp h
      rw [hbase]
      exact hb hb'
    · rw [routines_typeDef] at h
      obtain ⟨x', hx', rfl⟩ := List.mem_map.mp h
      exact (ρ.finishable_routine x').mpr (hx x' hx')

theorem sealed_typeDef (d : TypeDef) (b : Backend) : (ρ.typeDef d).sealed b = ρ.typeDef (d.sealed b) := by
  cases b with
  | textual => rfl
  | dynamic => simp [TypeDef.sealed, TypeDef.finished, typeDef, Function.comp_def, finished_routine]

end Renaming

namespace Module
variable {ρ : Renaming} {m m' : Module} {t u : Ty} {d : TypeDef}

/-- Modules that show types and members in the same way. -/
structure Shows (ρ : Renaming) (m m' : Module) : Prop where
  assemblies : ρ.KeepsAssemblies
  distinct : ρ.Distinct
  backend : m'.backend = m.backend
  name : m'.name = m.name
  entry : m'.entry = m.entry.map ρ.method

theorem Shows.seals (h : Shows ρ m m') (d : TypeDef) : m'.Seals (ρ.typeDef d) ↔ m.Seals d := by
  rw [Seals, Seals, h.backend]
  cases m.backend with
  | dynamic => exact ρ.finishable_typeDef d
  | textual =>
    have hlines := classLines_renamed h.assemblies h.name fun x (_ : x ∈ d.routines) =>
      starts_renamed h.distinct h.entry x.method
    exact ⟨fun ⟨_, hl⟩ => (hlines.of_ok_right hl).imp fun _ h => h.1, fun ⟨_, hl⟩ => (hlines.of_ok hl).imp fun _ h => h.1⟩

theorem Shows.block (h : Shows ρ m m') (d : TypeDef) : m'.block (ρ.typeDef d) = m.block d := by
  rw [Module.block, Module.block, h.backend]
  cases m.backend with
  | dynamic => rfl
  | textual =>
    have hlines := classLines_renamed h.assemblies h.name fun x (_ : x ∈ d.routines) =>
      starts_renamed h.distinct h.entry x.method
    dsimp only
    generalize m.classLines d = x at hlines ⊢
    generalize m'.classLines (ρ.typeDef d) = y at hlines ⊢
    cases hlines with
    | error _ => rfl
    | ok h => rw [h]

theorem Shows.typeBlock (h : Shows ρ m m') (hd : m'.def? u = (m.def? t).map ρ.typeDef) :
    m'.typeBlock u = m.typeBlock t := by
  rw [Module.typeBlock, hd, Option.map_map, Module.typeBlock]
  cases m.def? t with
  | none => rfl
  | some d => exact h.block d

theorem Shows.canFinish (h : Shows ρ m m') (hd : m'.def? u = (m.def? t).map ρ.typeDef) :
    m'.CanFinish u ↔ m.CanFinish t := by
  constructor
  · rintro ⟨e, he, hc, hs⟩
    rw [hd] at he
    obtain ⟨d, hdef, rfl⟩ := Option.map_eq_some_iff.mp he
    exact ⟨d, hdef, hc, (h.seals d).mp hs⟩
  · rintro ⟨d, he, hc, hs⟩
    exact ⟨ρ.typeDef d, by rw [hd, he, Option.map_some], hc, (h.seals d).mpr hs⟩

/-! ### All types -/

theorem def?_sealTypes_eq (m : Module) (ts : List Ty) (t : Ty) : (m.sealTypes ts).def? t =
    (m.def? t).map fun d => if t.declared.index ∈ ts.map fun t => t.declared.index then d.sealed m.backend else d := by
  cases ha : t.isArray with
  | true => rw [def?_of_isArray ha, def?_of_isArray ha, Option.map_none]
  | false =>
    rw [def?_eq ha, def?_eq ha, types_sealTypes, show (m.sealTypes ts).id = m.id from rfl]
    split <;> rfl

/-- Where types are finished, other types are as they were. -/
theorem def?_sealTypes {ts : List Ty} (ht : t.declared.index ∉ ts.map fun t => t.declared.index) :
    (m.sealTypes ts).def? t = m.def? t := by
  rw [def?_sealTypes_eq]
  simp only [if_neg ht, Option.map_id']

/-- A member of a finished type. -/
theorem routine?_sealTypes {ts : List Ty} {r : Method} (hr : r.owner.declared.index ∈ ts.map fun t => t.declared.index) :
    (m.sealTypes ts).routine? r = (m.routine? r).map fun x => x.sealed m.backend := by
  rw [routine?, def?_sealTypes_eq, routine?]
  simp only [if_pos hr]
  cases m.def? r.owner with
  | none => rfl
  | some d => exact d.routine?_sealed m.backend r

theorem typeBlock_of_classLines {ls : List Text} (hb : m.backend = .textual) (hd : m.def? t = some d)
    (h : m.classLines d = .ok ls) :
    m.typeBlock t = ls := by
  rw [typeBlock, hd, Option.map_some, Option.getD_some, block, hb]
  exact congrArg (fun x : Except Fault (List Text) => x.toOption.getD []) h

/-- A finished type has been written. -/
theorem typeBlock_infix {ts : List Ty} (ht : t ∈ ts) : m.typeBlock t <:+: (m.sealTypes ts).lines.toList := by
  obtain ⟨front, rest, rfl⟩ := List.append_of_mem ht
  exact ⟨m.lines.toList ++ front.flatMap m.typeBlock, rest.flatMap m.typeBlock, by simp [sealTypes]⟩

theorem shows_sealTypes (m : Module) (ts : List Ty) : Shows .refl m (m.sealTypes ts) :=
  ⟨fun _ => rfl, fun _ _ h => h, rfl, rfl, by simp [sealTypes, funext Renaming.method_refl]⟩

/-- What is written of a body does not depend on the types that are finished. -/
theorem bodyLines_sealTypes (m : Module) (ts : List Ty) (r : Method) (b : Body) :
    (m.sealTypes ts).bodyLines r b = m.bodyLines r b := by
  have h := m.shows_sealTypes ts
  have hlines := bodyLines_renamed h.assemblies h.name (starts_renamed h.distinct h.entry r) b
  rwa [Renaming.method_refl, Renaming.body_refl] at hlines

theorem sealTypes_nil (m : Module) : m.sealTypes [] = m := by
  have htypes : (m.sealTypes []).types = m.types := by
    apply Array.ext_getElem?
    intro i
    rw [types_sealTypes]
    cases m.types[i]? <;> simp
  have hlines : (m.sealTypes []).lines = m.lines := by simp [sealTypes]
  rw [show m.sealTypes [] = { m with types := (m.sealTypes []).types, lines := (m.sealTypes []).lines } from rfl,
      htypes, hlines]

theorem sealTypes_append {ts us : List Ty} (h : ((ts ++ us).map fun t => t.declared.index).Nodup) :
    (m.sealTypes ts).sealTypes us = m.sealTypes (ts ++ us) := by
  rw [List.map_append, List.nodup_append] at h
  have htypes : ((m.sealTypes ts).sealTypes us).types = (m.sealTypes (ts ++ us)).types := by
    apply Array.ext_getElem?
    intro i
    rw [types_sealTypes, types_sealTypes, types_sealTypes, Option.map_map]
    congr 1
    funext d
    simp only [Function.comp_apply, List.map_append, List.mem_append]
    by_cases hu : i ∈ us.map fun t => t.declared.index
    · have ht : i ∉ ts.map fun t => t.declared.index := fun ht => h.2.2 i ht i hu rfl
      rw [if_pos hu, if_neg ht, if_pos (.inr hu)]
      rfl
    · rw [if_neg hu]
      simp [hu]
  have hlines : ((m.sealTypes ts).sealTypes us).lines = (m.sealTypes (ts ++ us)).lines := by
    have same : us.flatMap (m.sealTypes ts).typeBlock = us.flatMap m.typeBlock := by
      refine List.flatMap_congr fun t ht => ?_
      refine (m.shows_sealTypes ts).typeBlock ?_
      rw [def?_sealTypes fun hi => h.2.2 _ hi _ (List.mem_map_of_mem ht) rfl]
      simp [funext Renaming.typeDef_refl]
    show m.lines ++ (ts.flatMap m.typeBlock).toArray ++ (us.flatMap (m.sealTypes ts).typeBlock).toArray = _
    rw [same, Array.append_assoc]
    simp [sealTypes]
  rw [show (m.sealTypes (ts ++ us)) =
      { m with types := (m.sealTypes (ts ++ us)).types, lines := (m.sealTypes (ts ++ us)).lines } from rfl,
    ← htypes, ← hlines]
  rfl

end Module

namespace Compilation
variable {c c' : Compilation}

theorem finishType_ok_iff_sealed {d : DeclaredType} :
    c.finishType d = .ok c' ↔ c.module.CanFinish d.type ∧ c' = { c with module := c.module.sealTypes [d.type] } := by
  unfold finishType
  constructor
  · intro h
    split at h
    · rename_i m hm
      cases h
      obtain ⟨hcan, rfl⟩ := Module.createType_ok_iff.mp hm
      exact ⟨hcan, rfl⟩
    · cases h
  · rintro ⟨hcan, rfl⟩
    rw [Module.createType_ok_iff.mpr ⟨hcan, rfl⟩]

/-- Types at places of their own are finished if each of them can be. -/
theorem finishTypes_iff {ds : List DeclaredType} (h : (ds.map index).Nodup) : ds.foldlM finishType c = .ok c' ↔
    (∀ d ∈ ds, c.module.CanFinish d.type) ∧ c' = { c with module := c.module.sealTypes (ds.map DeclaredType.type) } := by
  induction ds generalizing c with
  | nil =>
    rw [List.map_nil, Module.sealTypes_nil, List.foldlM_nil]
    exact ⟨fun hf => (by cases hf; exact ⟨List.forall_mem_nil _, rfl⟩), fun hf => (by rw [hf.2]; rfl)⟩
  | cons d ds ih =>
    have hsealed : (c.module.sealTypes [d.type]).sealTypes (ds.map DeclaredType.type) =
        c.module.sealTypes ((d :: ds).map DeclaredType.type) :=
      Module.sealTypes_append (by simpa [Function.comp_def] using h)
    rw [List.map_cons, List.nodup_cons] at h
    have others : (∀ e ∈ ds, (c.module.sealTypes [d.type]).CanFinish e.type) ↔ ∀ e ∈ ds, c.module.CanFinish e.type := by
      refine forall₂_congr fun e he => (c.module.shows_sealTypes [d.type]).canFinish ?_
      have hplace : e.type.declared.index ∉ [d.type].map fun t => t.declared.index := by
        rw [List.map_singleton, List.mem_singleton]
        exact fun hi => h.1 (List.mem_map.mpr ⟨e, he, hi⟩)
      rw [Module.def?_sealTypes hplace]
      simp [funext Renaming.typeDef_refl]
    rw [List.foldlM_cons, bind_eq_ok, List.forall_mem_cons]
    constructor
    · rintro ⟨c₁, h1, h2⟩
      obtain ⟨hd, rfl⟩ := finishType_ok_iff_sealed.mp h1
      obtain ⟨hds, rfl⟩ := (ih h.2).mp h2
      exact ⟨⟨hd, others.mp hds⟩, by rw [← hsealed]⟩
    · rintro ⟨⟨hd, hds⟩, rfl⟩
      exact ⟨_, finishType_ok_iff_sealed.mpr ⟨hd, rfl⟩, (ih h.2).mpr ⟨others.mpr hds, by rw [hsealed]⟩⟩

/-- Finishing the types of a program. -/
theorem finish_iff (h : (c.types.map index).Nodup) : c.finish = .ok c' ↔
    (∀ d ∈ c.types, c.module.CanFinish d.type) ∧
      c' = { c with module := c.module.sealTypes (c.types.map DeclaredType.type) } :=
  finishTypes_iff h

end Compilation
end CilCompiler
