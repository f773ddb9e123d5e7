import Mathlib.Logic.Relation
import CilCompiler.Module.Disassembly
import CilCompiler.Proofs.Lowering.Places
import CilCompiler.Proofs.Machine.Unfinished
import CilCompiler.Proofs.Module.Unfinished

/-! Types that are finished. A finished type takes no members, instructions, locals, labels or flags any more, and is
    not finished again; what calls still change of it are the names of parameters and the places of labels, which
    finished bodies do not look at (`Routine.lasting`). So whatever is called, on it or on others, it is disassembled
    to the same lines, and calls of its members do the same (`finished_type_lasts`). -/

namespace CilCompiler

/-! ### What lasts -/

/-- What of a member no call changes once its type is finished: all but the names of its parameters and the places of
    its labels. -/
def Routine.lasting (x : Routine) : Routine := { x with paramNames := [], draft := { x.draft with marks := #[] } }

/-- What of a type no call changes once the type is finished. -/
def TypeDef.lasting (d : TypeDef) : TypeDef :=
  { d with ctors := d.ctors.map Routine.lasting, methods := d.methods.map Routine.lasting }

/-- What a call looks at lasts. -/
theorem Routine.same_of_lasting {x x' : Routine} (h : x'.lasting = x.lasting) :
    x'.impl = x.impl ∧ x'.body = x.body ∧ x'.native = x.native := by
  simp only [lasting, Routine.mk.injEq] at h
  exact ⟨h.2.2.1, h.2.2.2.2.1, h.2.2.2.2.2⟩

namespace TypeDef

variable {d d' : TypeDef}

theorem routine?_lasting (d : TypeDef) (r : Method) : d.lasting.routine? r = (d.routine? r).map Routine.lasting := by
  unfold routine? lasting
  split
  · exact Array.getElem?_map ..
  · exact Array.getElem?_map ..

theorem routines_lasting (d : TypeDef) : d.lasting.routines = d.routines.map Routine.lasting := by
  simp [routines, lasting]

theorem isCreated_of_lasting (h : d'.lasting = d.lasting) : d'.isCreated = d.isCreated := by
  have same : d'.lasting.isCreated = d.lasting.isCreated := congrArg isCreated h
  exact same

/-- A member that a reference stands for has changed in nothing that lasts, and then neither has its type. -/
theorem lasting_modifyRoutine {r : Method} {f : Routine → Routine}
    (hf : ∀ x, d.routine? r = some x → (f x).lasting = x.lasting) :
    (d.modifyRoutine r f).lasting = d.lasting := by
  have same : ∀ xs : Array Routine, (∀ x, xs[r.index]? = some x → (f x).lasting = x.lasting) →
      (xs.modify r.index f).map Routine.lasting = xs.map Routine.lasting := by
    intro xs hf
    apply Array.ext_getElem?
    intro k
    rw [Array.getElem?_map, Array.getElem?_map, Array.getElem?_modify]
    split
    · rename_i hk
      subst hk
      cases hx : xs[r.index]? with
      | none => rfl
      | some x => exact congrArg some (hf x hx)
    · rfl
  unfold modifyRoutine
  unfold routine? at hf
  split
  · rename_i hr
    rw [if_pos hr] at hf
    unfold lasting
    simp only [same _ hf]
  · rename_i hr
    rw [if_neg hr] at hf
    unfold lasting
    simp only [same _ hf]

end TypeDef

namespace Module

theorem disassembleDef_lasting (d : TypeDef) : disassembleDef d.lasting = disassembleDef d := by
  have same : ∀ x : Routine, disassembleRoutine x.lasting = disassembleRoutine x := fun x => rfl
  unfold disassembleDef
  rw [d.routines_lasting, List.flatMap_map]
  simp only [same]
  rfl

/-! ### What a call keeps -/

variable {m m' : Module} {d : TypeDef}

/-- A site that is sealed is open to nothing. -/
theorem isCreated_of_requireOpen {r : Method} {what : Text} {u : Unit} (h : (m.site r).requireOpen what = .ok u) :
    m.isCreated r.owner = false := by
  unfold Site.requireOpen at h
  split at h
  · cases h
  · exact Bool.eq_false_iff.mpr ‹_›

/-- The finished types are still there, with what lasts of them. -/
structure Lasts (m m' : Module) : Prop where
  id : m'.id = m.id
  kept : ∀ {i : Nat} {d : TypeDef}, m.types[i]? = some d → d.isCreated = true →
    ∃ d', m'.types[i]? = some d' ∧ d'.lasting = d.lasting

namespace Lasts

theorem refl (m : Module) : m.Lasts m := ⟨rfl, fun hd _ => ⟨_, hd, rfl⟩⟩

theorem trans {m'' : Module} (h : m.Lasts m') (h' : m'.Lasts m'') : m.Lasts m'' where
  id := h'.id.trans h.id
  kept hd hc := by
    obtain ⟨d', hd', he⟩ := h.kept hd hc
    obtain ⟨d'', hd'', he'⟩ := h'.kept hd' ((TypeDef.isCreated_of_lasting he).trans hc)
    exact ⟨d'', hd'', he'.trans he⟩

theorem modifyDef {t : Ty} {f : TypeDef → TypeDef}
    (hf : ∀ d, m.types[t.declared.index]? = some d → d.isCreated = true → (f d).lasting = d.lasting) :
      m.Lasts (m.modifyDef t f) where
  id := rfl
  kept {i d} hd hc := by
    have hget : (m.modifyDef t f).types[i]? = if t.declared.index = i then m.types[i]?.map f else m.types[i]? :=
      Array.getElem?_modify ..
    rw [hget]
    split
    · rename_i hi
      subst hi
      exact ⟨f d, by rw [hd]; rfl, hf d hd hc⟩
    · exact ⟨d, hd, rfl⟩

/-- What is done to an open type leaves the finished ones alone. -/
theorem of_open {t : Ty} {what : Text} (h : m.open? t what = .ok d) (f : TypeDef → TypeDef) :
    m.Lasts (m.modifyDef t f) := by
  obtain ⟨hd, hopen⟩ := open?_ok h
  refine modifyDef fun e he hc => ?_
  rw [(def?_some hd).1] at he
  cases he
  rw [hopen] at hc
  cases hc

/-- A draft of a finished type is changed in its labels at most. -/
theorem setDraft {r : Method} (hr : m.Has r) {D : Draft}
    (hD : m.isCreated r.owner = true → { D with marks := #[] } = { m.draft r with marks := #[] }) :
      m.Lasts (m.setDraft r D) := by
  obtain ⟨x, hx, -⟩ := hr
  obtain ⟨d, hd, hdx⟩ := Option.bind_eq_some_iff.mp hx
  rw [draft_of_routine hx] at hD
  refine modifyDef fun e he hc => TypeDef.lasting_modifyRoutine fun y hy => ?_
  rw [(def?_some hd).1] at he
  cases he
  rw [hdx] at hy
  cases hy
  have hsealed : m.isCreated r.owner = true := by rw [Module.isCreated, hd]; exact hc
  unfold Routine.lasting
  rw [hD hsealed]

/-- Nothing more is recorded in a member of a finished type. -/
theorem emit {r : Method} (hr : m.Has r) (e : Emission) : m.Lasts (m.emit r e).2 := by
  have same : m.isCreated r.owner = true → ((m.draft r).emit (m.site r) e).2 = m.draft r := by
    intro hc
    unfold Draft.emit
    split
    · rename_i i hi
      have hopen : m.isCreated r.owner = false := Emission.open_of_encode hi
      rw [hopen] at hc
      cases hc
    · rfl
  exact setDraft hr fun hc => congrArg (fun D : Draft => { D with marks := #[] }) (same hc)

theorem defineType {name : Text} {attrs : TypeAttributes} {base : Option Ty} {t : Ty}
    (h : m.defineType name attrs base = .ok (t, m')) : m.Lasts m' := by
  obtain ⟨-, -, -, -, -, -, rfl⟩ := defineType_ok h
  refine ⟨rfl, fun {i d} hd _ => ⟨d, ?_, rfl⟩⟩
  have hi := (Array.getElem?_eq_some_iff.mp hd).1
  show (m.types.push _)[i]? = some d
  rw [Array.getElem?_push, if_neg (by omega)]
  exact hd

theorem defineParameter {r : Method} {position : Int} {name : Text} (h : m.defineParameter r position name = .ok m') :
    m.Lasts m' := by
  unfold Module.defineParameter at h
  split at h
  · cases h
  · cases h
    exact .modifyDef fun d _ _ => TypeDef.lasting_modifyRoutine fun x _ => rfl

theorem declareLocal {r : Method} {t : Option Ty} {l : LocalSlot} (hr : m.Has r) (h : m.declareLocal r t = .ok (l, m')) :
    m.Lasts m' := by
  obtain ⟨⟨l, D⟩, hD, h⟩ := bind_eq_ok.mp h
  cases h
  obtain ⟨_, hopen, -⟩ := bind_eq_ok.mp hD
  refine .setDraft hr fun hc => ?_
  rw [isCreated_of_requireOpen hopen] at hc
  cases hc

theorem defineLabel {r : Method} {l : Label} (hr : m.Has r) (h : m.defineLabel r = .ok (l, m')) : m.Lasts m' := by
  obtain ⟨⟨l, D⟩, hD, h⟩ := bind_eq_ok.mp h
  cases h
  refine .setDraft hr fun hc => ?_
  unfold Draft.defineLabel at hD
  split at hD
  · cases hD
  · obtain ⟨_, hopen, -⟩ := bind_eq_ok.mp hD
    rw [isCreated_of_requireOpen hopen] at hc
    cases hc

theorem markLabel {r : Method} {l : Option Label} (hr : m.Has r) (h : m.markLabel r l = .ok m') : m.Lasts m' := by
  obtain ⟨D, hD, h⟩ := bind_eq_ok.mp h
  cases h
  refine .setDraft hr fun _ => ?_
  unfold Draft.mark at hD
  repeat' split at hD
  all_goals cases hD
  rfl

end Lasts

/-- Whatever is called, finished types last. -/
theorem Change.lasts (hm : m.backend = .dynamic) (h : m.Change m') : m.Lasts m' := by
  cases h with
  | defineType h => exact .defineType h
  | defineField _ h =>
    obtain ⟨d, hopen, h⟩ := bind_eq_ok.mp h
    cases h
    exact .of_open hopen _
  | defineMethod _ h =>
    obtain ⟨d, hopen, h⟩ := bind_eq_ok.mp h
    cases h
    exact .of_open hopen _
  | defineConstructor _ h =>
    obtain ⟨d, hopen, h⟩ := bind_eq_ok.mp h
    cases h
    exact .of_open hopen _
  | defineParameter _ h => exact .defineParameter h
  | setImplementation _ h =>
    obtain ⟨d, hopen, h⟩ := bind_eq_ok.mp h
    cases h
    exact .of_open hopen _
  | setEntryPoint h =>
    unfold Module.setEntryPoint at h
    repeat' split at h
    all_goals cases h
    all_goals exact ⟨rfl, fun hd _ => ⟨_, hd, rfl⟩⟩
  | emit e hr _ => exact .emit hr e
  | declareLocal hr h => exact .declareLocal hr h
  | defineLabel hr h => exact .defineLabel hr h
  | markLabel hr h => exact .markLabel hr h
  | createType _ =>
    rcases createType_eq hm with h | ⟨d, hopen, h⟩
    · rw [h]
      exact .refl m
    · rw [h]
      exact .of_open hopen _

/-- However many calls there are, finished types last. -/
theorem Built.lasts {id : Nat} (hb : m.Built id) (h : Relation.ReflTransGen Change m m') : m'.Built id ∧ m.Lasts m' := by
  induction h with
  | refl => exact ⟨hb, .refl m⟩
  | tail _ hchange ih => exact ⟨.change ih.1 hchange, ih.2.trans (hchange.lasts ih.1.checked.dynamic)⟩

theorem Lasts.def? (h : m.Lasts m') {t : Ty} (hd : m.def? t = some d) (hc : d.isCreated = true) :
    ∃ d', m'.def? t = some d' ∧ d'.lasting = d.lasting := by
  obtain ⟨hat, harray, hmodule⟩ := def?_some hd
  obtain ⟨d', hd', he⟩ := h.kept hat hc
  exact ⟨d', by rw [def?_eq harray, if_pos (hmodule.trans h.id.symm)]; exact hd', he⟩

/-- Where all types are finished and none is added, all that lasts is what it was. -/
theorem Lasts.types (h : m.Lasts m') (hall : ∀ d ∈ m.types, d.isCreated = true) (hsize : m'.types.size = m.types.size) :
    m'.types.map TypeDef.lasting = m.types.map TypeDef.lasting := by
  apply Array.ext_getElem?
  intro i
  rw [Array.getElem?_map, Array.getElem?_map]
  cases hd : m.types[i]? with
  | none =>
    rw [Array.getElem?_eq_none (hsize ▸ Array.getElem?_eq_none_iff.mp hd)]
  | some d =>
    obtain ⟨d', hd', he⟩ := h.kept hd (hall d (Array.mem_of_getElem? hd))
    rw [hd', Option.map_some, Option.map_some, he]

/-! ### Disassembly -/

/-- The lines of each finished type. -/
def blocks (m : Module) : List (List Text) := (m.definedDefs.filter TypeDef.isCreated).map disassembleDef

theorem disassemble_eq (m : Module) : m.disassemble = m.blocks.flatten := List.flatMap_def ..

theorem blocks_sublist {ds ds' : List TypeDef}
    (h : ∀ {i : Nat} {d : TypeDef}, ds[i]? = some d → d.isCreated = true → ∃ d', ds'[i]? = some d' ∧
      d'.lasting = d.lasting) :
    ((ds.filter TypeDef.isCreated).map disassembleDef).Sublist ((ds'.filter TypeDef.isCreated).map disassembleDef) := by
  induction ds generalizing ds' with
  | nil => exact List.nil_sublist _
  | cons d ds ih =>
    have rest : ((ds.filter TypeDef.isCreated).map disassembleDef).Sublist
        ((ds'.tail.filter TypeDef.isCreated).map disassembleDef) := by
      refine ih fun {i e} he hc => ?_
      rw [List.getElem?_tail]
      exact h (i := i + 1) he hc
    cases hc : d.isCreated with
    | true =>
      obtain ⟨d', hd', he⟩ := h (i := 0) rfl hc
      obtain ⟨ds'', rfl⟩ : ∃ ds'', ds' = d' :: ds'' := by
        cases ds' with
        | nil => cases hd'
        | cons e es =>
          cases hd'
          exact ⟨es, rfl⟩
      have hc' : d'.isCreated = true := (TypeDef.isCreated_of_lasting he).trans hc
      rw [List.filter_cons_of_pos hc, List.filter_cons_of_pos hc', List.map_cons, List.map_cons,
          ← disassembleDef_lasting d', he,
        disassembleDef_lasting]
      exact rest.cons_cons _
    | false =>
      rw [List.filter_cons_of_neg (by simp [hc])]
      exact rest.trans (((List.tail_sublist ds').filter _).map _)

theorem Lasts.blocks (h : m.Lasts m') : m.blocks.Sublist m'.blocks :=
  blocks_sublist fun {i d} hd hc => by
    rw [definedDefs, List.getElem?_drop, Array.getElem?_toList] at hd ⊢
    exact h.kept hd hc

end Module

/-! ### Calls -/

namespace Machine

/-- The machine with a module in place of the one that was there. -/
def withModule (M : Machine) (k : Nat) (m : Module) : Machine := { M with modules := M.modules.setIfInBounds k m }

variable {M : Machine} {k : Nat} {m m' : Module}

theorem withModule_get (hM : M.modules[k]? = some m) : (M.withModule k m').modules[k]? = some m' :=
  Array.getElem?_setIfInBounds_self_of_lt (Array.getElem?_eq_some_iff.mp hM).1

theorem def?_of_module (hM : M.modules[k]? = some m) {t : Ty} (ht : t.module = k) : M.def? t = m.def? t := by
  rw [Machine.def?, ht, hM]
  rfl

/-- How a call opens depends on what lasts of the member and on whether its type is finished. -/
theorem opening_congr {M' : Machine} {r : Method} (hmodule : M'.module = M.module)
    (hr : (M'.routine? r).map Routine.lasting = (M.routine? r).map Routine.lasting)
    (hc : (M'.def? r.owner).any TypeDef.isCreated = (M.def? r.owner).any TypeDef.isCreated)
    (args : List Value) (w : World) :
    M'.opening r args w = M.opening r args w := by
  unfold opening
  rw [hc, hmodule]
  cases hx : M.routine? r with
  | none =>
    rw [hx, Option.map_none, Option.map_eq_none_iff] at hr
    rw [hr]
  | some x =>
    rw [hx, Option.map_some] at hr
    obtain ⟨x', hx', he⟩ := Option.map_eq_some_iff.mp hr
    obtain ⟨impl, body, native⟩ := Routine.same_of_lasting he
    rw [hx']
    simp only [native, impl, body]

/-! ### Runs -/

/-- Two machines agree: of each type the one has what lasts of the other's, and types are found under the same names. -/
structure Agrees (M M' : Machine) : Prop where
  module : M'.module = M.module
  maxDepth : M'.maxDepth = M.maxDepth
  isCanceled : M'.isCanceled = M.isCanceled
  hostType : ∀ k name, M'.hostType k name = M.hostType k name
  defs : ∀ t, (M'.def? t).map TypeDef.lasting = (M.def? t).map TypeDef.lasting

namespace Agrees

variable {M' : Machine} (h : M.Agrees M')
include h

/-- What only depends on what lasts of a definition is the same. -/
theorem bind {α : Type} {g : TypeDef → Option α} (hg : ∀ d, g d.lasting = g d) (t : Ty) :
    (M'.def? t).bind g = (M.def? t).bind g := by
  have through : ∀ o : Option TypeDef, o.bind g = (o.map TypeDef.lasting).bind g := by
    intro o
    cases o with
    | none => rfl
    | some d => exact (hg d).symm
  rw [through, h.defs, ← through]

theorem routine? (r : Method) : (M'.routine? r).map Routine.lasting = (M.routine? r).map Routine.lasting := by
  have through : ∀ N : Machine, (N.routine? r).map Routine.lasting = (N.def? r.owner).bind fun d =>
    d.lasting.routine? r := by
    intro N
    unfold Machine.routine? Machine.def?
    cases N.modules[r.owner.module]? with
    | none => rfl
    | some x =>
      rw [Option.bind_some, Option.bind_some, Module.routine?]
      cases x.def? r.owner with
      | none => rfl
      | some d => exact (d.routine?_lasting r).symm
  have twice : ∀ d : TypeDef, d.lasting.lasting.routine? r = d.lasting.routine? r := fun d => by
    rw [TypeDef.routine?_lasting, TypeDef.routine?_lasting, Option.map_map]
    rfl
  rw [through, through]
  exact h.bind twice r.owner

theorem typeOf (w : Heap) (v : Value) : M'.typeOf w v = M.typeOf w v := by
  unfold Machine.typeOf
  simp only [h.hostType, h.module]

theorem virtualTarget (w : Heap) (v : Value) (r : Method) : M'.virtualTarget w v r = M.virtualTarget w v r := by
  unfold Machine.virtualTarget
  simp only [h.typeOf, h.hostType]
  -- Methods are found by what lasts of them.
  have found : ∀ c : Ty, ((M'.def? c).bind fun d => (d.methods.find? fun x =>
        x.method.name = r.name && x.method.isVirtual && Ty.sameList x.method.params r.params).map Routine.method) =
      (M.def? c).bind fun d => (d.methods.find? fun x =>
        x.method.name = r.name && x.method.isVirtual && Ty.sameList x.method.params r.params).map Routine.method := by
    refine h.bind fun d => ?_
    unfold TypeDef.lasting
    rw [Array.find?_map, Option.map_map]
    rfl
  simp only [found]

theorem defs_cases (t : Ty) : M.def? t = none ∧ M'.def? t = none ∨
    ∃ d d', M.def? t = some d ∧ M'.def? t = some d' ∧ ∀ (w : World) k o, w.makeObject k d' o = w.makeObject k d o := by
  have hd := h.defs t
  cases hdef : M.def? t with
  | none =>
    rw [hdef, Option.map_none, Option.map_eq_none_iff] at hd
    exact .inl ⟨rfl, hd⟩
  | some d =>
    rw [hdef, Option.map_some] at hd
    obtain ⟨d', hd', he⟩ := Option.map_eq_some_iff.mp hd
    -- Of the definition, an object has the type and as many cells as there are fields.
    have made : ∀ (w : World) k o, w.makeObject k d'.lasting o = w.makeObject k d.lasting o := by
      intro w k o
      rw [he]
    exact .inr ⟨d, d', rfl, hd', made⟩

theorem routine_cases (r : Method) : M.routine? r = none ∧ M'.routine? r = none ∨
    ∃ x x', M.routine? r = some x ∧ M'.routine? r = some x' ∧ x'.impl = x.impl := by
  have hx := h.routine? r
  cases hroutine : M.routine? r with
  | none =>
    rw [hroutine, Option.map_none, Option.map_eq_none_iff] at hx
    exact .inl ⟨rfl, hx⟩
  | some x =>
    rw [hroutine, Option.map_some] at hx
    obtain ⟨x', hx', he⟩ := Option.map_eq_some_iff.mp hx
    exact .inr ⟨x, x', rfl, hx', (Routine.same_of_lasting he).1⟩

theorem execNew (f : Frame) (w : World) (c : Method) : f.execNew M' w c = f.execNew M w c := by
  unfold Frame.execNew
  rw [h.module]
  rcases h.defs_cases c.owner with ⟨hd, hd'⟩ | ⟨d, d', hd, hd', made⟩
  · rw [hd, hd']
    cases f.popN? c.params.length <;> rfl
  · rcases h.routine_cases c with ⟨hx, hx'⟩ | ⟨x, x', hx, hx', impl⟩
    · rw [hd, hd', hx, hx']
      cases f.popN? c.params.length <;> rfl
    · rw [hd, hd', hx, hx']
      cases f.popN? c.params.length with
      | none => rfl
      | some popped => simp only [impl, made]

theorem execBox (f : Frame) (w : World) (t : Ty) : f.execBox M' w t = f.execBox M w t := by
  unfold Frame.execBox
  rw [h.module]
  rcases h.defs_cases t with ⟨hd, hd'⟩ | ⟨d, d', hd, hd', made⟩
  · rw [hd, hd']
  · rw [hd, hd']
    simp only [made]

theorem exec (f : Frame) (w : World) (i : Instr) : f.exec M' w i = f.exec M w i := by
  have convert : ∀ op, f.execConvert M' w op = f.execConvert M w op := fun op => by
    unfold Frame.execConvert
    rw [h.module]
  have call : ∀ op r, f.execCall M' w.heap op r = f.execCall M w.heap op r := fun op r => by
    unfold Frame.execCall
    simp only [h.virtualTarget]
  have pointer : ∀ r, f.execVirtualPointer M' w.heap r = f.execVirtualPointer M w.heap r := fun r => by
    unfold Frame.execVirtualPointer
    simp only [h.virtualTarget]
  unfold Frame.exec Frame.execLong
  simp only [convert, call, pointer, h.execNew, h.execBox]

theorem enter (use : ResultUse) (levels : Nat) (r : Method) (args : List Value) (w : World) :
    M'.enter use levels r args w = M.enter use levels r args w := by
  induction levels generalizing r args w with
  | zero =>
    unfold Machine.enter
    rw [h.maxDepth]
  | succ levels ih =>
    have opens : M'.opening r args w = M.opening r args w := by
      refine opening_congr h.module (h.routine? r) ?_ args w
      have created : ∀ o : Option TypeDef, o.any TypeDef.isCreated = (o.map TypeDef.lasting).any TypeDef.isCreated := by
        intro o
        cases o <;> rfl
      rw [created, h.defs, ← created]
    rw [enter_succ, enter_succ, opens]
    obtain ⟨o, w'⟩ := M.opening r args w
    cases o with
    | onward q args' => exact ih q args' w'
    | value v => rfl
    | code b => rfl
    | halt e => rfl

theorem step (s : Running) : M'.step s = M.step s := by
  unfold Machine.step
  simp only [h.isCanceled, h.exec, h.enter]

/-- Machines that agree run alike. -/
theorem run (fuel : Nat) (p : Progress) : M'.run fuel p = M.run fuel p := by
  induction fuel generalizing p with
  | zero => cases p <;> rfl
  | succ fuel ih =>
    cases p with
    | running s =>
      unfold Machine.run
      rw [h.step]
      exact ih _
    | done v w => rfl
    | halted e w => rfl

end Agrees

/-- Machines agree if nothing that lasts has changed in one of their modules. -/
theorem agrees_withModule (hM : M.modules[k]? = some m) (hid : m'.id = m.id)
    (hsame : m'.types.map TypeDef.lasting = m.types.map TypeDef.lasting) : M.Agrees (M.withModule k m') := by
  have elsewhere : ∀ j, j ≠ k → (M.withModule k m').modules[j]? = M.modules[j]? := fun j hj =>
    Array.getElem?_setIfInBounds_ne (Ne.symm hj)
  refine ⟨rfl, rfl, rfl, fun j name => ?_, fun t => ?_⟩
  · unfold Machine.hostType
    by_cases hj : j = k
    · have types : ∀ n : Module, n.types.map TypeDef.type = (n.types.map TypeDef.lasting).map TypeDef.type := fun n => by
        rw [Array.map_map]
        rfl
      rw [hj, withModule_get hM, hM, Option.bind_some, Option.bind_some, Module.type?_eq, Module.type?_eq,
          types, hsame, ← types]
    · rw [elsewhere j hj]
  · by_cases ht : t.module = k
    · rw [def?_of_module (withModule_get hM) ht, def?_of_module hM ht]
      cases harray : t.isArray with
      | true => rw [Module.def?_of_isArray harray, Module.def?_of_isArray harray]
      | false =>
        rw [Module.def?_eq harray, Module.def?_eq harray, hid]
        split
        · rw [← Array.getElem?_map, hsame, Array.getElem?_map]
        · rfl
    · rw [Machine.def?, Machine.def?, elsewhere _ ht]

end Machine

/-! ### All calls -/

/-- A finished type lasts. Whatever calls come after it was finished, it has the fields, constructors, methods, slots,
    flags and bodies that it had, is disassembled to the same lines, as are all other finished types, in the same
    order, and calls of its members open as before on every machine, whatever the arguments and the world. If all
    types are finished and none is added, every run goes as before, wherever it stands. -/
theorem Module.finished_type_lasts {id : Nat} {m m' : Module} (hb : m.Built id)
    (hcalls : Relation.ReflTransGen Change m m') {t : Ty}
    {d : TypeDef} (hd : m.def? t = some d) (hc : d.isCreated = true) :
    (∃ d', m'.def? t = some d' ∧ d'.lasting = d.lasting ∧ disassembleDef d' = disassembleDef d) ∧
      m.blocks.Sublist m'.blocks ∧
      ∀ M : Machine, M.modules[id]? = some m →
        (∀ (r : Method) (args : List Value) (w : World), r.owner = t →
          (M.withModule id m').opening r args w = M.opening r args w) ∧
        ((∀ e ∈ m.types, e.isCreated = true) → m'.types.size = m.types.size →
          ∀ (fuel : Nat) (p : Progress), (M.withModule id m').run fuel p = M.run fuel p) := by
  obtain ⟨-, hlasts⟩ := hb.lasts hcalls
  obtain ⟨d', hd', he⟩ := hlasts.def? hd hc
  have lines : disassembleDef d' = disassembleDef d := by rw [← disassembleDef_lasting d', he, disassembleDef_lasting]
  refine ⟨⟨d', hd', he, lines⟩, hlasts.blocks, fun M hM => ⟨fun r args w hr => ?_, fun hall hsize =>
    (Machine.agrees_withModule hM hlasts.id (hlasts.types hall hsize)).run⟩⟩
  have hmodule : r.owner.module = id := by rw [hr, (def?_some hd).2.2, hb.checked.id]
  have hdef : M.def? r.owner = some d := by rw [Machine.def?_of_module hM hmodule, hr, hd]
  have hdef' : (M.withModule id m').def? r.owner = some d' := by
    rw [Machine.def?_of_module (Machine.withModule_get hM) hmodule, hr, hd']
  have hroutine : M.routine? r = d.routine? r :=
    by rw [Machine.routine?, hmodule, hM, Option.bind_some, Module.routine?, hr, hd]; rfl
  have hroutine' : (M.withModule id m').routine? r = d'.routine? r := by
    rw [Machine.routine?, hmodule, Machine.withModule_get hM, Option.bind_some, Module.routine?, hr, hd']
    rfl
  refine Machine.opening_congr ?_ ?_ ?_ args w
  · rfl
  · rw [hroutine, hroutine', ← d'.routine?_lasting, he, d.routine?_lasting]
  · rw [hdef, hdef', Option.any_some, Option.any_some, TypeDef.isCreated_of_lasting he]

/-! The type of the method that doubles its argument, after it was finished: the parameter is named, another type is
    defined, and finishing the type again is refused. -/

namespace Machine.Doubling

def named : Module := (finished.defineParameter method 1 "n").toOption.getD finished

def accompanied : Module := ((named.defineType "D" ⟨1⟩ none).map Prod.snd).toOption.getD named

def later : Module := (accompanied.createType type).2

theorem later_of_finished : Relation.ReflTransGen Module.Change finished later := by
  have naming : finished.defineParameter method 1 "n" = .ok named := by decide +kernel
  have has : finished.Has method := Caller.has_iff.mp (by decide +kernel)
  obtain ⟨t, typing⟩ := Caller.ok_of_isOk (y := named.defineType "D" ⟨1⟩ none) (m := named) (by decide +kernel)
  have declared : accompanied.Declares type := Caller.declares_iff.mp (by decide +kernel)
  exact ((Relation.ReflTransGen.single (.defineParameter has naming)).tail (.defineType typing)).tail (.createType declared)

end Machine.Doubling

open Machine in
/-- The name of the parameter has changed, and nothing that lasts. -/
theorem Module.finished_type_lasts_doubling : ∃ d d', Doubling.finished.def? Doubling.type = some d ∧ d.isCreated = true ∧
    Doubling.later.def? Doubling.type = some d' ∧ d' ≠ d ∧ d'.lasting = d.lasting := by
  have changed : (Doubling.finished.def? Doubling.type).any (fun d => d.isCreated &&
      decide (Doubling.later.def? Doubling.type ≠ some d)) = true := by
    decide +kernel
  obtain ⟨d, hd, hc⟩ := (Option.any_eq_true _ _).mp changed
  obtain ⟨hc, hne⟩ := Bool.and_eq_true_iff.mp hc
  obtain ⟨⟨d', hd', he, -⟩, -⟩ := finished_type_lasts Doubling.finished_built Doubling.later_of_finished hd hc
  refine ⟨d, d', hd, hc, hd', ?_, he⟩
  rintro rfl
  exact of_decide_eq_true hne hd'

end CilCompiler
