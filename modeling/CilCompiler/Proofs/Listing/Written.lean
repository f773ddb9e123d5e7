import CilCompiler.Proofs.Compilation.Listed
import CilCompiler.Proofs.Compilation.Sealed
import CilCompiler.Proofs.Module.Lasting

/-! How a listing comes about. `Module.Call` is all that can be called on a module, its types, its members and their
    bodies, in any order and whether it succeeds or not. What one call does is said once (`perform_cases`): it
    finishes a type and writes its class block, it sets the entry point, or it writes nothing. From that follows the
    account of a listing (`Account.run`): behind the header stand the blocks of the types that were finished, one
    behind the other, and the entry point is marked once, in the member that it was set to (`listing_of_calls`). -/

namespace CilCompiler

/-! ### Calls -/

/-- A call on a module, on one of its types, or on a member and its body. -/
inductive Module.Call where
  | defineType (name : Text) (attrs : TypeAttributes) (base : Option Ty)
  | defineField (t : Ty) (name : Text) (type : Option Ty) (attrs : FieldAttributes)
  | defineMethod (t : Ty) (name : Text) (attrs : MethodAttributes) (ret : Option Ty) (params : List (Option Ty))
  | defineConstructor (t : Ty) (attrs : MethodAttributes) (params : List (Option Ty))
  | defineParameter (r : Method) (position : Int) (name : Text)
  | setImplementation (r : Method) (impl : Implementation)
  | setEntryPoint (r : Method)
  | emit (r : Method) (e : Emission)
  | declareLocal (r : Method) (t : Option Ty)
  | defineLabel (r : Method)
  | markLabel (r : Method) (l : Option Label)
  | createType (t : Ty)
deriving DecidableEq

namespace Module

/-- The module with what was changed, or as it was. -/
def keeping (m : Module) : Except Fault Module → Except Fault Unit × Module
  | .ok m' => (.ok (), m')
  | .error f => (.error f, m)

/-- Whether a call succeeds, and the module it leaves. -/
def perform (m : Module) : Call → Except Fault Unit × Module
  | .defineType name attrs base => m.keeping ((m.defineType name attrs base).map Prod.snd)
  | .defineField t name type attrs => m.keeping ((m.defineField t name type attrs).map Prod.snd)
  | .defineMethod t name attrs ret params => m.keeping ((m.defineMethod t name attrs ret params).map Prod.snd)
  | .defineConstructor t attrs params => m.keeping ((m.defineConstructor t attrs params).map Prod.snd)
  | .defineParameter r position name => m.keeping (m.defineParameter r position name)
  | .setImplementation r impl => m.keeping (m.setImplementation r impl)
  | .setEntryPoint r => m.keeping (m.setEntryPoint r)
  | .emit r e => m.emit r e
  | .declareLocal r t => m.keeping ((m.declareLocal r t).map Prod.snd)
  | .defineLabel r => m.keeping ((m.defineLabel r).map Prod.snd)
  | .markLabel r l => m.keeping (m.markLabel r l)
  | .createType t => m.createType t

/-- The module after one call after another, whether they succeed or not. -/
def run (m : Module) (calls : List Call) : Module := calls.foldl (fun m c => (m.perform c).2) m

/-- The call, if it succeeds. -/
def acceptedOf (m : Module) (c : Call) : List Call := if (m.perform c).1.isOk then [c] else []

/-- The calls that succeed, in order. -/
def accepted (m : Module) : List Call → List Call
  | [] => []
  | c :: calls => m.acceptedOf c ++ (m.perform c).2.accepted calls

/-- The type that a call asks to finish. -/
def Call.finishes? : Call → Option Ty
  | .createType t => some t
  | _ => none

/-- The definition of the type that a call finishes. -/
def finishedBy (m : Module) (c : Call) : List TypeDef :=
  if (m.perform c).1.isOk then (c.finishes?.bind (m.perform c).2.def?).toList else []

/-- The definitions of the types that are finished, in order, each as it was then. -/
def finishing (m : Module) : List Call → List TypeDef
  | [] => []
  | c :: calls => m.finishedBy c ++ (m.perform c).2.finishing calls

/-- Types and members that a call is about are there; types of which the module has no definition, such as arrays, may
    be named too. -/
def Call.Known (m : Module) : Call → Prop
  | .defineType .. => True
  | .defineField t .. | .defineMethod t .. | .defineConstructor t .. | .createType t => m.def? t = none ∨ m.Declares t
  | .setEntryPoint r => r.owner.module = m.id → m.Has r ∧ m.Declares r.owner
  | .defineParameter r .. | .setImplementation r _ | .emit r _ | .declareLocal r _ | .defineLabel r
  | .markLabel r _ => m.Has r

/-- What each of some calls is about is there when the call is made. -/
def AllKnown (m : Module) : List Call → Prop
  | [] => True
  | c :: calls => c.Known m ∧ (m.perform c).2.AllKnown calls

variable {m m' : Module} {d d' : TypeDef} {t : Ty} {r : Method} {c : Call}

/-! ### What stays -/

end Module

/-- A definition with all the members of another. -/
structure TypeDef.Extends (d d' : TypeDef) : Prop where
  type : d'.type = d.type
  members : ∀ {r x}, d.routine? r = some x → ∃ x', d'.routine? r = some x' ∧ x'.method = x.method

namespace TypeDef.Extends

variable {d : TypeDef} {x : Routine}

theorem refl (d : TypeDef) : d.Extends d := ⟨rfl, fun h => ⟨_, h, rfl⟩⟩

theorem pushed {xs : Array Routine} {k : Nat} {y : Routine} (h : xs[k]? = some y) : (xs.push x)[k]? = some y := by
  rw [Array.getElem?_push, if_neg (by have := (Array.getElem?_eq_some_iff.mp h).1; omega)]
  exact h

theorem pushMethod (d : TypeDef) (x : Routine) : d.Extends { d with methods := d.methods.push x } where
  type := rfl
  members {r y} h := by
    refine ⟨y, ?_, rfl⟩
    unfold routine? at h ⊢
    split at h
    · rw [if_pos ‹_›]
      exact h
    · rw [if_neg ‹_›]
      exact pushed h

theorem pushCtor (d : TypeDef) (x : Routine) : d.Extends { d with ctors := d.ctors.push x } where
  type := rfl
  members {r y} h := by
    refine ⟨y, ?_, rfl⟩
    unfold routine? at h ⊢
    split at h
    · rw [if_pos ‹_›]
      exact pushed h
    · rw [if_neg ‹_›]
      exact h

theorem modifyRoutine (d : TypeDef) (r : Method) {f : Routine → Routine} (hf : ∀ x, (f x).method = x.method) :
    d.Extends (d.modifyRoutine r f) where
  type := d.type_modifyRoutine r f
  members {q x} h := by
    have modified : ∀ {xs : Array Routine} {n k : Nat}, xs[k]? = some x → ∃ x', (xs.modify n f)[k]? = some x' ∧
        x'.method = x.method := by
      intro xs n k h
      rw [Array.getElem?_modify]
      split
      · exact ⟨f x, by rw [h]; rfl, hf x⟩
      · exact ⟨x, h, rfl⟩
    unfold routine? at h ⊢
    unfold TypeDef.modifyRoutine
    cases hr : r.isCtor <;> cases hq : q.isCtor <;> simp only [hq, Bool.false_eq_true, if_true, if_false] at h ⊢
    · exact modified h
    · exact ⟨x, h, rfl⟩
    · exact ⟨x, h, rfl⟩
    · exact modified h

end TypeDef.Extends

/-- A member stands among the members. -/
theorem TypeDef.mem_routines {d : TypeDef} {r : Method} {x : Routine} (h : d.routine? r = some x) : x ∈ d.routines := by
  rw [mem_routines_iff]
  unfold routine? at h
  split at h
  · exact .inl (Array.mem_of_getElem? h)
  · exact .inr (Array.mem_of_getElem? h)

theorem TypeDef.type_of_lasting {d d' : TypeDef} (h : d'.lasting = d.lasting) : d'.type = d.type := by
  have same : d'.lasting.type = d.lasting.type := congrArg TypeDef.type h
  exact same

/-- Members know their places, whatever does not last of them. -/
theorem TypeDef.Placed.of_lasting {d d' : TypeDef} {i : Nat} (h : d'.Placed i)
    (he : d'.lasting = d.lasting) : d.Placed i := by
  have same : ∀ {xs xs' : Array Routine} {k : Nat} {x : Routine},
      xs'.map Routine.lasting = xs.map Routine.lasting → xs[k]? = some x →
      ∃ x', xs'[k]? = some x' ∧ x'.method = x.method := by
    intro xs xs' k x hxs hx
    have hget : (xs'[k]?).map Routine.lasting = some x.lasting :=
      by rw [← Array.getElem?_map, hxs, Array.getElem?_map, hx]; rfl
    obtain ⟨x', hx', hlasting⟩ := Option.map_eq_some_iff.mp hget
    have hmethod : x'.lasting.method = x.lasting.method := congrArg Routine.method hlasting
    exact ⟨x', hx', hmethod⟩
  refine ⟨fun {k x} hx => ?_, fun {k x} hx => ?_⟩
  · obtain ⟨x', hx', hmethod⟩ := same (congrArg TypeDef.ctors he) hx
    rw [← hmethod]
    exact h.ctors hx'
  · obtain ⟨x', hx', hmethod⟩ := same (congrArg TypeDef.methods he) hx
    rw [← hmethod]
    exact h.methods hx'

namespace Module

variable {m m' : Module} {d d' : TypeDef} {t : Ty} {r : Method} {c : Call}

/-- A module with all the types and members of another. -/
structure Extends (m m' : Module) : Prop where
  id : m'.id = m.id
  kept : ∀ {i : Nat} {d : TypeDef}, m.types[i]? = some d → ∃ d', m'.types[i]? = some d' ∧ d.Extends d'

namespace Extends

theorem of_types (hi : m'.id = m.id) (ht : m'.types = m.types) : m.Extends m' :=
  ⟨hi, fun hd => ⟨_, ht ▸ hd, .refl _⟩⟩

theorem modifyDef {f : TypeDef → TypeDef} (hf : ∀ d : TypeDef, d.Extends (f d)) : m.Extends (m.modifyDef t f) where
  id := rfl
  kept {i d} hd := by
    have hget : (m.modifyDef t f).types[i]? = if t.declared.index = i then m.types[i]?.map f else m.types[i]? :=
      Array.getElem?_modify ..
    rw [hget, hd]
    split
    · exact ⟨f d, rfl, hf d⟩
    · exact ⟨d, rfl, .refl d⟩

theorem def? (h : m.Extends m') (hd : m.def? t = some d) : ∃ d', m'.def? t = some d' ∧ d.Extends d' := by
  obtain ⟨hat, harray, hmodule⟩ := def?_some hd
  obtain ⟨d', hd', he⟩ := h.kept hat
  exact ⟨d', by rw [def?_eq harray, if_pos (hmodule.trans h.id.symm)]; exact hd', he⟩

theorem declares (h : m.Extends m') (ht : m.Declares t) : m'.Declares t := by
  obtain ⟨d, hd, rfl⟩ := ht
  obtain ⟨d', hd', he⟩ := h.def? hd
  exact ⟨d', hd', he.type⟩

theorem has (h : m.Extends m') (hr : m.Has r) : m'.Has r := by
  obtain ⟨x, hx, rfl⟩ := hr
  obtain ⟨d, hd, hx⟩ := Option.bind_eq_some_iff.mp hx
  obtain ⟨d', hd', he⟩ := h.def? hd
  obtain ⟨x', hx', hmethod⟩ := he.members hx
  exact ⟨x', by rw [Module.routine?, hd']; exact hx', hmethod⟩

end Extends

/-- What a call leaves behind that writes nothing and does not set the entry point. -/
structure Quiet (m m' : Module) : Prop where
  backend : m'.backend = m.backend
  name : m'.name = m.name
  entry : m'.entry = m.entry
  lines : m'.lines = m.lines
  there : m.Extends m'
  lasts : m.Lasts m'
  placed : (m.Bodied fun _ => True) → m'.Bodied fun _ => True

namespace Quiet

theorem refl (m : Module) : m.Quiet m := ⟨rfl, rfl, rfl, rfl, .of_types rfl rfl, .refl m, fun h => h⟩

/-- A definition that is changed keeps its members; if it is finished, it keeps what lasts. -/
theorem modifyDef {f : TypeDef → TypeDef} (he : ∀ d : TypeDef, d.Extends (f d)) (hl : m.Lasts (m.modifyDef t f))
    (hp : (m.Bodied fun _ => True) → (m.modifyDef t f).Bodied fun _ => True) : m.Quiet (m.modifyDef t f) :=
  ⟨rfl, rfl, rfl, rfl, .modifyDef he, hl, hp⟩

theorem modifyRoutine {f : Routine → Routine} (hf : ∀ x, (f x).method = x.method) (hl : m.Lasts (m.modifyRoutine r f)) :
    m.Quiet (m.modifyRoutine r f) :=
  modifyDef (fun d => .modifyRoutine d r hf) hl fun h => h.modifyRoutine hf fun _ h => h

theorem defineType {name : Text} {attrs : TypeAttributes} {base : Option Ty}
    (h : m.defineType name attrs base = .ok (t, m')) :
    m.Quiet m' := by
  have hl : m.Lasts m' := .defineType h
  have hp : (m.Bodied fun _ => True) → m'.Bodied fun _ => True := fun hm => hm.defineType h
  obtain ⟨-, -, -, -, -, -, rfl⟩ := defineType_ok h
  refine ⟨rfl, rfl, rfl, rfl, ⟨rfl, fun {i d} hd => ⟨d, ?_, .refl d⟩⟩, hl, hp⟩
  show (m.types.push _)[i]? = some d
  rw [Array.getElem?_push, if_neg (by have := (Array.getElem?_eq_some_iff.mp hd).1; omega)]
  exact hd

theorem defineField {name : Text} {type : Option Ty} {attrs : FieldAttributes} {f : Field}
    (h : m.defineField t name type attrs = .ok (f, m')) : m.Quiet m' := by
  have hp : (m.Bodied fun _ => True) → m'.Bodied fun _ => True := fun hm => hm.defineField h
  obtain ⟨d, hopen, h⟩ := bind_eq_ok.mp h
  cases h
  exact modifyDef (fun d => ⟨rfl, fun h => ⟨_, h, rfl⟩⟩) (.of_open hopen _) hp

theorem defineMethod {name : Text} {attrs : MethodAttributes} {ret : Option Ty} {params : List (Option Ty)}
    (h : m.defineMethod t name attrs ret params = .ok (r, m')) : m.Quiet m' := by
  have hp : (m.Bodied fun _ => True) → m'.Bodied fun _ => True := fun hm => hm.defineMethod trivial h
  obtain ⟨d, hopen, h⟩ := bind_eq_ok.mp h
  cases h
  exact modifyDef (fun d => .pushMethod d _) (.of_open hopen _) hp

theorem defineConstructor {attrs : MethodAttributes} {params : List (Option Ty)}
    (h : m.defineConstructor t attrs params = .ok (r, m')) : m.Quiet m' := by
  have hp : (m.Bodied fun _ => True) → m'.Bodied fun _ => True := fun hm => hm.defineConstructor trivial h
  obtain ⟨d, hopen, h⟩ := bind_eq_ok.mp h
  cases h
  exact modifyDef (fun d => .pushCtor d _) (.of_open hopen _) hp

theorem defineParameter {position : Int} {name : Text} (h : m.defineParameter r position name = .ok m') : m.Quiet m' := by
  have hl : m.Lasts m' := .defineParameter h
  unfold Module.defineParameter at h
  split at h
  · cases h
  · cases h
    exact modifyRoutine (fun _ => rfl) hl

theorem setImplementation {impl : Implementation} (h : m.setImplementation r impl = .ok m') : m.Quiet m' := by
  obtain ⟨d, hopen, h⟩ := bind_eq_ok.mp h
  cases h
  exact modifyRoutine (fun _ => rfl) (.of_open hopen _)

theorem setDraft {D : Draft} (hl : m.Lasts (m.setDraft r D)) : m.Quiet (m.setDraft r D) := modifyRoutine (fun _ => rfl) hl

theorem declareLocal {u : Option Ty} {l : LocalSlot} (hr : m.Has r)
    (h : m.declareLocal r u = .ok (l, m')) : m.Quiet m' := by
  have hl : m.Lasts m' := .declareLocal hr h
  obtain ⟨_, -, h⟩ := bind_eq_ok.mp h
  cases h
  exact setDraft hl

theorem defineLabel {l : Label} (hr : m.Has r) (h : m.defineLabel r = .ok (l, m')) : m.Quiet m' := by
  have hl : m.Lasts m' := .defineLabel hr h
  obtain ⟨_, -, h⟩ := bind_eq_ok.mp h
  cases h
  exact setDraft hl

theorem markLabel {l : Option Label} (hr : m.Has r) (h : m.markLabel r l = .ok m') : m.Quiet m' := by
  have hl : m.Lasts m' := .markLabel hr h
  obtain ⟨_, -, h⟩ := bind_eq_ok.mp h
  cases h
  exact setDraft hl

/-- A call that leaves the module as it was if it fails. -/
theorem keeping {y : Except Fault Module} (h : ∀ {m'}, y = .ok m' → m.Quiet m') : m.Quiet (m.keeping y).2 := by
  cases y with
  | ok m' => exact h rfl
  | error f => exact refl m

theorem keeping_map {α : Type} {y : Except Fault (α × Module)} (h : ∀ {a m'}, y = .ok (a, m') → m.Quiet m') :
    m.Quiet (m.keeping (y.map Prod.snd)).2 := by
  cases y with
  | ok p => exact h rfl
  | error f => exact refl m

end Quiet

/-! ### What one call does -/

theorem createType_refused (hm : m.backend = .textual) (h : (m.createType t).1.isOk = false) : (m.createType t).2 = m := by
  unfold createType at h ⊢
  rw [hm] at h ⊢
  cases hopen : m.open? t "type body" with
  | error f => rfl
  | ok d =>
    rw [hopen] at h
    cases hw : m.writeType t with
    | error f => rfl
    | ok m' =>
      simp only [hw] at h
      cases h

theorem setEntryPoint_cases (hm : m.backend = .textual) (r : Method) :
    (∃ f, m.setEntryPoint r = .error f) ∨ r.owner.module = m.id ∧ m.isCreated r.owner = false ∧
      (∀ e, m.entry = some e → e = r) ∧
      m.setEntryPoint r = .ok { m with entry := some r } := by
  unfold setEntryPoint
  split
  · exact .inl ⟨_, rfl⟩
  · rename_i hmodule
    split
    · exact .inl ⟨_, rfl⟩
    · rename_i hopen
      have hopen : m.isCreated r.owner = false := Bool.eq_false_iff.mpr fun hc => hopen ⟨hm, hc⟩
      cases he : m.entry with
      | none => exact .inr ⟨not_not.mp hmodule, hopen, fun e h => (by cases h), rfl⟩
      | some e =>
        dsimp only
        split
        · rename_i her
          subst her
          refine .inr ⟨not_not.mp hmodule, hopen, fun e' h => (Option.some.inj h).symm, ?_⟩
          rw [← he]
        · exact .inl ⟨_, rfl⟩

/-- A call writes nothing and does not set the entry point; or it sets it, to a member of a type that is open; or it
    finishes a type and writes it. -/
theorem perform_cases (hm : m.backend = .textual) (hc : c.Known m) :
    (m.Quiet (m.perform c).2 ∧ ((m.perform c).1.isOk = true → (∀ r, c ≠ .setEntryPoint r) ∧ c.finishes? = none)) ∨
    (∃ r, c = .setEntryPoint r ∧ m.Has r ∧ m.Declares r.owner ∧ m.isCreated r.owner = false ∧
      (∀ e, m.entry = some e → e = r) ∧
      m.perform c = (.ok (), { m with entry := some r })) ∨
    ∃ t d, c = .createType t ∧ m.def? t = some d ∧ d.type = t ∧ d.isCreated = false ∧ m.Seals d ∧
      m.perform c = (.ok (), m.sealTypes [t]) := by
  cases c with
  | setEntryPoint r =>
    rcases setEntryPoint_cases hm r with ⟨f, hf⟩ | ⟨hmodule, hopen, hold, hset⟩
    · refine .inl ?_
      rw [perform, hf]
      exact ⟨.refl m, fun h => (by cases h)⟩
    · exact .inr (.inl ⟨r, rfl, (hc hmodule).1, (hc hmodule).2, hopen, hold, by rw [perform, hset]; rfl⟩)
  | createType t =>
    obtain ⟨result, m', hcreate⟩ : ∃ result m', m.createType t = (result, m') := ⟨_, _, rfl⟩
    cases result with
    | error f =>
      refine .inl ⟨?_, fun h => ?_⟩
      · rw [perform, createType_refused hm (by rw [hcreate]; rfl)]
        exact .refl m
      · rw [perform, hcreate] at h
        cases h
    | ok u =>
      obtain ⟨⟨d, hd, hopen, hseals⟩, rfl⟩ := createType_ok_iff.mp hcreate
      refine .inr (.inr ⟨t, d, rfl, hd, ?_, hopen, hseals, hcreate⟩)
      rcases hc with hnone | ⟨e, he, htype⟩
      · rw [hnone] at hd
        cases hd
      · cases hd.symm.trans he
        exact htype
  | defineType name attrs base => exact .inl ⟨.keeping_map .defineType, fun _ => ⟨nofun, rfl⟩⟩
  | defineField t name type attrs => exact .inl ⟨.keeping_map .defineField, fun _ => ⟨nofun, rfl⟩⟩
  | defineMethod t name attrs ret params => exact .inl ⟨.keeping_map .defineMethod, fun _ => ⟨nofun, rfl⟩⟩
  | defineConstructor t attrs params => exact .inl ⟨.keeping_map .defineConstructor, fun _ => ⟨nofun, rfl⟩⟩
  | defineParameter r position name => exact .inl ⟨.keeping .defineParameter, fun _ => ⟨nofun, rfl⟩⟩
  | setImplementation r impl => exact .inl ⟨.keeping .setImplementation, fun _ => ⟨nofun, rfl⟩⟩
  | emit r e => exact .inl ⟨.setDraft (.emit hc e), fun _ => ⟨nofun, rfl⟩⟩
  | declareLocal r u => exact .inl ⟨.keeping_map (.declareLocal hc), fun _ => ⟨nofun, rfl⟩⟩
  | defineLabel r => exact .inl ⟨.keeping_map (.defineLabel hc), fun _ => ⟨nofun, rfl⟩⟩
  | markLabel r l => exact .inl ⟨.keeping (.markLabel hc), fun _ => ⟨nofun, rfl⟩⟩

theorem isCreated_setDraft (m : Module) (r : Method) (D : Draft) (u : Ty) :
    (m.setDraft r D).isCreated u = m.isCreated u := by
  cases ha : u.isArray with
  | true => rw [isCreated, isCreated, def?_of_isArray ha, def?_of_isArray ha]
  | false =>
    have changed : (m.setDraft r D).def? u = if r.owner.declared.index = u.declared.index then _ else _ :=
      def?_modifyDef_of m ha _
    rw [isCreated, changed, isCreated]
    by_cases hi : r.owner.declared.index = u.declared.index
    · rw [if_pos hi]
      cases m.def? u with
      | none => rfl
      | some d => exact d.isCreated_modifyRoutine r _
    · rw [if_neg hi]

/-- A call that fails writes nothing and finishes nothing. -/
theorem perform_refused (hm : m.backend = .textual) (h : (m.perform c).1.isOk = false) :
    (m.perform c).2.lines = m.lines ∧ ∀ u, (m.perform c).2.isCreated u = m.isCreated u := by
  have kept : ∀ {y : Except Fault Module}, (m.keeping y).1.isOk = false → (m.keeping y).2 = m := by
    intro y hy
    cases y with
    | ok m' => cases hy
    | error f => rfl
  cases c with
  | emit r e => exact ⟨rfl, m.isCreated_setDraft r _⟩
  | createType t =>
    have same : (m.perform (.createType t)).2 = m := createType_refused hm h
    rw [same]
    exact ⟨rfl, fun _ => rfl⟩
  | _ =>
    have same := kept h
    show (m.keeping _).2.lines = _ ∧ ∀ u, (m.keeping _).2.isCreated u = _
    rw [same]
    exact ⟨rfl, fun _ => rfl⟩

/-! ### What a listing shows -/

/-- A definition is written as long as its members are the entry point or not as before. -/
theorem classLines_congr (hname : m'.name = m.name)
    (hentry : ∀ x ∈ d.routines, m'.entry = some x.method ↔ m.entry = some x.method)
    {ls : List Text} (h : m.classLines d = .ok ls) : m'.classLines d = .ok ls := by
  have hstart : ∀ x ∈ d.routines, m'.entry = some (Renaming.refl.method x.method) ↔ m.entry = some x.method :=
    fun x hx => by
    rw [Renaming.method_refl]
    exact hentry x hx
  obtain ⟨ls', hls', rfl⟩ := (classLines_renamed (fun _ => rfl) hname hstart).of_ok h
  rwa [Renaming.typeDef_refl] at hls'

theorem forall₂_of_mapM {ε α β : Type} {f : α → Except ε β} {xs : List α} {ys : List β} (h : xs.mapM f = .ok ys) :
    List.Forall₂ (fun x y => f x = .ok y) xs ys := by
  induction xs generalizing ys with
  | nil =>
    cases h
    exact .nil
  | cons x xs ih =>
    rw [List.mapM_cons] at h
    obtain ⟨y, hy, h⟩ := bind_eq_ok.mp h
    obtain ⟨ys', hys, h⟩ := bind_eq_ok.mp h
    cases h
    exact .cons hy (ih hys)

theorem mem_of_forall₂ {α β : Type} {R : α → β → Prop} {xs : List α} {ys : List β} (h : List.Forall₂ R xs ys)
    {x : α} (hx : x ∈ xs) :
    ∃ y ∈ ys, R x y := by
  obtain ⟨hlen, hget⟩ := List.forall₂_iff_get.mp h
  obtain ⟨k, hk, rfl⟩ := List.mem_iff_getElem.mp hx
  exact ⟨ys[k], List.getElem_mem _, hget k hk (hlen ▸ hk)⟩

open Listing

/-- Of the lines of a member, one marks the entry point or none does. -/
theorem countP_routineLines {x : Routine} {ls : List Text} (h : m.routineLines x = .ok ls) :
    ls.countP isEntryLine = if m.listsEntry x then 1 else 0 := by
  have header : isEntryLine (m.methodLine x) = false :=
    decide_eq_false (Text.ne_of_startsWith (m.methodLine_startsWith x) (by decide))
  have braces : isEntryLine "    \x7b" = false ∧ isEntryLine "    \x7d" = false := by decide
  unfold routineLines at h
  dsimp only at h
  split at h
  · rename_i himpl
    cases h
    simp [header, braces, listsEntry, himpl]
  · rename_i himpl
    split at h
    · rename_i b hb
      cases h
      rw [List.countP_cons_of_neg (by simp [header]), List.countP_cons_of_neg (by simp [braces]), List.countP_append,
        m.countP_bodyLines]
      simp [braces, listsEntry, himpl]
    · cases h

/-- Of the lines of a type, as many mark the entry point as members are listed as such. -/
theorem countP_classLines {ls : List Text} (h : m.classLines d = .ok ls) :
    ls.countP isEntryLine = d.routines.countP m.listsEntry := by
  obtain ⟨extend, lss, hextend, hlss, rfl⟩ := m.classLines_ok h
  have members : ∀ {xs : List Routine} {lss : List (List Text)},
      List.Forall₂ (fun x ls => m.routineLines x = .ok ls) xs lss →
      lss.flatten.countP isEntryLine = xs.countP m.listsEntry := by
    intro xs lss h
    induction h with
    | nil => rfl
    | cons hx _ ih => rw [List.flatten_cons, List.countP_append, ih, countP_routineLines hx, List.countP_cons, Nat.add_comm]
  have heading : isEntryLine (Text.join [".class ", d.attrs.words, " ", d.type.name]) = false :=
    not_entry_join (by decide) _
  have base : extend.countP isEntryLine = 0 := List.countP_eq_zero.mpr fun l hl => by simp [(hextend l hl).2]
  have fields : (d.fields.toList.map fun f =>
      Text.join ["    .field ", f.attrs.words, " ", m.optTypeRef f.type, " ", f.name]).countP isEntryLine = 0 := by
    refine List.countP_eq_zero.mpr fun l hl => ?_
    obtain ⟨f, -, rfl⟩ := List.mem_map.mp hl
    simp [not_entry_join (t := "    .field ") (by decide)]
  have braces : isEntryLine "\x7b" = false ∧ isEntryLine "\x7d" = false := by decide
  simp [List.countP_append, members (forall₂_of_mapM hlss), heading, base, fields, braces]

/-- The lines of a member stand among those of its type. -/
theorem routineLines_of_classLines {x : Routine} (hx : x ∈ d.routines) {ls : List Text} (h : m.classLines d = .ok ls) :
    ∃ part, m.routineLines x = .ok part ∧ part <:+: ls := by
  obtain ⟨extend, lss, -, hlss, rfl⟩ := m.classLines_ok h
  obtain ⟨part, hpart, hlines⟩ := mem_of_forall₂ (forall₂_of_mapM hlss) hx
  refine ⟨part, hlines, (List.infix_of_mem_flatten hpart).trans ?_⟩
  exact ⟨_, _, rfl⟩

/-! ### Finished types -/

theorem sealTypes_lasts (hd : m.def? t = some d) (hopen : d.isCreated = false) : m.Lasts (m.sealTypes [t]) where
  id := rfl
  kept {i e} he hc := by
    have hi : i ≠ t.declared.index := by
      rintro rfl
      rw [(def?_some hd).1] at he
      cases he
      rw [hopen] at hc
      cases hc
    exact ⟨e, by rw [types_sealTypes, he]; simp [hi], rfl⟩

theorem sealTypes_extends (hm : m.backend = .textual) (t : Ty) : m.Extends (m.sealTypes [t]) where
  id := rfl
  kept {i d} hd := by
    rw [types_sealTypes, hd, hm, Option.map_some]
    refine ⟨_, rfl, ?_⟩
    split
    · exact ⟨rfl, fun h => ⟨_, h, rfl⟩⟩
    · exact .refl d

/-! ### The account of a listing -/

/-- The lines of a module are those in `front` and the blocks of the definitions `ds`, which the calls `done` have
    finished. -/
structure Account (m : Module) (front : List Text) (done : List Call) (ds : List TypeDef) : Prop where
  textual : m.backend = .textual
  placed : m.Bodied fun _ => True
  written : ∃ blocks, List.Forall₂ (fun d ls => m.classLines d = .ok ls) ds blocks ∧
    m.lines.toList = front ++ blocks.flatten
  finished : ∀ d ∈ ds, ∃ d', m.def? d.type = some d' ∧ d'.isCreated = true ∧ d'.lasting = d.lasting
  types : ds.map TypeDef.type = done.filterMap Call.finishes?
  nodup : (ds.map TypeDef.type).Nodup
  entry : ∀ r, m.entry = some r ↔ .setEntryPoint r ∈ done
  known : ∀ r, m.entry = some r → m.Has r ∧ m.Declares r.owner

namespace Account

variable {front : List Text} {done : List Call} {ds : List TypeDef}

/-- At first there is the header only. -/
theorem new (id : Nat) (name runtime : Text) :
    (Module.new id .textual name runtime).Account (Module.new id .textual name runtime).lines.toList [] [] where
  textual := rfl
  placed := bodied_new trivial id .textual name runtime
  written := ⟨[], .nil, (List.append_nil _).symm⟩
  finished := nofun
  types := rfl
  nodup := .nil
  entry _ := ⟨nofun, nofun⟩
  known := nofun

/-- What a finished definition was keeps standing for it. -/
theorem finished_lasts (h : m.Account front done ds) (hl : m.Lasts m') :
    ∀ d ∈ ds, ∃ d', m'.def? d.type = some d' ∧ d'.isCreated = true ∧ d'.lasting = d.lasting := by
  intro d hd
  obtain ⟨d', hd', hc, he⟩ := h.finished d hd
  obtain ⟨d'', hd'', he'⟩ := hl.def? hd' hc
  exact ⟨d'', hd'', (TypeDef.isCreated_of_lasting he').trans hc, he'.trans he⟩

/-- What has been written would be written again as long as listed members are the entry point or not as before. -/
theorem written_congr (h : m.Account front done ds) (hname : m'.name = m.name)
    (hentry : ∀ d ∈ ds, ∀ x ∈ d.routines, m'.entry = some x.method ↔ m.entry = some x.method) :
    ∃ blocks, List.Forall₂ (fun d ls => m'.classLines d = .ok ls) ds blocks ∧ m.lines.toList = front ++ blocks.flatten := by
  obtain ⟨blocks, hblocks, hlines⟩ := h.written
  refine ⟨blocks, ?_, hlines⟩
  exact ((List.forall₂_and_left ds blocks).mpr ⟨hentry, hblocks⟩).imp fun d ls h => classLines_congr hname h.1 h.2

theorem quiet (h : m.Account front done ds) (hq : m.Quiet m') {more : List Call}
    (hmore : ∀ c ∈ more, (∀ r, c ≠ .setEntryPoint r) ∧ c.finishes? = none) : m'.Account front (done ++ more) ds where
  textual := hq.backend.trans h.textual
  placed := hq.placed h.placed
  written := by
    rw [hq.lines]
    exact h.written_congr hq.name fun _ _ _ _ => by rw [hq.entry]
  finished := h.finished_lasts hq.lasts
  types := by
    rw [List.filterMap_append, List.filterMap_eq_nil_iff.mpr fun c hc => (hmore c hc).2, List.append_nil]
    exact h.types
  nodup := h.nodup
  entry r := by
    rw [hq.entry, h.entry, List.mem_append]
    exact ⟨.inl, fun hr => hr.resolve_right fun hr => (hmore _ hr).1 r rfl⟩
  known r hr := by
    rw [hq.entry] at hr
    exact ⟨hq.there.has (h.known r hr).1, hq.there.declares (h.known r hr).2⟩

theorem placed_of (h : m.Account front done ds) (hd : d ∈ ds) : d.Placed d.type.declared.index := by
  obtain ⟨d', hd', -, he⟩ := h.finished d hd
  exact .of_lasting (h.placed.types (def?_some hd').1).placed he

/-- A listed member belongs to the type it is listed in. -/
theorem owner (h : m.Account front done ds) (hd : d ∈ ds) {x : Routine} (hx : x ∈ d.routines)
    (ho : m.Declares x.method.owner) :
    x.method.owner = d.type := by
  obtain ⟨d', hd', -, he⟩ := h.finished d hd
  obtain ⟨e, he', htype⟩ := ho
  have hat := (def?_some he').1
  rw [(h.placed_of hd).owner hx, (def?_some hd').1] at hat
  cases hat
  exact htype.symm.trans (TypeDef.type_of_lasting he)

theorem isCreated (h : m.Account front done ds) (hd : d ∈ ds) : m.isCreated d.type = true := by
  obtain ⟨d', hd', hc, -⟩ := h.finished d hd
  rw [Module.isCreated, hd']
  exact hc

theorem setEntryPoint (h : m.Account front done ds) (hr : m.Has r) (ho : m.Declares r.owner)
    (hopen : m.isCreated r.owner = false)
    (hold : ∀ e, m.entry = some e → e = r) :
      ({ m with entry := some r }).Account front (done ++ [Call.setEntryPoint r]) ds where
  textual := h.textual
  placed := h.placed.of_types rfl
  written := by
    refine h.written_congr rfl fun d hd x hx => ?_
    -- The type of the entry point is open, so no listed member is it.
    have apart : r ≠ x.method := by
      rintro rfl
      rw [h.owner hd hx ho, h.isCreated hd] at hopen
      cases hopen
    exact ⟨fun he => absurd (Option.some.inj he) apart, fun he => absurd (hold _ he).symm apart⟩
  finished := h.finished
  types := by
    rw [List.filterMap_append]
    exact h.types.trans (List.append_nil _).symm
  nodup := h.nodup
  entry q := by
    rw [List.mem_append, List.mem_singleton, Call.setEntryPoint.injEq, ← h.entry]
    exact ⟨fun he => .inr (Option.some.inj he).symm, fun he => congrArg some (he.elim (fun he => (hold q he).symm) Eq.symm)⟩
  known q hq := by
    cases hq
    exact ⟨hr, ho⟩

/-- A type is finished: its block is written behind the others. -/
theorem createType (h : m.Account front done ds) (hd : m.def? t = some d) (ht : d.type = t) (hopen : d.isCreated = false)
    (hs : m.Seals d) : (m.sealTypes [t]).Account front (done ++ [.createType t]) (ds ++ [d.sealed .textual]) := by
  have hlasts := sealTypes_lasts hd hopen
  have hthere := sealTypes_extends h.textual t
  have hdef : (m.sealTypes [t]).def? t = some (d.sealed .textual) := by
    rw [def?_sealTypes_eq, hd, h.textual]
    simp
  obtain ⟨ls, hls⟩ : ∃ ls, m.classLines d = .ok ls := by
    rw [Seals, h.textual] at hs
    exact hs
  have hnew : t ∉ ds.map TypeDef.type := by
    intro hmem
    obtain ⟨e, he, rfl⟩ := List.mem_map.mp hmem
    have hcreated := h.isCreated he
    rw [Module.isCreated, hd] at hcreated
    exact Bool.false_ne_true (hopen.symm.trans hcreated)
  refine ⟨h.textual, ?_, ?_, ?_, ?_, ?_, fun r => ?_, fun r hr => ?_⟩
  · rw [sealTypes_one hd]
    have hlines : ({ m with lines := m.lines ++ (m.block d).toArray }).Bodied fun _ => True := h.placed.of_types rfl
    exact hlines.modifyDef fun {e} _ he => by
      rw [h.textual]
      exact he.withCreated true
  · have hold : ∃ blocks, List.Forall₂ (fun d ls => (m.sealTypes [t]).classLines d = .ok ls) ds blocks ∧
        m.lines.toList = front ++ blocks.flatten := h.written_congr rfl fun _ _ _ _ => Iff.rfl
    have hname : (m.sealTypes [t]).name = m.name := rfl
    have hblock : (m.sealTypes [t]).classLines d = .ok ls := classLines_congr hname (fun _ _ => Iff.rfl) hls
    obtain ⟨blocks, hblocks, hlines⟩ := hold
    refine ⟨blocks ++ [ls], List.rel_append hblocks (.cons hblock .nil), ?_⟩
    have written : (m.sealTypes [t]).lines.toList = m.lines.toList ++ ls := by
      simp [sealTypes, typeBlock_of_classLines h.textual hd hls]
    rw [written, hlines, List.flatten_append, List.flatten_singleton, List.append_assoc]
  · intro e he
    rcases List.mem_append.mp he with he | he
    · exact h.finished_lasts hlasts e he
    · cases List.mem_singleton.mp he
      exact ⟨_, by rw [show (d.sealed .textual).type = t from ht]; exact hdef, rfl, rfl⟩
  · rw [List.map_append, h.types, List.filterMap_append]
    exact congrArg (fun u => _ ++ [u]) ht
  · rw [List.map_append, List.nodup_append]
    refine ⟨h.nodup, List.nodup_singleton _, fun u hu v hv huv => hnew ?_⟩
    cases List.mem_singleton.mp hv
    rw [← ht, show d.type = (d.sealed .textual).type from rfl, ← huv]
    exact hu
  · rw [List.mem_append, List.mem_singleton, ← h.entry]
    exact ⟨.inl, fun hr => hr.resolve_right fun hr => (by cases hr)⟩
  · exact ⟨hthere.has (h.known r hr).1, hthere.declares (h.known r hr).2⟩

/-- One call more. -/
theorem step (h : m.Account front done ds) (hc : c.Known m) :
    (m.perform c).2.Account front (done ++ m.acceptedOf c) (ds ++ m.finishedBy c) := by
  rcases perform_cases h.textual hc with ⟨hq, hplain⟩ | ⟨r, rfl, hr, ho, hopen, hold, hset⟩ | ⟨t, d, rfl, hd, ht,
      hopen, hs, hcreate⟩
  · have hnone : m.finishedBy c = [] := by
      unfold finishedBy
      split
      · rw [(hplain ‹_›).2]
        rfl
      · rfl
    rw [hnone, List.append_nil]
    refine h.quiet hq fun c' hc' => ?_
    unfold acceptedOf at hc'
    split at hc'
    · cases List.mem_singleton.mp hc'
      exact hplain ‹_›
    · cases hc'
  · have haccepted : m.acceptedOf (.setEntryPoint r) = [.setEntryPoint r] := by rw [acceptedOf, hset]; rfl
    have hfinished : m.finishedBy (.setEntryPoint r) = [] := by rw [finishedBy, hset]; rfl
    rw [haccepted, hfinished, List.append_nil, hset]
    exact h.setEntryPoint hr ho hopen hold
  · have haccepted : m.acceptedOf (.createType t) = [.createType t] := by rw [acceptedOf, hcreate]; rfl
    have hfinished : m.finishedBy (.createType t) = [d.sealed .textual] := by
      have hdef : (m.sealTypes [t]).def? t = some (d.sealed .textual) := by
        rw [def?_sealTypes_eq, hd, h.textual]
        simp
      rw [finishedBy, hcreate]
      show ((m.sealTypes [t]).def? t).toList = _
      rw [hdef]
      rfl
    rw [haccepted, hfinished, hcreate]
    exact h.createType hd ht hopen hs

/-- However many calls there are, the account stays right. -/
theorem run {calls : List Call} (h : m.Account front done ds) (hcalls : m.AllKnown calls) :
    (m.run calls).Account front (done ++ m.accepted calls) (ds ++ m.finishing calls) := by
  induction calls generalizing m done ds with
  | nil =>
    rw [accepted, finishing, List.append_nil, List.append_nil]
    exact h
  | cons c calls ih =>
    rw [accepted, finishing, ← List.append_assoc, ← List.append_assoc]
    exact ih (h.step hcalls.1) hcalls.2

/-- No member is listed twice. -/
theorem methods_nodup (h : m.Account front done ds) : ((ds.flatMap TypeDef.routines).map Routine.method).Nodup := by
  rw [List.map_flatMap]
  refine List.nodup_flatMap.mpr ⟨fun d hd => (h.placed_of hd).methods_pairwise, ?_⟩
  refine (List.pairwise_map.mp h.nodup).imp_of_mem fun {d e} hd he hne r hr hr' => hne ?_
  obtain ⟨x, hx, rfl⟩ := List.mem_map.mp hr
  obtain ⟨y, hy, hxy⟩ := List.mem_map.mp hr'
  -- Types at one place are one type.
  have hindex : e.type.declared.index = d.type.declared.index := by
    rw [← (h.placed_of he).owner hy, hxy, (h.placed_of hd).owner hx]
  obtain ⟨d', hd', -, hdd⟩ := h.finished d hd
  obtain ⟨e', he', -, hee⟩ := h.finished e he
  have hat := (def?_some he').1
  rw [hindex, (def?_some hd').1] at hat
  cases hat
  exact (TypeDef.type_of_lasting hdd).symm.trans (TypeDef.type_of_lasting hee)

/-- As many lines mark the entry point as listed members are it, if none in front does. -/
theorem countP_lines (h : m.Account front done ds) (hfront : front.countP isEntryLine = 0) :
    m.lines.toList.countP isEntryLine = (ds.flatMap TypeDef.routines).countP m.listsEntry := by
  obtain ⟨blocks, hblocks, hlines⟩ := h.written
  have behind : blocks.flatten.countP isEntryLine = (ds.flatMap TypeDef.routines).countP m.listsEntry := by
    clear hlines h
    induction hblocks with
    | nil => rfl
    | cons hd _ ih =>
      rw [List.flatten_cons, List.countP_append, List.flatMap_cons, List.countP_append, ih, countP_classLines hd]
  rw [hlines, List.countP_append, hfront, behind, Nat.zero_add]

/-- The entry point is marked if its type has been finished and the runtime does not implement it. -/
theorem exists_listsEntry (h : m.Account front done ds) : (∃ x ∈ ds.flatMap TypeDef.routines, m.listsEntry x = true) ↔
    ∃ r x, .setEntryPoint r ∈ done ∧ .createType r.owner ∈ done ∧ m.routine? r = some x ∧ x.impl ≠ .runtime := by
  have finishes : ∀ t, .createType t ∈ done ↔ ∃ d ∈ ds, d.type = t := by
    intro t
    rw [← List.mem_map, h.types, List.mem_filterMap]
    refine ⟨fun ht => ⟨_, ht, rfl⟩, fun ⟨c, hc, ht⟩ => ?_⟩
    cases c <;> cases ht
    exact hc
  -- A listed member is implemented as it is in the module.
  have lasts : ∀ {d : TypeDef} {r : Method}, d ∈ ds → d.type = r.owner →
      (m.routine? r).map Routine.lasting = (d.routine? r).map Routine.lasting := by
    intro d r hd ht
    obtain ⟨d', hd', -, he⟩ := h.finished d hd
    rw [routine?, ← ht, hd', Option.bind_some, ← d'.routine?_lasting, he, d.routine?_lasting]
  constructor
  · rintro ⟨x, hx, hlists⟩
    obtain ⟨d, hd, hxd⟩ := List.mem_flatMap.mp hx
    obtain ⟨himpl, he⟩ := of_decide_eq_true hlists
    have howner := h.owner hd hxd (h.known _ he).2
    have hmap := lasts hd howner.symm
    rw [(h.placed_of hd).routine? hxd, Option.map_some, Option.map_eq_some_iff] at hmap
    obtain ⟨y, hy, hlasting⟩ := hmap
    exact ⟨x.method, y, (h.entry _).mp he, (finishes _).mpr ⟨d, hd, howner.symm⟩, hy,
        (Routine.same_of_lasting hlasting).1 ▸ himpl⟩
  · rintro ⟨r, x, hset, hfinish, hx, himpl⟩
    obtain ⟨d, hd, ht⟩ := (finishes _).mp hfinish
    have he := (h.entry r).mpr hset
    obtain ⟨y, hy, hyr⟩ := (h.known r he).1
    cases hx.symm.trans hy
    have hmap := lasts hd ht
    rw [hx, Option.map_some, eq_comm, Option.map_eq_some_iff] at hmap
    obtain ⟨z, hz, hlasting⟩ := hmap
    have hmethod : z.lasting.method = x.lasting.method := congrArg Routine.method hlasting
    have hzr : z.method = r := hmethod.trans hyr
    refine ⟨z, List.mem_flatMap.mpr ⟨d, hd, TypeDef.mem_routines hz⟩, decide_eq_true ⟨?_, ?_⟩⟩
    · rw [(Routine.same_of_lasting hlasting).1]
      exact himpl
    · rw [he, hzr]

end Account

/-! ### Every listing -/

theorem allKnown_append {calls more : List Call} :
    m.AllKnown (calls ++ more) ↔ m.AllKnown calls ∧ (m.run calls).AllKnown more := by
  induction calls generalizing m with
  | nil => exact ⟨fun h => ⟨trivial, h⟩, And.right⟩
  | cons c calls ih => exact (and_congr_right fun _ => ih).trans and_assoc.symm

/-- The header marks nothing. -/
theorem countP_header (name runtime : Text) : (header name runtime).toList.countP isEntryLine = 0 := by
  refine List.countP_eq_zero.mpr fun l hl => ?_
  simp only [header, List.mem_cons, List.not_mem_nil, or_false] at hl
  rcases hl with rfl | rfl | rfl
  all_goals exact Bool.not_eq_true _ ▸ not_entry_join (by decide) _

/-- The listing after any calls, of which some may fail. Behind the header stand the blocks of the types that have
    been finished, one for each, in the order in which they were; a call that fails adds no line and finishes no type;
    and one line at most marks the entry point: that of the member which was made the entry point, if its type has
    been finished and the runtime does not implement it. -/
theorem listing_of_calls (id : Nat) (name runtime : Text) {calls : List Call}
    (hcalls : (new id .textual name runtime).AllKnown calls) :
    let m₀ := new id .textual name runtime
    let m := m₀.run calls
    let done := m₀.accepted calls
    let ds := m₀.finishing calls
    (∃ blocks, List.Forall₂ (fun d ls => m.classLines d = .ok ls) ds blocks ∧
      m.lines.toList = (header m₀.name m₀.runtime).toList ++ blocks.flatten) ∧
    ds.map TypeDef.type = done.filterMap Call.finishes? ∧ (ds.map TypeDef.type).Nodup ∧
      (∀ d ∈ ds, m.isCreated d.type = true) ∧
    (∀ front c back, calls = front ++ c :: back → ((m₀.run front).perform c).1.isOk = false →
      ((m₀.run front).perform c).2.lines = (m₀.run front).lines ∧
        ∀ t, ((m₀.run front).perform c).2.isCreated t = (m₀.run front).isCreated t) ∧
    (∀ r, m.entry = some r ↔ .setEntryPoint r ∈ done) ∧
    m.lines.toList.countP isEntryLine ≤ 1 ∧
    (m.lines.toList.countP isEntryLine = 1 ↔
      ∃ r x, .setEntryPoint r ∈ done ∧ .createType r.owner ∈ done ∧ m.routine? r = some x ∧ x.impl ≠ .runtime) ∧
    ∀ d ∈ ds, ∀ x ∈ d.routines, ∃ part, m.routineLines x = .ok part ∧ part <:+: m.lines.toList ∧
      part.countP isEntryLine = if m.listsEntry x then 1 else 0 := by
  intro m₀ m done ds
  have account : m.Account m₀.lines.toList done ds := (Account.new id name runtime).run hcalls
  have few : (ds.flatMap TypeDef.routines).countP m.listsEntry ≤ 1 := m.countP_listsEntry account.methods_nodup
  have marked : (ds.flatMap TypeDef.routines).countP m.listsEntry = 1 ↔ ∃ x ∈ ds.flatMap TypeDef.routines,
      m.listsEntry x = true := by
    rw [← List.countP_pos_iff]
    omega
  rw [account.countP_lines (countP_header _ _), marked, account.exists_listsEntry]
  refine ⟨account.written, account.types, account.nodup, fun d hd => account.isCreated hd, ?_,
      account.entry, few, Iff.rfl, ?_⟩
  · rintro front c back rfl hrefused
    have before : (m₀.run front).Account m₀.lines.toList (m₀.accepted front) (m₀.finishing front) :=
      (Account.new id name runtime).run (allKnown_append.mp hcalls).1
    exact perform_refused before.textual hrefused
  · intro d hd x hx
    obtain ⟨blocks, hblocks, hlines⟩ := account.written
    obtain ⟨ls, hls, hclass⟩ := mem_of_forall₂ hblocks hd
    obtain ⟨part, hpart, hwithin⟩ := routineLines_of_classLines hx hclass
    refine ⟨part, hpart, ?_, countP_routineLines hpart⟩
    rw [hlines]
    exact List.infix_append_of_infix_right (hwithin.trans (List.infix_of_mem_flatten hls))

/-! Two types: the first cannot be finished until its method has code, so the second is written before it. -/

instance (m : Module) (r : Method) : Decidable (m.Has r) := decidable_of_iff _ Machine.Caller.has_iff

instance (m : Module) (t : Ty) : Decidable (m.Declares t) := decidable_of_iff _ Machine.Caller.declares_iff

instance (m : Module) : (c : Call) → Decidable (c.Known m)
  | .defineType .. => inferInstanceAs (Decidable True)
  | .defineField t .. | .defineMethod t .. | .defineConstructor t .. | .createType t =>
    inferInstanceAs (Decidable (m.def? t = none ∨ m.Declares t))
  | .setEntryPoint r => inferInstanceAs (Decidable (r.owner.module = m.id → m.Has r ∧ m.Declares r.owner))
  | .defineParameter r .. | .setImplementation r _ | .emit r _ | .declareLocal r _ | .defineLabel r | .markLabel r _ =>
    inferInstanceAs (Decidable (m.Has r))

instance decidableAllKnown : (m : Module) → (calls : List Call) → Decidable (m.AllKnown calls)
  | _, [] => inferInstanceAs (Decidable True)
  | m, c :: calls =>
    have := decidableAllKnown (m.perform c).2 calls
    inferInstanceAs (Decidable (c.Known m ∧ (m.perform c).2.AllKnown calls))

namespace Call

open Machine.Caller (called caller)

def start : Method :=
  { owner := called, isCtor := false, index := 0, name := "Start", attrs := .statics, params := []
    ret := (Module.new 0 .textual "M" "").type? TypeName.void }

def twoTypes : List Call := [
  .defineType "A" ⟨1⟩ none, .defineMethod called "Start" .statics start.ret [], .setEntryPoint start, .createType called,
  .emit start (.plain .ret), .defineType "B" ⟨1⟩ none, .defineType "A" ⟨1⟩ none, .createType caller, .createType called,
  .setEntryPoint start]

end Call

theorem listing_of_calls_twoTypes : (new 0 .textual "M" "").AllKnown Call.twoTypes ∧
    ((new 0 .textual "M" "").finishing Call.twoTypes).map TypeDef.type = [Machine.Caller.caller, Machine.Caller.called] ∧
    ((new 0 .textual "M" "").run Call.twoTypes).lines.toList.countP isEntryLine = 1 := by
  have known : (new 0 .textual "M" "").AllKnown Call.twoTypes := by decide +kernel
  obtain ⟨-, types, -, -, -, -, -, marks, -⟩ := listing_of_calls 0 "M" "" known
  have member : (((new 0 .textual "M" "").run Call.twoTypes).routine? Call.start).any
      (fun x => x.impl ≠ .runtime) = true := by
    decide +kernel
  obtain ⟨x, hx, himpl⟩ := (Option.any_eq_true _ _).mp member
  refine ⟨known, types.trans (by decide +kernel), marks.mpr ⟨Call.start, x, ?_, ?_, hx, of_decide_eq_true himpl⟩⟩
  · decide +kernel
  · decide +kernel

end Module
end CilCompiler
