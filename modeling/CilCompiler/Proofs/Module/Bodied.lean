import CilCompiler.Proofs.Module

/-! Modules whose bodies are all of a kind, such as those in which nothing has been recorded. Members are defined
    without a body, so whatever holds of an empty body holds of all bodies until the first one is recorded. -/

namespace CilCompiler

/-- The definition at place `i`: its members know their places, and their bodies are of a kind. -/
structure TypeDef.Bodied (Q : Draft → Prop) (i : Nat) (d : TypeDef) : Prop where
  placed : d.Placed i
  bodies : ∀ x ∈ d.routines, Q x.draft

/-- The bodies of all members are of a kind. -/
structure Module.Bodied (Q : Draft → Prop) (m : Module) : Prop where
  types : ∀ {i : Nat} {d : TypeDef}, m.types[i]? = some d → d.Bodied Q i

variable {Q : Draft → Prop} {m m' : Module} {d : TypeDef} {i : Nat}

/-! ### Definitions -/

namespace TypeDef

theorem mem_routines_iff {x : Routine} : x ∈ d.routines ↔ x ∈ d.ctors ∨ x ∈ d.methods := by
  simp [routines]

theorem bodied_blank (t : Ty) (attrs : TypeAttributes) (i : Nat) : ({ type := t, attrs } : TypeDef).Bodied Q i where
  placed := ⟨fun h => by simp at h, fun h => by simp at h⟩
  bodies x hx := by simp [routines] at hx

theorem Bodied.withFields (h : d.Bodied Q i) (fields : Array Field) (slots : Nat) : ({ d with fields, slots }).Bodied Q i :=
  ⟨⟨h.placed.ctors, h.placed.methods⟩, h.bodies⟩

theorem Bodied.withCreated (h : d.Bodied Q i) (isCreated : Bool) : ({ d with isCreated }).Bodied Q i :=
  ⟨⟨h.placed.ctors, h.placed.methods⟩, h.bodies⟩

theorem Bodied.pushCtor (h : d.Bodied Q i) {x : Routine} (ho : x.method.owner.declared.index = i)
    (hc : x.method.isCtor = true)
    (hi : x.method.index = d.ctors.size) (hx : Q x.draft) : ({ d with ctors := d.ctors.push x }).Bodied Q i where
  placed := by
    refine ⟨fun {k y} hy => ?_, h.placed.methods⟩
    rw [Array.getElem?_push] at hy
    split at hy
    · cases hy
      exact ⟨ho, hc, by rw [hi]; omega⟩
    · exact h.placed.ctors hy
  bodies y hy := by
    rcases mem_routines_iff.mp hy with hy | hy
    · rcases Array.mem_push.mp hy with hy | rfl
      · exact h.bodies y (mem_routines_iff.mpr (.inl hy))
      · exact hx
    · exact h.bodies y (mem_routines_iff.mpr (.inr hy))

theorem Bodied.pushMethod (h : d.Bodied Q i) {x : Routine} (ho : x.method.owner.declared.index = i)
    (hc : x.method.isCtor = false)
    (hi : x.method.index = d.methods.size) (hx : Q x.draft) : ({ d with methods := d.methods.push x }).Bodied Q i where
  placed := by
    refine ⟨h.placed.ctors, fun {k y} hy => ?_⟩
    rw [Array.getElem?_push] at hy
    split at hy
    · cases hy
      exact ⟨ho, hc, by rw [hi]; omega⟩
    · exact h.placed.methods hy
  bodies y hy := by
    rcases mem_routines_iff.mp hy with hy | hy
    · exact h.bodies y (mem_routines_iff.mpr (.inl hy))
    · rcases Array.mem_push.mp hy with hy | rfl
      · exact h.bodies y (mem_routines_iff.mpr (.inr hy))
      · exact hx

theorem isCreated_modifyRoutine (d : TypeDef) (r : Method) (f : Routine → Routine) :
    (d.modifyRoutine r f).isCreated = d.isCreated := by
  unfold modifyRoutine
  split <;> rfl

/-- Each member keeps its reference, and its body stays of the kind. -/
theorem Bodied.modifyRoutine (h : d.Bodied Q i) {r : Method} {f : Routine → Routine} (hm : ∀ x, (f x).method = x.method)
    (hf : ∀ x, Q x.draft → Q (f x).draft) : (d.modifyRoutine r f).Bodied Q i := by
  have kept : ∀ {xs : Array Routine} {n k : Nat} {y : Routine}, (xs.modify n f)[k]? = some y →
      ∃ x, xs[k]? = some x ∧ y.method = x.method ∧ (Q x.draft → Q y.draft) := by
    intro xs n k y hy
    rw [Array.getElem?_modify] at hy
    split at hy
    · obtain ⟨x, hx, rfl⟩ := Option.map_eq_some_iff.mp hy
      exact ⟨x, hx, hm x, hf x⟩
    · exact ⟨y, hy, rfl, fun h => h⟩
  unfold TypeDef.modifyRoutine
  split
  · refine ⟨⟨fun {k y} hy => ?_, h.placed.methods⟩, fun y hy => ?_⟩
    · obtain ⟨x, hx, he, -⟩ := kept hy
      rw [he]
      exact h.placed.ctors hx
    · rcases mem_routines_iff.mp hy with hy | hy
      · obtain ⟨k, hk⟩ := Array.mem_iff_getElem?.mp hy
        obtain ⟨x, hx, -, he⟩ := kept hk
        exact he (h.bodies x (mem_routines_iff.mpr (.inl (Array.mem_of_getElem? hx))))
      · exact h.bodies y (mem_routines_iff.mpr (.inr hy))
  · refine ⟨⟨h.placed.ctors, fun {k y} hy => ?_⟩, fun y hy => ?_⟩
    · obtain ⟨x, hx, he, -⟩ := kept hy
      rw [he]
      exact h.placed.methods hx
    · rcases mem_routines_iff.mp hy with hy | hy
      · exact h.bodies y (mem_routines_iff.mpr (.inl hy))
      · obtain ⟨k, hk⟩ := Array.mem_iff_getElem?.mp hy
        obtain ⟨x, hx, -, he⟩ := kept hk
        exact he (h.bodies x (mem_routines_iff.mpr (.inr (Array.mem_of_getElem? hx))))

end TypeDef

/-! ### Modules -/

namespace Module

theorem Bodied.of_types (h : m.Bodied Q) (ht : m'.types = m.types) : m'.Bodied Q where
  types hd := h.types (by rw [← ht]; exact hd)

theorem Bodied.modifyDef (h : m.Bodied Q) {t : Ty} {f : TypeDef → TypeDef}
    (hf : ∀ {d}, m.types[t.declared.index]? = some d → d.Bodied Q t.declared.index → (f d).Bodied Q t.declared.index) :
    (m.modifyDef t f).Bodied Q where
  types {i d} hd := by
    simp only [Module.modifyDef, Array.getElem?_modify] at hd
    split at hd
    · rename_i hi
      subst hi
      obtain ⟨e, he, rfl⟩ := Option.map_eq_some_iff.mp hd
      exact hf he (h.types he)
    · exact h.types hd

theorem Bodied.modifyRoutine (h : m.Bodied Q) {r : Method} {f : Routine → Routine} (hm : ∀ x, (f x).method = x.method)
    (hf : ∀ x, Q x.draft → Q (f x).draft) : (m.modifyRoutine r f).Bodied Q :=
  h.modifyDef fun _ hd => hd.modifyRoutine hm hf

theorem Bodied.defineType (h : m.Bodied Q) {name : Text} {attrs : TypeAttributes} {base : Option Ty} {t : Ty}
    (hd : m.defineType name attrs base = .ok (t, m')) : m'.Bodied Q := by
  unfold Module.defineType at hd
  split at hd
  · cases hd
  · cases hd
    constructor
    intro i d hd
    rw [Array.getElem?_push] at hd
    split at hd
    · cases hd
      exact TypeDef.bodied_blank _ _ _
    · exact h.types hd

theorem Bodied.defineField (h : m.Bodied Q) {t : Ty} {name : Text} {type : Option Ty} {attrs : FieldAttributes} {f : Field}
    (hf : m.defineField t name type attrs = .ok (f, m')) : m'.Bodied Q := by
  obtain ⟨d, -, hf⟩ := bind_eq_ok.mp hf
  cases hf
  exact h.modifyDef fun _ hd => hd.withFields _ _

theorem Bodied.defineMethod (hQ : Q {}) (h : m.Bodied Q) {t : Ty} {name : Text} {attrs : MethodAttributes} {ret : Option Ty}
    {params : List (Option Ty)} {r : Method} (hr : m.defineMethod t name attrs ret params = .ok (r, m')) : m'.Bodied Q := by
  obtain ⟨d, hopen, hr⟩ := bind_eq_ok.mp hr
  cases hr
  refine h.modifyDef fun {e} he hb => hb.pushMethod rfl rfl ?_ hQ
  rw [(def?_some (open?_ok hopen).1).1] at he
  cases he
  rfl

theorem Bodied.defineConstructor (hQ : Q {}) (h : m.Bodied Q) {t : Ty} {attrs : MethodAttributes}
    {params : List (Option Ty)}
    {r : Method} (hr : m.defineConstructor t attrs params = .ok (r, m')) : m'.Bodied Q := by
  obtain ⟨d, hopen, hr⟩ := bind_eq_ok.mp hr
  cases hr
  refine h.modifyDef fun {e} he hb => hb.pushCtor rfl rfl ?_ hQ
  rw [(def?_some (open?_ok hopen).1).1] at he
  cases he
  rfl

theorem Bodied.defineParameter (h : m.Bodied Q) {r : Method} {position : Int} {name : Text}
    (hp : m.defineParameter r position name = .ok m') : m'.Bodied Q := by
  unfold Module.defineParameter at hp
  split at hp
  · cases hp
  · cases hp
    exact h.modifyRoutine (fun _ => rfl) fun _ hx => hx

theorem Bodied.setImplementation (h : m.Bodied Q) {r : Method} {impl : Implementation}
    (hi : m.setImplementation r impl = .ok m') : m'.Bodied Q := by
  obtain ⟨d, -, hi⟩ := bind_eq_ok.mp hi
  cases hi
  exact h.modifyRoutine (fun _ => rfl) fun _ hx => hx

theorem typesFrom_index {module : Nat} {assembly : Text} {es : List Host.TypeEntry} {done : List Ty}
    (h : ∀ {i : Nat} {t : Ty}, done[i]? = some t → t.declared.index = i) {i : Nat} {t : Ty}
    (ht : (Host.typesFrom module assembly done es)[i]? = some t) : t.declared.index = i := by
  induction es generalizing done with
  | nil => exact h ht
  | cons e es ih =>
    refine ih (fun {j u} hu => ?_) ht
    rw [List.getElem?_append] at hu
    split at hu
    · exact h hu
    · obtain ⟨hj, hu⟩ := List.getElem?_eq_some_iff.mp hu
      rw [List.length_singleton] at hj
      rw [← hu, List.getElem_singleton]
      split
      all_goals
        show done.length = j
        omega

/-- The members of the catalog know their places and have no bodies. -/
theorem bodied_new (hQ : Q {}) (id : Nat) (backend : Backend) (name runtime : Text) :
    (Module.new id backend name runtime).Bodied Q := by
  constructor
  intro i d hd
  simp only [Module.new, List.getElem?_toArray, List.getElem?_map, Option.map_eq_some_iff] at hd
  obtain ⟨⟨t, e⟩, hte, rfl⟩ := hd
  obtain ⟨ht, -⟩ := List.getElem?_zip_eq_some.mp hte
  have hindex : t.declared.index = i := typesFrom_index (fun h => by simp at h) ht
  refine ⟨⟨fun {k x} hx => ?_, fun {k x} hx => ?_⟩, fun x hx => ?_⟩
  · simp only [TypeDef.ofEntry, List.getElem?_toArray, List.getElem?_map, List.getElem?_zipIdx, Option.map_map,
      Option.map_eq_some_iff] at hx
    obtain ⟨c, -, rfl⟩ := hx
    exact ⟨hindex, rfl, by simp⟩
  · simp only [TypeDef.ofEntry, List.getElem?_toArray, List.getElem?_map, List.getElem?_zipIdx, Option.map_map,
      Option.map_eq_some_iff] at hx
    obtain ⟨c, -, rfl⟩ := hx
    exact ⟨hindex, rfl, by simp⟩
  · rcases TypeDef.mem_routines_iff.mp hx with hx | hx
    all_goals
      obtain ⟨c, -, rfl⟩ := List.mem_map.mp (List.mem_toArray.mp hx)
      exact hQ

end Module
end CilCompiler
