import CilCompiler.Compilation
import CilCompiler.Proofs.Outcome

/-!
Where types and members are in a module. A type knows its place among the types, and a member its place among
the members of its type; so a definition is found by its type and a member by its reference. Defining a member
puts another definition in the place of one.
-/

namespace CilCompiler

/-- The number of fields an instance has among fields. -/
def Field.instances (fs : List Field) : Nat := fs.countP fun f => !f.isStatic

namespace TypeDef

/-- The definition at place `i` of module `id`, and its members, know where they are. -/
structure Shaped (id i : Nat) (d : TypeDef) : Prop where
  notArray : d.type.isArray = false
  module : d.type.module = id
  index : d.type.declared.index = i
  fields : ∀ {k : Nat} {f : Field}, d.fields[k]? = some f → f.owner = d.type ∧ f.index = k ∧
    f.slot = if f.isStatic then none else some (Field.instances (d.fields.toList.take k))
  slots : d.slots = Field.instances d.fields.toList
  ctors : ∀ {k : Nat} {x : Routine}, d.ctors[k]? = some x →
    x.method.owner = d.type ∧ x.method.isCtor = true ∧ x.method.index = k ∧ x.method.isStatic = false
  methods : ∀ {k : Nat} {x : Routine}, d.methods[k]? = some x →
    x.method.owner = d.type ∧ x.method.isCtor = false ∧ x.method.index = k

/-- The members of the definition at place `i` know their places. -/
structure Placed (i : Nat) (d : TypeDef) : Prop where
  ctors : ∀ {k : Nat} {x : Routine}, d.ctors[k]? = some x →
    x.method.owner.declared.index = i ∧ x.method.isCtor = true ∧ x.method.index = k
  methods : ∀ {k : Nat} {x : Routine}, d.methods[k]? = some x →
    x.method.owner.declared.index = i ∧ x.method.isCtor = false ∧ x.method.index = k

theorem Shaped.placed {id i : Nat} {d : TypeDef} (h : d.Shaped id i) : d.Placed i where
  ctors hx := by
    obtain ⟨ho, hc, hi, -⟩ := h.ctors hx
    exact ⟨by rw [ho, h.index], hc, hi⟩
  methods hx := by
    obtain ⟨ho, hc, hi⟩ := h.methods hx
    exact ⟨by rw [ho, h.index], hc, hi⟩

/-! What is in the lists of a definition belongs to its type. -/

section Shaped
variable {id i : Nat} {d : TypeDef} (h : d.Shaped id i)
include h

theorem Shaped.field {f : Field} (hf : f ∈ d.fields.toList) : f.owner = d.type := by
  obtain ⟨k, hk⟩ := Array.mem_iff_getElem?.mp (Array.mem_toList_iff.mp hf)
  exact (h.fields hk).1

theorem Shaped.ctor {x : Routine} (hx : x ∈ d.ctors.toList) :
    x.method.owner = d.type ∧ x.method.isCtor = true ∧ x.method.isStatic = false := by
  obtain ⟨k, hk⟩ := Array.mem_iff_getElem?.mp (Array.mem_toList_iff.mp hx)
  obtain ⟨ho, hc, -, hs⟩ := h.ctors hk
  exact ⟨ho, hc, hs⟩

theorem Shaped.method {x : Routine} (hx : x ∈ d.methods.toList) : x.method.owner = d.type ∧ x.method.isCtor = false := by
  obtain ⟨k, hk⟩ := Array.mem_iff_getElem?.mp (Array.mem_toList_iff.mp hx)
  obtain ⟨ho, hc, -⟩ := h.methods hk
  exact ⟨ho, hc⟩

/-- No constructor is static. -/
theorem Shaped.routine {x : Routine} (hx : x ∈ d.routines) :
    x.method.owner = d.type ∧ (x.method.isCtor = true → x.method.isStatic = false) := by
  rcases List.mem_append.mp hx with hx | hx
  · exact ⟨(h.ctor hx).1, fun _ => (h.ctor hx).2.2⟩
  · exact ⟨(h.method hx).1, fun hc => Bool.noConfusion ((h.method hx).2.symm.trans hc)⟩

end Shaped

theorem pairwise_method_of_index {l : List Routine} (h : ∀ {k : Nat} {y : Routine}, l[k]? = some y → y.method.index = k) :
    (l.map Routine.method).Pairwise (· ≠ ·) := by
  refine List.pairwise_iff_getElem.mpr fun i j hi hj hij he => ?_
  rw [List.length_map] at hi hj
  rw [List.getElem_map, List.getElem_map] at he
  have h1 := h (List.getElem?_eq_getElem hi)
  have h2 := h (List.getElem?_eq_getElem hj)
  rw [he, h2] at h1
  omega

/-- No two members have the same reference. -/
theorem Placed.methods_pairwise {i : Nat} {d : TypeDef} (h : d.Placed i) :
    (d.routines.map Routine.method).Pairwise (· ≠ ·) := by
  rw [routines, List.map_append]
  refine List.pairwise_append.mpr ⟨pairwise_method_of_index fun {k y} hy => ?_,
      pairwise_method_of_index fun {k y} hy => ?_, ?_⟩
  · rw [Array.getElem?_toList] at hy
    exact (h.ctors hy).2.2
  · rw [Array.getElem?_toList] at hy
    exact (h.methods hy).2.2
  · rintro r hr r' hr' rfl
    obtain ⟨y, hy, rfl⟩ := List.mem_map.mp hr
    obtain ⟨z, hz, he⟩ := List.mem_map.mp hr'
    obtain ⟨a, ha⟩ := Array.mem_iff_getElem?.mp (Array.mem_toList_iff.mp hy)
    obtain ⟨b, hb⟩ := Array.mem_iff_getElem?.mp (Array.mem_toList_iff.mp hz)
    have hc := (h.ctors ha).2.1
    rw [← he, (h.methods hb).2.1] at hc
    cases hc

/-- A member's reference says where its type is. -/
theorem Placed.owner {i : Nat} {d : TypeDef} (h : d.Placed i) {x : Routine} (hx : x ∈ d.routines) :
    x.method.owner.declared.index = i := by
  rcases List.mem_append.mp hx with hx | hx
  · obtain ⟨k, hk⟩ := Array.mem_iff_getElem?.mp (Array.mem_toList_iff.mp hx)
    exact (h.ctors hk).1
  · obtain ⟨k, hk⟩ := Array.mem_iff_getElem?.mp (Array.mem_toList_iff.mp hx)
    exact (h.methods hk).1

/-- A member is found by its reference. -/
theorem Placed.routine? {i : Nat} {d : TypeDef} (h : d.Placed i) {x : Routine} (hx : x ∈ d.routines) :
    d.routine? x.method = some x := by
  rcases List.mem_append.mp hx with hx | hx
  · obtain ⟨k, hk⟩ := Array.mem_iff_getElem?.mp (Array.mem_toList_iff.mp hx)
    obtain ⟨-, hc, hi⟩ := h.ctors hk
    rw [TypeDef.routine?, hc, hi]
    exact hk
  · obtain ⟨k, hk⟩ := Array.mem_iff_getElem?.mp (Array.mem_toList_iff.mp hx)
    obtain ⟨-, hc, hi⟩ := h.methods hk
    rw [TypeDef.routine?, hc, hi]
    exact hk

/-- Adds a constructor or a method behind the others. -/
def pushRoutine (d : TypeDef) (x : Routine) : TypeDef :=
  if x.method.isCtor then { d with ctors := d.ctors.push x } else { d with methods := d.methods.push x }

/-- The place behind the constructors or the methods. -/
def nextIndex (d : TypeDef) (isCtor : Bool) : Nat := if isCtor then d.ctors.size else d.methods.size

theorem modify_push_size {α : Type} (xs : Array α) (x : α) (f : α → α) : (xs.push x).modify xs.size f = xs.push (f x) := by
  apply Array.ext_getElem?
  intro i
  rw [Array.getElem?_modify, Array.getElem?_push, Array.getElem?_push]
  by_cases h : xs.size = i
  · simp [h]
  · rw [if_neg h, if_neg (Ne.symm h), if_neg (Ne.symm h)]

/-- What is done to the member added last. -/
theorem modifyRoutine_pushRoutine (d : TypeDef) {x : Routine} {f : Routine → Routine} (hf : (f x).method = x.method)
    (hx : x.method.index = d.nextIndex x.method.isCtor) :
    (d.pushRoutine x).modifyRoutine x.method f = d.pushRoutine (f x) := by
  unfold pushRoutine modifyRoutine nextIndex at *
  rw [hf]
  cases hc : x.method.isCtor with
  | true =>
    simp only [hc, if_true] at hx ⊢
    rw [hx, modify_push_size]
  | false =>
    simp only [hc, Bool.false_eq_true, if_false] at hx ⊢
    rw [hx, modify_push_size]

theorem type_pushRoutine (d : TypeDef) (x : Routine) : (d.pushRoutine x).type = d.type := by
  unfold pushRoutine
  split <;> rfl

theorem type_modifyRoutine (d : TypeDef) (r : Method) (f : Routine → Routine) : (d.modifyRoutine r f).type = d.type := by
  unfold modifyRoutine
  split <;> rfl

end TypeDef

namespace Module

/-- All definitions know where they are. -/
def Shaped (m : Module) : Prop := ∀ {i : Nat} {d : TypeDef}, m.types[i]? = some d → d.Shaped m.id i

/-- Another definition at a place. -/
def put (m : Module) (i : Nat) (d : TypeDef) : Module := { m with types := m.types.setIfInBounds i d }

variable {m m' : Module} {i : Nat} {d : TypeDef}

theorem types_put (hi : i < m.types.size) (d : TypeDef) (j : Nat) :
    (m.put i d).types[j]? = if i = j then some d else m.types[j]? := by
  show (m.types.setIfInBounds i d)[j]? = _
  rw [Array.getElem?_setIfInBounds]
  by_cases h : i = j
  · rw [if_pos h, if_pos h, if_pos hi]
  · rw [if_neg h, if_neg h]

theorem size_put (m : Module) (i : Nat) (d : TypeDef) : (m.put i d).types.size = m.types.size := by simp [put]

theorem put_put (m : Module) (i : Nat) (d d' : TypeDef) : (m.put i d).put i d' = m.put i d' := by
  simp [put, Array.setIfInBounds_setIfInBounds]

theorem put_self (hd : m.types[i]? = some d) : m.put i d = m := by
  obtain ⟨hi, rfl⟩ := Array.getElem?_eq_some_iff.mp hd
  have hset : m.types.setIfInBounds i m.types[i] = m.types := by
    apply Array.ext_getElem?
    intro j
    rw [Array.getElem?_setIfInBounds]
    by_cases h : i = j
    · subst h
      rw [if_pos rfl, if_pos hi, hd]
    · rw [if_neg h]
  rw [put, hset]

/-- A name finds the same type where definitions are replaced by others of the same type. -/
theorem type?_put {d' : TypeDef} (hd : m.types[i]? = some d) (ht : d'.type = d.type) (name : Text) :
    (m.put i d').type? name = m.type? name := by
  obtain ⟨hlt, rfl⟩ := Array.getElem?_eq_some_iff.mp hd
  have types : (m.types.setIfInBounds i d').toList.map TypeDef.type = m.types.toList.map TypeDef.type := by
    apply List.ext_getElem?
    intro j
    rw [List.getElem?_map, List.getElem?_map, Array.getElem?_toList, Array.getElem?_toList, Array.getElem?_setIfInBounds]
    by_cases h : i = j
    · subst h
      rw [if_pos rfl, if_pos hlt, hd, Option.map_some, Option.map_some, ht]
    · rw [if_neg h]
  have find : ∀ l : List TypeDef, (l.find? fun d => d.type.name = name).map TypeDef.type =
      (l.map TypeDef.type).find? fun t => t.name = name := by
    intro l
    rw [List.find?_map]
    rfl
  unfold type? put
  rw [← Array.find?_toList, ← Array.find?_toList, find, find, types]

theorem modifyDef_eq_put {t : Ty} (hd : m.types[i]? = some d) (hi : t.declared.index = i) (f : TypeDef → TypeDef) :
    m.modifyDef t f = m.put i (f d) := by
  obtain ⟨hlt, hget⟩ := Array.getElem?_eq_some_iff.mp hd
  unfold modifyDef put
  congr 1
  apply Array.ext_getElem?
  intro j
  rw [hi, Array.getElem?_modify, Array.getElem?_setIfInBounds]
  by_cases h : i = j
  · subst h
    rw [if_pos rfl, if_pos rfl, if_pos hlt, hd]
    rfl
  · rw [if_neg h, if_neg h]

/-- A definition that is found stands where its type says. -/
theorem def?_some {t : Ty} (h : m.def? t = some d) :
    m.types[t.declared.index]? = some d ∧ t.isArray = false ∧ t.module = m.id := by
  have cases : ∀ {j : Nat}, (if t.module = m.id then m.types[j]? else none) = some d → m.types[j]? = some d ∧
      t.module = m.id := by
    intro j hj
    split at hj
    · exact ⟨hj, ‹_›⟩
    · cases hj
  cases t with
  | array e => cases h
  | root x => exact ⟨(cases h).1, rfl, (cases h).2⟩
  | derived x b => exact ⟨(cases h).1, rfl, (cases h).2⟩

/-! ### Changing a definition -/

theorem type?_eq (m : Module) (n : Text) : m.type? n = (m.types.map TypeDef.type).find? fun t => t.name = n := by
  rw [Array.find?_map]
  rfl

theorem type?_modifyDef (m : Module) (t : Ty) {f : TypeDef → TypeDef} (hf : ∀ d, (f d).type = d.type) (n : Text) :
    (m.modifyDef t f).type? n = m.type? n := by
  have hkept : (m.modifyDef t f).types.map TypeDef.type = m.types.map TypeDef.type := by
    apply Array.ext_getElem?
    intro j
    simp only [modifyDef, Array.getElem?_map, Array.getElem?_modify]
    split <;> cases m.types[j]? <;> simp [hf]
  rw [type?_eq, type?_eq, hkept]

theorem def?_eq {m : Module} {t : Ty} (ha : t.isArray = false) :
    m.def? t = if t.module = m.id then m.types[t.declared.index]? else none := by
  cases t with
  | array e => cases ha
  | root d => rfl
  | derived d b => rfl

theorem def?_of_isArray {m : Module} {t : Ty} (ha : t.isArray = true) : m.def? t = none := by
  cases t with
  | array e => rfl
  | root d => cases ha
  | derived d b => cases ha

/-- A type that is defined stands behind the others. -/
theorem defineType_ok {m m' : Module} {name : Text} {attrs : TypeAttributes} {base : Option Ty} {t : Ty}
    (h : m.defineType name attrs base = .ok (t, m')) :
    t.name = name ∧ t.isValue = false ∧ t.base? = base ∧ t.isArray = false ∧ t.module = m.id ∧
      t.declared.index = m.types.size ∧ m' = { m with types := m.types.push { type := t, attrs } } := by
  unfold Module.defineType at h
  split at h
  · cases h
  · cases base <;> cases h <;> exact ⟨rfl, rfl, rfl, rfl, rfl, rfl, rfl⟩

/-- A type that is defined is open, and so are those that were. -/
theorem defineType_open {m m' : Module} {name : Text} {attrs : TypeAttributes} {base : Option Ty} {t : Ty}
    (h : m.defineType name attrs base = .ok (t, m')) :
    m'.isCreated t = false ∧ ∀ {u : Ty}, m.isCreated u = false → m'.isCreated u = false := by
  obtain ⟨-, -, -, harray, hm, hi, rfl⟩ := defineType_ok h
  refine ⟨?_, fun {u} hu => ?_⟩
  · rw [isCreated, def?_eq harray, if_pos hm, hi]
    simp
  · rw [isCreated] at hu ⊢
    split at hu
    · rename_i d hd
      obtain ⟨hat, hua, hum⟩ := def?_some hd
      have hlt := (Array.getElem?_eq_some_iff.mp hat).1
      rw [def?_eq hua, if_pos hum, Array.getElem?_push, if_neg (by omega), hat]
      exact hu
    · cases hu

/-- A definition is changed for all types that stand at its place. -/
theorem def?_modifyDef_of (m : Module) {t u : Ty} (hu : u.isArray = false) (f : TypeDef → TypeDef) :
    (m.modifyDef t f).def? u = if t.declared.index = u.declared.index then (m.def? u).map f else m.def? u := by
  rw [def?_eq hu, def?_eq hu]
  show (if u.module = m.id then (m.types.modify t.declared.index f)[u.declared.index]? else none) = _
  by_cases hm : u.module = m.id
  · rw [if_pos hm, if_pos hm, Array.getElem?_modify]
  · rw [if_neg hm, if_neg hm, Option.map_none, ite_self]

theorem def?_modifyDef (m : Module) {t : Ty} (ha : t.isArray = false) (f : TypeDef → TypeDef) :
    (m.modifyDef t f).def? t = (m.def? t).map f := by
  rw [def?_modifyDef_of m ha f, if_pos rfl]

namespace Shaped

theorem def? (h : m.Shaped) (hd : m.types[i]? = some d) : m.def? d.type = some d := by
  have hs := h hd
  have hne : m.def? d.type = if d.type.module = m.id then m.types[d.type.declared.index]? else none := by
    have := hs.notArray
    unfold Module.def?
    cases ht : d.type with
    | array e =>
      rw [ht] at this
      cases this
    | root x => rfl
    | derived x b => rfl
  rw [hne, if_pos hs.module, hs.index, hd]

theorem put (h : m.Shaped) (hd : d.Shaped m.id i) : (m.put i d).Shaped := by
  intro j e hj
  have he : (m.types.setIfInBounds i d)[j]? = some e := hj
  clear hj
  rw [Array.getElem?_setIfInBounds] at he
  split at he
  · rename_i hj
    subst hj
    split at he
    · cases he
      exact hd
    · cases he
  · exact h he

/-- A member is found by its reference. -/
theorem routine? (h : m.Shaped) (hd : m.types[i]? = some d) {x : Routine} (hx : x ∈ d.routines) :
    m.routine? x.method = some x := by
  rw [Module.routine?, ((h hd).routine hx).1, h.def? hd]
  exact (h hd).placed.routine? hx

end Shaped

/-! ### Defining members -/

theorem open?_ok {t : Ty} {what : Text} (h : m.open? t what = .ok d) : m.def? t = some d ∧ d.isCreated = false := by
  unfold open? at h
  split at h
  · rename_i e he
    split at h
    · cases h
    · rename_i hc
      cases h
      exact ⟨he, by simpa using hc⟩
  · cases h

theorem defineField_ok (hm : m.Shaped) (hd : m.types[i]? = some d) {name : Text} {type : Option Ty}
    {attrs : FieldAttributes} {f : Field} (h : m.defineField d.type name type attrs = .ok (f, m')) :
    f = { owner := d.type, index := d.fields.size, name, type, attrs,
          slot := if attrs.isStatic then none else some d.slots } ∧
      m' = m.put i { d with fields := d.fields.push f, slots := if attrs.isStatic then d.slots else d.slots + 1 } := by
  obtain ⟨e, he, h⟩ := bind_eq_ok.mp h
  obtain ⟨hdef, -⟩ := open?_ok he
  rw [hm.def? hd] at hdef
  cases hdef
  cases h
  exact ⟨rfl, modifyDef_eq_put hd (hm hd).index _⟩

/-- A method or a constructor has been defined: it stands behind the others, and its parameters have no names. -/
theorem defineMethod_ok (hm : m.Shaped) (hd : m.types[i]? = some d) {name : Text} {attrs : MethodAttributes}
    {ret : Option Ty} {params : List (Option Ty)} {r : Method}
    (h : m.defineMethod d.type name attrs ret params = .ok (r, m')) :
    r = { owner := d.type, isCtor := false, index := d.methods.size, name, attrs, params, ret } ∧
      ∃ ns, m' = m.put i (d.pushRoutine { method := r, paramNames := ns }) := by
  obtain ⟨e, he, h⟩ := bind_eq_ok.mp h
  obtain ⟨hdef, -⟩ := open?_ok he
  rw [hm.def? hd] at hdef
  cases hdef
  cases h
  exact ⟨rfl, _, modifyDef_eq_put hd (hm hd).index _⟩

theorem defineConstructor_ok (hm : m.Shaped) (hd : m.types[i]? = some d) {attrs : MethodAttributes}
    {params : List (Option Ty)} {r : Method} (h : m.defineConstructor d.type attrs params = .ok (r, m')) :
    r = { owner := d.type, isCtor := true, index := d.ctors.size, name := Method.ctorName,
          attrs := attrs.forConstructor, params, ret := m.type? TypeName.void } ∧
      ∃ ns, m' = m.put i (d.pushRoutine { method := r, paramNames := ns }) := by
  obtain ⟨e, he, h⟩ := bind_eq_ok.mp h
  obtain ⟨hdef, -⟩ := open?_ok he
  rw [hm.def? hd] at hdef
  cases hdef
  cases h
  exact ⟨rfl, _, modifyDef_eq_put hd (hm hd).index _⟩

section Last
variable {x : Routine} (hd : m.types[i]? = some d) (hi : d.type.declared.index = i) (ho : x.method.owner = d.type)
  (hx : x.method.index = d.nextIndex x.method.isCtor)
include hd hi ho hx

/-- What is done to the member that was added last to the definition at a place. -/
theorem modifyRoutine_put {f : Routine → Routine} (hf : (f x).method = x.method) :
    (m.put i (d.pushRoutine x)).modifyRoutine x.method f = m.put i (d.pushRoutine (f x)) := by
  have hlt := (Array.getElem?_eq_some_iff.mp hd).1
  have ht := d.type_pushRoutine x
  have hget : (m.put i (d.pushRoutine x)).types[i]? = some (d.pushRoutine x) := by rw [types_put hlt, if_pos rfl]
  rw [modifyRoutine, ho, ← ht, modifyDef_eq_put hget (by rw [ht]; exact hi), TypeDef.modifyRoutine_pushRoutine d hf hx,
    put_put]

theorem nameParams_put {position : Nat} {ns : List Text}
    (h : Compilation.nameParams (m.put i (d.pushRoutine x)) x.method position ns = .ok m') :
    ∃ names, m' = m.put i (d.pushRoutine { x with paramNames := names }) := by
  induction ns generalizing x position with
  | nil =>
    cases h
    exact ⟨x.paramNames, rfl⟩
  | cons n ns ih =>
    obtain ⟨m₁, h1, h2⟩ := bind_eq_ok.mp h
    unfold defineParameter at h1
    split at h1
    · cases h1
    · injection h1 with h1
      rw [modifyRoutine_put hd hi ho hx rfl] at h1
      subst h1
      exact ih (x := { x with paramNames := x.paramNames.set (position - 1 : Int).toNat n }) ho hx h2

theorem setImplementation_put {impl : Implementation}
    (h : (m.put i (d.pushRoutine x)).setImplementation x.method impl = .ok m') :
    m' = m.put i (d.pushRoutine { x with impl }) := by
  obtain ⟨e, -, h⟩ := bind_eq_ok.mp h
  injection h with h
  rw [modifyRoutine_put hd hi ho hx rfl] at h
  exact h.symm

end Last

end Module
end CilCompiler
