import CilCompiler.Proofs.Lowering.Doubled
import CilCompiler.Proofs.Machine.Cells
import CilCompiler.Proofs.Machine.Delegates
import CilCompiler.Proofs.Typed.Balance

/-! Typed heaps. A machine is looked at with the types that its values may have and the members that these have
    (`Platform`). Types are told apart by the form under which they are entered (`Ty.key`, `Heap.Belongs`): a declared
    type may have the name of an array type, and then values of the two are taken for each other. A store typing gives
    the key of a type for every cell, and it only grows. In a typed heap cells, static fields, elements and fields
    hold values of their types, boxes hold numbers or pointers, and a delegate is bound to a method of its signature
    that the machine provides (`Platform.Typed`). What code does to a heap leaves it typed, and what was known of its
    values stays true (`Platform.Later`). -/

namespace CilCompiler

/-- The form under which a type is entered, by which it is told from others. -/
def Ty.key (t : Ty) : Text := Symbols.key t.name

/-- A value belongs to the types of a key. -/
inductive Heap.Belongs (h : Heap) : Value → Text → Prop
  | number {v n} : n = TypeName.int32 ∨ n = TypeName.boolean → h.Belongs (.int v) n
  | pointer {m} : h.Belongs (.func m) TypeName.intPtr
  | string {s} : h.Belongs (.str s) TypeName.string
  | null {n} : TypeName.isReference n = true ∨ n = TypeName.string → h.Belongs .null n
  | object {id o} : h.objects[id]? = some o → o.boxed = none → TypeName.isReference o.type.key = true →
      h.Belongs (.obj id) o.type.key
  | array {id a} : h.arrays[id]? = some a → h.Belongs (.arr id) (TypeName.array a.elem.key)

/-- What a location of a type holds at first is of the type. -/
def Ty.Starts (t : Ty) : Prop := ∀ h : Heap, h.Belongs (.zero (some t)) t.key

/-- A machine, the types that its values may have, and the members of these types. -/
structure Platform where
  machine : Machine
  Admits : Ty → Prop
  symbols : Symbols
  /-- The root of all types. -/
  object : Ty
  /-- What is said of the faults of runs: where it holds, no declared type has the name of an array, and calls are
      made on objects only. -/
  plain : Prop

/-! ### Methods -/

/-- Whether a member of the catalog has the signature of what it does. The constructors of builders do not count, as
    they are called on objects that are no builders yet. -/
def Native.suits (n : Native) (r : Method) : Bool :=
  let takes (k : Nat) := r.params.length = k
  let gives (name : Text) := r.ret.any fun t => t.name = name
  let of (name : Text) := !r.isStatic && !r.owner.isValue && r.owner.name = name
  match n with
  | .constructObject => !r.isStatic && takes 0 && gives TypeName.void
  | .objectText | .boolText => !r.isStatic && takes 0 && gives TypeName.string
  | .objectEquals => !r.isStatic && takes 1 && gives TypeName.boolean
  | .objectHash => !r.isStatic && takes 0 && gives TypeName.int32
  | .intCompare => !r.isStatic && takes 1 && gives TypeName.int32
  | .intParse => r.isStatic && takes 1 && gives TypeName.int32
  | .pointerNumber => !r.isStatic && takes 0 && gives TypeName.int32
  | .stringLength => of TypeName.string && takes 0 && gives TypeName.int32
  | .stringPart => of TypeName.string && takes 2 && gives TypeName.string
  | .stringUpper => of TypeName.string && takes 0 && gives TypeName.string
  | .stringContains =>
    of TypeName.string && gives TypeName.boolean && match r.params with
      | [some t] => t.name = TypeName.string
      | _ => false
  | .stringConcat => r.isStatic && takes 2 && gives TypeName.string
  | .stringEquals => r.isStatic && takes 2 && gives TypeName.boolean
  | .write hasArgument _ _ => r.isStatic && takes (if hasArgument then 1 else 0) && gives TypeName.void
  | .readLine => r.isStatic && takes 0 && gives TypeName.string
  | .max | .min => r.isStatic && takes 2 && gives TypeName.int32
  | .abs => r.isStatic && takes 1 && gives TypeName.int32
  | .constructBuilder => false
  | .builderAppend => of TypeName.stringBuilder && takes 1 && gives TypeName.stringBuilder
  | .builderLength => of TypeName.stringBuilder && takes 0 && gives TypeName.int32

/-- What a method returns: where it returns something, a value of the type. -/
def Heap.Returns (h : Heap) (ret : Option Ty) (v : Value) : Prop := ∀ t, ret = some t → t.isVoid = false → h.Belongs v t.key

/-- Arguments of parameters. -/
def Heap.Takes (h : Heap) (args : List Value) (params : List (Option Ty)) : Prop :=
  List.Forall₂ (fun v p => ∃ t, p = some t ∧ h.Belongs v t.key) args params

namespace Platform

/-- A value can be the receiver of a method. Members of objects and of value types can be called on everything. -/
structure Receives (P : Platform) (h : Heap) (r : Method) (v : Value) : Prop where
  notNull : P.plain → v ≠ .null
  type : r.owner.isValue = true ∨ r.owner.name = TypeName.object ∨ h.Belongs v r.owner.key

/-- The receivers of a call: none of a static method. -/
def Receivers (P : Platform) (h : Heap) (r : Method) (recv : List Value) : Prop :=
  if r.isStatic then recv = [] else ∃ v, recv = [v] ∧ P.Receives h r v

/-- A body is the code of a method that has been lowered and typed. -/
structure Runs (P : Platform) (r : Method) (b : Body) (Γ : Setting) (d : Draft) : Prop where
  ok : Γ.Ok
  admits : Γ.Admits = P.Admits
  symbols : Γ.symbols = P.symbols
  object : Γ.scope.roles.object = P.object
  complete : Γ.Complete d
  doubles : d.Doubles
  resolves : d.ResolvesTo b.code
  locals : b.locals = d.locals
  starts : ∀ t ∈ d.locals.toList, t.Starts
  ret : r.ret = some Γ.scope.ret
  args : Γ.scope.args.map some = (if r.isStatic then [] else [some r.owner]) ++ r.params

/-- The machine can run a method: the catalog has it, it is compiled, or it calls a delegate. -/
inductive Provides (P : Platform) : Method → Prop
  | native {r x n} : P.machine.routine? r = some x → x.native = some n → n.suits r = true → Provides P r
  | code {r x b Γ d} : P.machine.routine? r = some x → x.native = none → x.impl ≠ .runtime → x.body = some b →
      r.owner.isValue = false → r.owner.name ≠ TypeName.object → P.Runs r b Γ d → Provides P r
  | invoke {r x D} : P.machine.routine? r = some x → x.native = none → x.impl = .runtime → r.name = Method.invokeName →
      r.isStatic = false → r.owner.isValue = false → r.owner.name ≠ TypeName.object →
        TypeName.isReference r.owner.key = true →
      (P.plain → ∀ e : Ty, r.owner.key ≠ (Ty.array e).key) → P.symbols.delegate? (some r.owner) = some D →
        r.params = D.params →
      r.ret = D.ret → Provides P r

/-! ### Heaps -/

/-- The fields of an instance of a type are in cells of their types, from a first cell on. `ts` are the keys of the
    types of cells. -/
def Fields (P : Platform) (ts : List Text) (t : Ty) (first count : Nat) : Prop :=
  ∀ {f : Field}, f ∈ P.symbols.fieldsOf t → f.isStatic = false →
    ∃ slot u, f.slot = some slot ∧ slot < count ∧ f.type = some u ∧ ts[first + slot]? = some u.key

/-- Instances of a definition get a cell for each of their fields, in order. -/
structure Lays (P : Platform) (d : TypeDef) : Prop where
  type : ∀ f ∈ d.fields.toList, ∃ t, f.type = some t ∧ t.Starts
  slot : ∀ {f : Field}, f ∈ P.symbols.fieldsOf d.type → f.isStatic = false →
    ∃ slot, f.slot = some slot ∧ slot < d.slots ∧ (d.fields.toList.filter fun g => !g.isStatic)[slot]? = some f

/-- An object is what its type says. -/
structure Instance (P : Platform) (ts : List Text) (h : Heap) (o : Obj) : Prop where
  admits : P.Admits o.type
  notArray : o.type.isArray = false
  fields : P.Fields ts o.type o.first o.count
  box : ∀ {v : Value}, o.boxed = some v → o.type.isValue = true ∧ ((∃ n, v = .int n) ∨ ∃ q, v = .func q)
  object : o.boxed = none → TypeName.isReference o.type.key = true
  delegate : ∀ {D : Delegate}, P.symbols.delegate? (some o.type) = some D → ∃ r, o.method = some r ∧ P.Provides r ∧
    P.Receivers h r (if r.isStatic then [] else [o.target]) ∧ Ty.sameList r.params D.params = true ∧
      Ty.same r.ret D.ret = true
  builder : P.plain → o.type.key = TypeName.stringBuilder → o.buffer ≠ none

/-- The elements of an array are in cells of its element type. -/
structure Row (P : Platform) (ts : List Text) (a : Arr) : Prop where
  admits : P.Admits (.array a.elem)
  element : ∀ {i : Nat}, i < a.count → ts[a.first + i]? = some a.elem.key

/-- What a static field holds is of its type. -/
def Stored (h : Heap) (x : Field × Value) : Prop := ∃ t, x.1.type = some t ∧ h.Belongs x.2 t.key

/-- Everything in a heap is of the type of its place; `ts` are the keys of the types of cells. -/
structure Typed (P : Platform) (ts : List Text) (h : Heap) : Prop where
  size : ts.length = h.cells.size
  cell : ∀ {c : Nat} {n : Text} {v : Value}, ts[c]? = some n → h.cells[c]? = some v → h.Belongs v n
  statics : ∀ x ∈ h.statics, Stored h x
  array : ∀ {id : Nat} {a : Arr}, h.arrays[id]? = some a → P.Row ts a
  object : ∀ {id : Nat} {o : Obj}, h.objects[id]? = some o → P.Instance ts h o

/-- A heap has become another, and is typed: cells, objects and arrays have been added. -/
structure Later (P : Platform) (ts : List Text) (h : Heap) (ts' : List Text) (h' : Heap) : Prop where
  cells : ts <+: ts'
  keeps : h.Keeps h'
  typed : P.Typed ts' h'

end Platform

/-! ### Keys -/

theorem TypeName.isReference_array (n : Text) : isReference (array n) = true := by
  simp [isReference, array_ne (show int32.endsWith arrayEnding = false by decide),
    array_ne (show boolean.endsWith arrayEnding = false by decide),
      array_ne (show intPtr.endsWith arrayEnding = false by decide),
    array_ne (show string.endsWith arrayEnding = false by decide)]

namespace Ty
variable {t u : Ty} {n : Text}

theorem key_of_name (h : t.name = u.name) : t.key = u.key := congrArg Symbols.key h

/-- Names of the catalog are entered as they are. -/
theorem key_host (h : t.name = n)
    (hn : n ∈ [TypeName.int32, TypeName.boolean, TypeName.intPtr, TypeName.string, TypeName.object,
    TypeName.stringBuilder, TypeName.void]) : t.key = n := by
  have fixed : ∀ n ∈ [TypeName.int32, TypeName.boolean, TypeName.intPtr, TypeName.string, TypeName.object,
    TypeName.stringBuilder, TypeName.void], Symbols.key n = n := by
    decide +kernel
  rw [key, h, fixed n hn]

theorem key_array (e : Ty) : (Ty.array e).key = TypeName.array e.key := TypeName.key_array e.name

/-- A type whose values are numbers or pointers has the name of one, where its key is one. -/
theorem starts_of_key (h : ∀ n ∈ [TypeName.int32, TypeName.boolean, TypeName.intPtr], t.key = n → t.name = n) :
    t.Starts := by
  intro heap
  simp only [List.mem_cons, List.not_mem_nil, or_false, forall_eq_or_imp, forall_eq] at h
  obtain ⟨hint, hboolean, hpointer⟩ := h
  unfold Value.zero
  dsimp only
  split
  · rename_i hnumber
    refine .number ?_
    exact hnumber.imp (key_host · (by simp)) (key_host · (by simp))
  · rename_i hnumber
    rw [not_or] at hnumber
    split
    · rename_i hname
      rw [key_host hname (by simp)]
      exact .pointer
    · rename_i hname
      refine .null ?_
      by_cases hs : t.key = TypeName.string
      · exact .inr hs
      · exact .inl (by simp [TypeName.isReference, mt hint hnumber.1, mt hboolean hnumber.2, mt hpointer hname, hs])

end Ty

/-! ### What stays -/

namespace Heap
variable {h h' : Heap} {v : Value} {r : Method}

theorem keeps_empty (h : Heap) : Heap.Keeps {} h := ⟨fun ho => by simp at ho, fun ha => by simp at ha⟩

theorem Keeps.belongs {n : Text} (hk : h.Keeps h') (hv : h.Belongs v n) : h'.Belongs v n := by
  cases hv with
  | number hn => exact .number hn
  | pointer => exact .pointer
  | string => exact .string
  | null hn => exact .null hn
  | @object id o ho hb hr =>
    obtain ⟨buffer, ho'⟩ := hk.objects ho
    exact .object (o := { o with buffer }) ho' hb hr
  | array ha => exact .array (hk.arrays ha)

/-- A value of a type is in the heap. -/
theorem Belongs.knows {n : Text} (hv : h.Belongs v n) : h.Knows v := by
  cases hv with
  | object ho => exact (Array.getElem?_eq_some_iff.mp ho).1
  | array ha => exact (Array.getElem?_eq_some_iff.mp ha).1
  | _ => trivial

theorem Takes.later {args : List Value} {params : List (Option Ty)} (ha : h.Takes args params) (hk : h.Keeps h') :
    h'.Takes args params :=
  ha.imp fun _ _ ⟨t, ht, hv⟩ => ⟨t, ht, hk.belongs hv⟩

/-- Types count by name. -/
theorem Returns.same {ret ret' : Option Ty} (hv : h.Returns ret v) (hr : Ty.same ret ret' = true) : h.Returns ret' v := by
  rintro t rfl hn
  obtain ⟨u, rfl, hu⟩ := Setting.same_name hr
  rw [← Ty.key_of_name hu]
  refine hv u rfl ?_
  rwa [Ty.isVoid, hu]

theorem Takes.same {args : List Value} {params params' : List (Option Ty)} (ha : h.Takes args params)
    (hp : Ty.sameList params params' = true) : h.Takes args params' := by
  induction ha generalizing params' with
  | nil =>
    cases params' with
    | nil => exact .nil
    | cons p ps => cases hp
  | @cons v p args params hv _ ih =>
    cases params' with
    | nil => cases hp
    | cons p' ps =>
      simp only [Ty.sameList, Bool.and_eq_true] at hp
      obtain ⟨t, rfl, hv⟩ := hv
      refine .cons ?_ (ih hp.2)
      cases p' with
      | none => cases of_decide_eq_true hp.1
      | some u =>
        have hname : t.name = u.name := Option.some.inj (of_decide_eq_true hp.1)
        exact ⟨u, rfl, Ty.key_of_name hname ▸ hv⟩

theorem Belongs.number? {n : Text} (hv : h.Belongs v n) (hn : n = TypeName.int32 ∨ n = TypeName.boolean) :
    ∃ x, v = .int x := by
  cases hv with
  | @number x => exact ⟨x, rfl⟩
  | pointer => rcases hn with hn | hn <;> cases hn
  | string => rcases hn with hn | hn <;> cases hn
  | null hnull => rcases hn with rfl | rfl <;> rcases hnull with hnull | hnull <;> cases hnull
  | object _ _ hr => rcases hn with hn | hn <;> rw [hn] at hr <;> cases hr
  | array _ => rcases hn with hn | hn <;> exact absurd hn (TypeName.array_ne (by decide))

theorem Belongs.string? {n : Text} (hv : h.Belongs v n) (hn : n = TypeName.string) : v = .null ∨ ∃ s, v = .str s := by
  cases hv with
  | @string s => exact .inr ⟨s, rfl⟩
  | null => exact .inl rfl
  | number hx => rcases hx with rfl | rfl <;> cases hn
  | pointer => cases hn
  | object _ _ hr =>
    rw [hn] at hr
    cases hr
  | array _ => exact absurd hn (TypeName.array_ne (by decide))

theorem Belongs.pointer? {n : Text} (hv : h.Belongs v n) (hn : n = TypeName.intPtr) : ∃ m, v = .func m := by
  cases hv with
  | @pointer m => exact ⟨m, rfl⟩
  | number hx => rcases hx with rfl | rfl <;> cases hn
  | string => cases hn
  | null hx =>
    subst hn
    rcases hx with hx | hx <;> cases hx
  | object _ _ hr =>
    rw [hn] at hr
    cases hr
  | array _ => exact absurd hn (TypeName.array_ne (by decide))

/-- A value of a reference type is null, an object or an array. -/
theorem Belongs.reference? {n : Text} (hv : h.Belongs v n) (hr : TypeName.isReference n = true) :
    v = .null ∨ (∃ id o, v = .obj id ∧ h.objects[id]? = some o ∧ o.boxed = none ∧ o.type.key = n) ∨
      ∃ id a, v = .arr id ∧ h.arrays[id]? = some a ∧ TypeName.array a.elem.key = n := by
  cases hv with
  | null => exact .inl rfl
  | @object id o ho hb => exact .inr (.inl ⟨id, o, rfl, ho, hb, rfl⟩)
  | @array id a ha => exact .inr (.inr ⟨id, a, rfl, ha, rfl⟩)
  | number hx => rcases hx with rfl | rfl <;> cases hr
  | pointer => cases hr
  | string => cases hr

end Heap

namespace Platform
variable {P : Platform} {ts ts' ts'' : List Text} {h h' h'' : Heap}

theorem Receives.later {r : Method} {v : Value} (hv : P.Receives h r v) (hk : h.Keeps h') : P.Receives h' r v :=
  ⟨hv.notNull, hv.type.imp id (Or.imp id hk.belongs)⟩

theorem Receivers.later {r : Method} {recv : List Value} (hv : P.Receivers h r recv) (hk : h.Keeps h') :
    P.Receivers h' r recv := by
  unfold Receivers at hv ⊢
  split
  · rwa [if_pos ‹_›] at hv
  · rw [if_neg ‹_›] at hv
    obtain ⟨v, hrecv, hv⟩ := hv
    exact ⟨v, hrecv, hv.later hk⟩

theorem cell_kept (hp : ts <+: ts') {c : Nat} {n : Text} (hc : ts[c]? = some n) : ts'[c]? = some n :=
  (List.prefix_iff_getElem?.mp hp c (List.getElem?_eq_some_iff.mp hc).1).trans
    (congrArg some (List.getElem?_eq_some_iff.mp hc).2)

theorem Later.refl (ht : P.Typed ts h) : P.Later ts h ts h := ⟨List.prefix_refl _, .refl _, ht⟩

theorem Later.trans (hl : P.Later ts h ts' h') (hl' : P.Later ts' h' ts'' h'') : P.Later ts h ts'' h'' :=
  ⟨hl.cells.trans hl'.cells, hl.keeps.trans hl'.keeps, hl'.typed⟩

theorem Instance.later {o : Obj} (ho : P.Instance ts h o) (hp : ts <+: ts') (hk : h.Keeps h') : P.Instance ts' h' o where
  admits := ho.admits
  notArray := ho.notArray
  fields hf hs := by
    obtain ⟨slot, t, hslot, hlt, ht, hc⟩ := ho.fields hf hs
    exact ⟨slot, t, hslot, hlt, ht, cell_kept hp hc⟩
  box := ho.box
  object := ho.object
  delegate hD := by
    obtain ⟨r, hm, hr, hrecv, hsame⟩ := ho.delegate hD
    exact ⟨r, hm, hr, hrecv.later hk, hsame⟩
  builder := ho.builder

/-- The text of a builder may change. -/
theorem Instance.buffer {o : Obj} (ho : P.Instance ts h o) {buffer : Option Text} (hb : o.buffer ≠ none → buffer ≠ none) :
    P.Instance ts h { o with buffer } :=
  ⟨ho.admits, ho.notArray, ho.fields, ho.box, ho.object, ho.delegate, fun hp hn => hb (ho.builder hp hn)⟩

theorem Row.later {a : Arr} (ha : P.Row ts a) (hp : ts <+: ts') : P.Row ts' a :=
  ⟨ha.admits, fun hi => cell_kept hp (ha.element hi)⟩

theorem Stored.later {x : Field × Value} (hx : Stored h x) (hk : h.Keeps h') : Stored h' x := by
  obtain ⟨t, ht, hv⟩ := hx
  exact ⟨t, ht, hk.belongs hv⟩

/-- A cell of a type holds a value of the type. -/
theorem Typed.load (ht : P.Typed ts h) {c : Nat} {n : Text} (hc : ts[c]? = some n) : h.Belongs (h.load (.cell c)) n := by
  have hlt : c < h.cells.size := by
    rw [← ht.size]
    exact (List.getElem?_eq_some_iff.mp hc).1
  have hv : h.cells[c]? = some h.cells[c] := Array.getElem?_eq_getElem hlt
  have hload : h.load (.cell c) = h.cells[c] := by simp [Heap.load, hlt]
  rw [hload]
  exact ht.cell hc hv

/-- What is not as it was is typed. -/
theorem Typed.change (ht : P.Typed ts h) (hp : ts <+: ts') (hk : h.Keeps h') (hsize : ts'.length = h'.cells.size)
    (hcell : ∀ {c : Nat} {n : Text} {v : Value}, ts'[c]? = some n → h'.cells[c]? = some v →
      ts[c]? = some n ∧ h.cells[c]? = some v ∨ h'.Belongs v n)
    (hstatics : ∀ x ∈ h'.statics, x ∈ h.statics ∨ Stored h' x)
    (harray : ∀ {id : Nat} {a : Arr}, h'.arrays[id]? = some a → h.arrays[id]? = some a ∨ P.Row ts' a)
    (hobject : ∀ {id : Nat} {o : Obj}, h'.objects[id]? = some o → h.objects[id]? = some o ∨ P.Instance ts' h' o) :
    P.Later ts h ts' h' := by
  refine ⟨hp, hk, hsize, fun hc hv => ?_, fun x hx => ?_, fun ha => ?_, fun ho => ?_⟩
  · rcases hcell hc hv with ⟨hc, hv⟩ | hv
    · exact hk.belongs (ht.cell hc hv)
    · exact hv
  · exact (hstatics x hx).elim (fun hx => (ht.statics x hx).later hk) id
  · exact (harray ha).elim (fun ha => (ht.array ha).later hp) id
  · exact (hobject ho).elim (fun ho => (ht.object ho).later hp hk) id

/-! ### What code does to a heap -/

/-- A value is put into a cell of its type. -/
theorem Typed.store (ht : P.Typed ts h) {c : Nat} {n : Text} {v : Value} (hc : ts[c]? = some n) (hv : h.Belongs v n) :
    P.Later ts h ts (h.store (.cell c) v) := by
  have hk : h.Keeps (h.store (.cell c) v) := ⟨fun {_ o} ho => ⟨o.buffer, ho⟩, fun ha => ha⟩
  refine ht.change (List.prefix_refl _) hk ?_ (fun {c' n' v'} hc' hv' => ?_) (fun _ hx => .inl hx) .inl .inl
  · rw [ht.size]
    simp [Heap.store]
  · replace hv' : (h.cells.setIfInBounds c v)[c']? = some v' := hv'
    rw [Array.getElem?_setIfInBounds] at hv'
    split at hv'
    · rename_i heq
      subst heq
      cases hc.symm.trans hc'
      split at hv'
      · cases hv'
        exact .inr (hk.belongs hv)
      · cases hv'
    · exact .inl ⟨hc', hv'⟩

/-- A value is put into a static field of its type. -/
theorem Typed.storeStatic (ht : P.Typed ts h) {f : Field} {v : Value} (hv : Stored h (f, v)) :
    P.Later ts h ts (h.store (.static f) v) := by
  have hk : h.Keeps (h.store (.static f) v) := ⟨fun {_ o} ho => ⟨o.buffer, ho⟩, fun ha => ha⟩
  refine ht.change (List.prefix_refl _) hk ht.size (fun hc hv => .inl ⟨hc, hv⟩) (fun x hx => ?_) .inl .inl
  rcases List.mem_cons.mp hx with rfl | hx
  · exact .inr (hv.later hk)
  · exact .inl (List.mem_of_mem_filter hx)

/-- Behind the cells there are, cells with values are added. -/
theorem cells_added (ht : P.Typed ts h) {vs : List Value} {ns : List Text} (hvs : List.Forall₂ h.Belongs vs ns)
    {c : Nat} {n : Text}
    {v : Value} (hc : (ts ++ ns)[c]? = some n) (hv : (h.cells ++ vs.toArray)[c]? = some v) :
    ts[c]? = some n ∧ h.cells[c]? = some v ∨ h.Belongs v n := by
  by_cases hlt : c < ts.length
  · rw [List.getElem?_append_left hlt] at hc
    rw [Array.getElem?_append_left (by rwa [← ht.size])] at hv
    exact .inl ⟨hc, hv⟩
  · rw [List.getElem?_append_right (by omega)] at hc
    rw [Array.getElem?_append_right (by rw [← ht.size]; omega), ← ht.size, List.getElem?_toArray] at hv
    obtain ⟨hltv, rfl⟩ := List.getElem?_eq_some_iff.mp hv
    obtain ⟨hltn, rfl⟩ := List.getElem?_eq_some_iff.mp hc
    exact .inr (hvs.get hltv hltn)

/-- Cells with values are added, and perhaps an object or an array that they belong to. -/
theorem Typed.append (ht : P.Typed ts h) {vs : List Value} {ns : List Text} (hvs : List.Forall₂ h.Belongs vs ns)
    (hcells : h'.cells = h.cells ++ vs.toArray) (hstatics : h'.statics = h.statics) (hk : h.Keeps h')
    (harray : ∀ {id : Nat} {a : Arr}, h'.arrays[id]? = some a → h.arrays[id]? = some a ∨ P.Row (ts ++ ns) a)
    (hobject : ∀ {id : Nat} {o : Obj}, h'.objects[id]? = some o → h.objects[id]? = some o ∨ P.Instance (ts ++ ns) h' o) :
    P.Later ts h (ts ++ ns) h' := by
  refine ht.change (List.prefix_append _ _) hk ?_ (fun hc hv => ?_) (fun x hx => .inl (hstatics ▸ hx)) harray hobject
  · simp [hcells, ht.size, hvs.length_eq]
  · rw [hcells] at hv
    exact (cells_added ht hvs hc hv).imp id hk.belongs

theorem Typed.allocate (ht : P.Typed ts h) {vs : List Value} {ns : List Text} (hvs : List.Forall₂ h.Belongs vs ns) :
    P.Later ts h (ts ++ ns) (h.allocate vs).2 :=
  ht.append hvs (h.allocate_cells vs) rfl ⟨fun {_ o} ho => ⟨o.buffer, ho⟩, fun ha => ha⟩ .inl .inl

/-- A new array holds first values. -/
theorem Typed.addArray (ht : P.Typed ts h) {elem : Ty} (ha : P.Admits (.array elem)) (he : elem.Starts) (count : Nat) :
    P.Later ts h (ts ++ List.replicate count elem.key) (h.addArray elem count).2 ∧
      (h.addArray elem count).2.Belongs (.arr (h.addArray elem count).1) (Ty.array elem).key := by
  have zeros : ∀ n, List.Forall₂ h.Belongs (List.replicate n (.zero (some elem))) (List.replicate n elem.key) := by
    intro n
    induction n with
    | zero => exact .nil
    | succ n ih => exact .cons (he h) ih
  have hnew : (h.addArray elem count).2.arrays[(h.addArray elem count).1]? =
      some { elem, first := h.cells.size, count } := by
    simp [Heap.addArray, Heap.allocate]
  have hk : h.Keeps (h.addArray elem count).2 := by
    refine ⟨fun {_ o} ho => ⟨o.buffer, ho⟩, fun {id a} hid => ?_⟩
    have hlt := (Array.getElem?_eq_some_iff.mp hid).1
    show (h.arrays.push _)[id]? = some a
    rw [Array.getElem?_push, if_neg (by omega)]
    exact hid
  refine ⟨ht.append (zeros count) (Heap.allocate_cells _ _) rfl hk (fun {id a} hid => ?_) .inl,
      elem.key_array ▸ .array hnew⟩
  replace hid : (h.arrays.push { elem, first := h.cells.size, count })[id]? = some a := hid
  rw [Array.getElem?_push] at hid
  split at hid
  · cases hid
    refine .inr ⟨ha, fun {i} hi => ?_⟩
    rw [← ht.size, List.getElem?_append_right (Nat.le_add_right _ _), Nat.add_sub_cancel_left,
        List.getElem?_replicate, if_pos hi]
  · exact .inl hid

/-- A new object has its fields in cells that are added. -/
theorem Typed.makeObject {w : World} (ht : P.Typed ts w.heap) (module : Nat) {d : TypeDef} (hd : P.Lays d)
    (change : Obj → Obj)
    (hnew : ∀ {first tag : Nat} {ts' : List Text} {h' : Heap}, w.heap.Keeps h' → P.Fields ts' d.type first d.slots →
      P.Instance ts' h' (change { type := d.type, first, count := d.slots, tag })) :
    ∃ ts', P.Later ts w.heap ts' (w.makeObject module d change).2.heap := by
  have hk := w.makeObject_keeps module d change
  let fields := d.fields.toList.filter fun f => !f.isStatic
  have hvs : List.Forall₂ w.heap.Belongs (fields.map fun f => .zero f.type)
      (fields.map fun f => (f.type.map Ty.key).getD .empty) := by
    rw [List.forall₂_map_left_iff, List.forall₂_map_right_iff, List.forall₂_same]
    intro f hf
    obtain ⟨t, ht, hstarts⟩ := hd.type f (List.mem_of_mem_filter hf)
    rw [ht]
    exact hstarts w.heap
  refine ⟨ts ++ fields.map fun f => (f.type.map Ty.key).getD .empty,
      ht.append hvs (Heap.allocate_cells _ _) rfl hk .inl fun {id o} ho => ?_⟩
  replace ho : (w.heap.objects.push (change
    { type := d.type, first := w.heap.cells.size, count := d.slots, tag := (w.state module).lastTag + 1 }))[id]? =
      some o := ho
  rw [Array.getElem?_push] at ho
  split at ho
  · cases ho
    refine .inr (hnew hk fun {f} hf hs => ?_)
    obtain ⟨slot, hslot, hlt, hget⟩ := hd.slot hf hs
    obtain ⟨t, hft, -⟩ := hd.type f (List.mem_of_mem_filter (List.mem_of_getElem? hget))
    refine ⟨slot, t, hslot, hlt, hft, ?_⟩
    rw [← ht.size, List.getElem?_append_right (Nat.le_add_right _ _), Nat.add_sub_cancel_left, List.getElem?_map, hget]
    simp [hft]
  · exact .inl ho

/-- The text of a builder changes. -/
theorem Typed.modifyBuffer (ht : P.Typed ts h) (id : Nat) {g : Option Text → Option Text}
    (hg : ∀ b, b ≠ none → g b ≠ none) :
    P.Later ts h ts (h.modifyObject id fun o => { o with buffer := g o.buffer }) := by
  have get : ∀ i : Nat, (h.modifyObject id fun o => { o with buffer := g o.buffer }).objects[i]? =
      if id = i then (h.objects[i]?).map fun o => { o with buffer := g o.buffer } else h.objects[i]? :=
    fun i => Array.getElem?_modify
  have hk : h.Keeps (h.modifyObject id fun o => { o with buffer := g o.buffer }) := by
    refine ⟨fun {i o} ho => ?_, fun ha => ha⟩
    rw [get, ho]
    split
    · exact ⟨_, rfl⟩
    · exact ⟨o.buffer, rfl⟩
  refine ht.change (List.prefix_refl _) hk ht.size (fun hc hv => .inl ⟨hc, hv⟩)
      (fun _ hx => .inl hx) .inl fun {i o} ho => ?_
  rw [get] at ho
  split at ho
  · obtain ⟨o', ho', rfl⟩ := Option.map_eq_some_iff.mp ho
    exact .inr (((ht.object ho').later (List.prefix_refl _) hk).buffer (hg _))
  · exact .inl ho

end Platform
end CilCompiler
