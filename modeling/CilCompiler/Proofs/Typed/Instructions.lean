import CilCompiler.Proofs.Typed.Calls

/-! Instructions of typed code. `Platform.Stacked` says that the values on a stack are what slots say they are. An
    instruction that takes the slots of a stack leaves a typed heap and what it says it leaves, begins a call that
    will, or fails. Where the platform is plain it fails as expected; when it fails on null, the operand that it is
    about is null. -/

namespace CilCompiler

/-! ### Operands -/

/-- Which operand of an instruction a fault is about, counted from the top of the stack: the one that was pushed
    first, or the last argument where a member of the catalog fails. -/
def Fault.operand (i : Instr) : Fault → Nat
  | .diagnosed (.runtime (.instruction ..)) => (i.effect none).1 - 1
  | _ => 0

/-- A cause is expected of an instruction with some values on the stack; where a reference is null, the operand is null. -/
structure InstrCause.Expected (c : InstrCause) (i : Instr) (stack : List Value) : Prop where
  expected : c.code ∈ [Code.nullReference, .indexRange, .divideByZero, .overflow]
  null : c.code = .nullReference → stack[(i.effect none).1 - 1]? = some .null

theorem InstrCause.Expected.of_code {c : InstrCause}
    (hc : decide (c.code ∈ [Code.indexRange, .divideByZero, .overflow]) = true) (i : Instr)
    (stack : List Value) : c.Expected i stack := by
  have hc := of_decide_eq_true hc
  refine ⟨List.mem_cons_of_mem _ hc, fun hnull => ?_⟩
  rw [hnull] at hc
  exact absurd hc (by decide)

theorem InstrCause.Expected.of_null {c : InstrCause} {i : Instr} {stack : List Value}
    (hc : decide (c.code = .nullReference) = true)
    (hnull : stack[(i.effect none).1 - 1]? = some .null) : c.Expected i stack :=
  ⟨of_decide_eq_true hc ▸ List.mem_cons_self, fun _ => hnull⟩

theorem Ty.IsNumber.key {t : Ty} (ht : t.IsNumber) : t.key = TypeName.int32 ∨ t.key = TypeName.boolean :=
  ht.imp (Ty.key_host · (by decide)) (Ty.key_host · (by decide))

theorem Ty.IsNumber.notVoid {t : Ty} (ht : t.IsNumber) : t.isVoid = false := by
  unfold Ty.isVoid
  rcases ht with h | h <;> rw [h] <;> rfl

namespace Platform
variable {P : Platform} {ts ts' : List Text} {h h' : Heap} {Γ : Setting} {d : Draft}

/-- The place of a value of a type: a cell, or a static field that is of the type from the beginning. -/
inductive Place (ts : List Text) (t : Ty) : Address → Prop
  | cell {c} : ts[c]? = some t.key → Place ts t (.cell c)
  | static {f : Field} : f.type = some t → Heap.Belongs {} (Heap.initial f) t.key → Place ts t (.static f)

/-- A value is what a slot says. -/
inductive Fits (P : Platform) (ts : List Text) (h : Heap) : Slot → Value → Prop
  | null : Fits P ts h (.value none) .null
  | value {t v} : t.isVoid = false → h.Belongs v t.key → Fits P ts h (.value (some t)) v
  | place {t a} : t.isValue = true → t.isVoid = false → Place ts t a → Fits P ts h (.address t) (.addr a)
  | boxed {t id v} : h.Boxes id t v → Fits P ts h (.boxed t) (.obj id)
  | static {m} : P.Provides m → m.isStatic = true → Fits P ts h (.static m) (.func (some m))

/-- A method that was taken from a receiver for another one: it is called on it, with the same parameters and result. -/
structure Taken (P : Platform) (h : Heap) (m q : Method) (v : Value) : Prop where
  provided : P.Provides q
  isStatic : q.isStatic = false
  receives : P.Receives h q v
  params : Ty.sameList q.params m.params = true
  ret : Ty.same q.ret m.ret = true

/-- The values on a stack are what slots say; of those below nothing is said. -/
inductive Stacked (P : Platform) (ts : List Text) (h : Heap) : List Slot → List Value → Prop
  | any {vs} : Stacked P ts h [] vs
  | cons {s S v vs} : P.Fits ts h s v → Stacked P ts h S vs → Stacked P ts h (s :: S) (v :: vs)
  | bound {m q s S v vs} : P.Taken h m q v → P.Fits ts h s v → Stacked P ts h S vs →
      Stacked P ts h (.bound m :: s :: S) (.func (some q) :: v :: vs)

/-! ### What stays -/

theorem Place.later {t : Ty} {a : Address} (hp : Place ts t a) (hts : ts <+: ts') : Place ts' t a := by
  cases hp with
  | cell hc => exact .cell (cell_kept hts hc)
  | static hf hv => exact .static hf hv

theorem Fits.later {s : Slot} {v : Value} (hv : P.Fits ts h s v) (hts : ts <+: ts') (hk : h.Keeps h') :
    P.Fits ts' h' s v := by
  cases hv with
  | null => exact .null
  | value hn hv => exact .value hn (hk.belongs hv)
  | place hvalue hn hp => exact .place hvalue hn (hp.later hts)
  | boxed hb =>
    obtain ⟨⟨o, ho, ht, hbox⟩, hv⟩ := hb
    obtain ⟨buffer, ho'⟩ := hk.objects ho
    exact .boxed ⟨⟨_, ho', ht, hbox⟩, hv⟩
  | static hm hst => exact .static hm hst

theorem Stacked.later {S : List Slot} {vs : List Value} (hS : P.Stacked ts h S vs) (hts : ts <+: ts') (hk : h.Keeps h') :
    P.Stacked ts' h' S vs := by
  induction hS with
  | any => exact .any
  | cons hv _ ih => exact .cons (hv.later hts hk) ih
  | bound hq hv _ ih =>
    exact .bound ⟨hq.provided, hq.isStatic, hq.receives.later hk, hq.params, hq.ret⟩ (hv.later hts hk) ih

/-! ### Stacks -/

/-- A slot that is no method taken from the object below is that of the value on top. -/
theorem Stacked.top {s : Slot} {S : List Slot} {vs : List Value} (hs : ∀ m, s ≠ .bound m)
    (hS : P.Stacked ts h (s :: S) vs) :
    ∃ v rest, vs = v :: rest ∧ P.Fits ts h s v ∧ P.Stacked ts h S rest := by
  cases hS with
  | cons hv hrest => exact ⟨_, _, rfl, hv, hrest⟩
  | bound => exact absurd rfl (hs _)

theorem Stacked.value {t : Option Ty} {S : List Slot} {vs : List Value} (hS : P.Stacked ts h (.value t :: S) vs) :
    ∃ v rest, vs = v :: rest ∧ P.Fits ts h (.value t) v ∧ P.Stacked ts h S rest :=
  hS.top fun _ he => Slot.noConfusion he

theorem Stacked.length {S : List Slot} {vs : List Value} (hS : P.Stacked ts h S vs) : S.length ≤ vs.length := by
  induction hS with
  | any => exact Nat.zero_le _
  | cons _ _ ih => simpa using ih
  | bound _ _ _ ih => simpa using ih

/-- Arguments are on top of the stack, the last one first. -/
theorem Stacked.arguments {types : List (Option Ty)} {S : List Slot} {vs : List Value}
    (hS : P.Stacked ts h (Slot.arguments types ++ S) vs) :
    ∃ args rest, vs = args.reverse ++ rest ∧ List.Forall₂ (fun v t => P.Fits ts h (.value t) v) args types ∧
      P.Stacked ts h S rest := by
  induction types generalizing S with
  | nil => exact ⟨[], vs, rfl, .nil, hS⟩
  | cons t types ih =>
    have hS : P.Stacked ts h (Slot.arguments types ++ (.value t :: S)) vs := by simpa [Slot.arguments] using hS
    obtain ⟨args, rest, rfl, hargs, hrest⟩ := ih hS
    obtain ⟨v, rest, rfl, hv, hrest⟩ := hrest.value
    exact ⟨v :: args, rest, by simp, .cons hv hargs, hrest⟩

/-! ### What typed code relies on -/

/-- The machine can make an instance of a type with a constructor: a builder, or an object that the constructor is
    called on. -/
inductive Builds (P : Platform) (t : Ty) (c : Method) : Prop
  | builder {x} : t.key = TypeName.stringBuilder → P.machine.routine? c = some x → x.native = some .constructBuilder →
      x.impl ≠ .runtime →
      Builds P t c
  | object {x} : t.key ≠ TypeName.stringBuilder → P.machine.routine? c = some x → x.impl ≠ .runtime →
      P.Provides c → Builds P t c

/-- A type that has the members of its key, and is no array. -/
structure Owns (P : Platform) (t u : Ty) : Prop where
  admits : P.Admits t
  notArray : t.isArray = false
  key : t.key = u.key
  reference : TypeName.isReference t.key = true

/-- The machine makes a delegate itself when its constructor is called. -/
structure Binds (P : Platform) (t : Ty) (D : Delegate) : Prop where
  owns : P.Owns D.ctor.owner t
  notBuilder : t.key ≠ TypeName.stringBuilder
  isDelegate : D.ctor.owner.isDelegate = true
  routine : ∃ x, P.machine.routine? D.ctor = some x ∧ x.impl = .runtime

/-- What code relies on that is typed for a platform. Every type but arrays has a definition; members are those of a
    key, all of them are provided, and virtual ones of a name have one signature; only classes and delegates have
    fields and constructors. Where the platform is plain, no other type has the key of an array. -/
structure Sound (P : Platform) : Prop where
  starts : ∀ {t : Ty}, P.Admits t → t.Starts
  element : ∀ {e : Ty}, P.Admits (.array e) → P.Admits e
  value : ∀ {t : Ty}, P.Admits t → t.isValue = true → t.isVoid = false →
    (t.name = TypeName.int32 ∨ t.name = TypeName.boolean) ∨ t.name = TypeName.intPtr
  reference : ∀ {t : Ty}, P.Admits t → t.isValue = false → TypeName.isReference t.key = true ∨ t.key = TypeName.string
  apart : P.plain → ∀ {t : Ty}, P.Admits t → t.isArray = false → ∀ e : Ty, t.key ≠ (Ty.array e).key
  definition : ∀ {t : Ty}, P.Admits t → t.isArray = false → ∃ d, P.machine.def? t = some d ∧ d.type = t ∧ P.Lays d
  host : ∀ {t : Ty}, P.Admits t → P.machine.hostType t.module TypeName.object = P.object
  string : P.Admits (P.machine.hostType P.machine.module TypeName.string) ∧
    (P.machine.hostType P.machine.module TypeName.string).name = TypeName.string
  object : P.object.name = TypeName.object
  field : ∀ {t c : Ty} {f : Field}, P.Admits t → c ∈ Ty.lineage P.object t → f ∈ P.symbols.fieldsOf c → f.isStatic = false →
    c = t ∧ (P.plain → t.isArray = false) ∧ TypeName.isReference t.key = true
  initial : ∀ {t c u : Ty} {f : Field}, P.Admits t → c ∈ Ty.lineage P.object t → f ∈ P.symbols.fieldsOf c →
    f.isStatic = true →
    f.type = some u → Heap.Belongs {} (Heap.initial f) u.key
  method : ∀ {t c : Ty} {r : Method}, P.Admits t → c ∈ Ty.lineage P.object t → r ∈ P.symbols.allMethods c →
    P.Provides r ∧ (r.owner.key = t.key ∧ r.owner.isValue = t.isValue ∨ r.owner.name = TypeName.object)
  target : ∀ {t u c c' : Ty} {r : Method} {e : TypeDef} {y : Routine}, P.Admits t → P.Admits u → u.key = t.key →
    c ∈ Ty.lineage P.object t → r ∈ P.symbols.allMethods c → r.isVirtual = true → c' ∈ Ty.lineage P.object u →
    P.machine.def? c' = some e → y ∈ e.methods → y.method.name = r.name → y.method.isVirtual = true →
    y.method ∈ P.symbols.allMethods c' ∧ y.method.isStatic = false ∧ Ty.same y.method.ret r.ret = true
  ctor : ∀ {t : Ty} {c : Method}, P.Admits t → t.isValue = false → P.symbols.delegate? (some t) = none →
    c ∈ P.symbols.ctorsOf t →
    P.Owns c.owner t ∧ c.isStatic = false ∧ P.Builds c.owner c
  base : ∀ {c : Method}, c ∈ P.symbols.ctorsOf P.object → P.Provides c ∧ c.isStatic = false ∧ c.owner.name = TypeName.object
  delegate : ∀ {t : Ty} {D : Delegate}, P.Admits t → P.symbols.delegate? (some t) = some D → P.Binds t D

/-! ### Values -/

section Values
variable {v : Value} {t : Ty}

/-- A value that is accepted where a type is wanted is of the type. -/
theorem Fits.accepted {o : Option Ty} (hP : P.Sound) (ht : P.Admits t) (hv : P.Fits ts h (.value o) v)
    (ha : Ty.accepts (some t) o = true) :
    h.Belongs v t.key := by
  cases hv with
  | null => exact .null (hP.reference ht (by simpa [Ty.accepts] using ha))
  | @value u _ hn hv =>
    have hname : t.name = u.name := by simpa [Ty.accepts, Ty.same] using ha
    rwa [Ty.key_of_name hname]

/-- Arguments that fit are taken. -/
theorem takes_of_fits (hP : P.Sound) {args : List Value} {types params : List (Option Ty)}
    (hargs : List.Forall₂ (fun v t => P.Fits ts h (.value t) v) args types) (hfits : Ty.fits params types = true)
    (hparams : ∀ p ∈ params, ∃ t, p = some t ∧ P.Admits t) : h.Takes args params := by
  induction hargs generalizing params with
  | nil =>
    cases params with
    | nil => exact .nil
    | cons p ps => cases hfits
  | cons hv _ ih =>
    cases params with
    | nil => cases hfits
    | cons p ps =>
      simp only [Ty.fits, Bool.and_eq_true] at hfits
      obtain ⟨⟨t, rfl, ht⟩, hps⟩ := List.forall_mem_cons.mp hparams
      exact .cons ⟨t, rfl, hv.accepted hP ht hfits.1⟩ (ih hfits.2 hps)

/-- What is at a place is of its type. -/
theorem Place.load (ht : P.Typed ts h) {a : Address} (hp : Place ts t a) : h.Belongs (h.load a) t.key := by
  cases hp with
  | cell hc => exact ht.load hc
  | @static f hf hinitial =>
    unfold Heap.load
    dsimp only
    split
    · rename_i x hx
      obtain ⟨u, hu, hv⟩ := ht.statics x (List.mem_of_find?_eq_some hx)
      have hfield : x.1 = f := by simpa using List.find?_some hx
      rw [hfield, hf] at hu
      cases hu
      exact hv
    · exact (Heap.keeps_empty h).belongs hinitial

/-- A value of a value type is a number or a pointer. -/
theorem value_plain (hP : P.Sound) (ht : P.Admits t) (hvalue : t.isValue = true) (hvoid : t.isVoid = false)
    (hv : h.Belongs v t.key) :
    (∃ n, v = .int n) ∨ ∃ q, v = .func q := by
  rcases hP.value ht hvalue hvoid with (hn | hn) | hn
  · exact .inl (hv.number? (.inl (Ty.key_host hn (by decide))))
  · exact .inl (hv.number? (.inr (Ty.key_host hn (by decide))))
  · exact .inr (hv.pointer? (Ty.key_host hn (by decide)))

theorem value_key (hP : P.Sound) (ht : P.Admits t) (hvalue : t.isValue = true) (hvoid : t.isVoid = false) :
    TypeName.isReference t.key = false := by
  rcases hP.value ht hvalue hvoid with (hn | hn) | hn <;> rw [Ty.key_host hn (by decide)] <;> rfl

/-- A value of an array type is null or an array of the type, or an object that is taken for one. -/
theorem Typed.array? (hP : P.Sound) (ht : P.Typed ts h) {e : Ty} (hv : h.Belongs v (Ty.array e).key) :
    v = .null ∨ (∃ id a, v = .arr id ∧ h.arrays[id]? = some a ∧ a.elem.key = e.key) ∨ ¬P.plain ∧ ∃ id, v = .obj id := by
  rw [Ty.key_array] at hv
  rcases hv.reference? (TypeName.isReference_array _) with rfl | ⟨id, o, rfl, ho, -, hkey⟩ | ⟨id, a, rfl, ha, hkey⟩
  · exact .inl rfl
  · exact .inr (.inr ⟨fun hp =>
      hP.apart hp (ht.object ho).admits (ht.object ho).notArray e (hkey.trans e.key_array.symm), id, rfl⟩)
  · exact .inr (.inl ⟨id, a, rfl, ha, Text.append_right_cancel hkey⟩)

/-! ### Methods that calls reach -/

/-- The type of a value at run time has the key of the one that is known of it. -/
theorem Typed.typeOf (hP : P.Sound) (ht : P.Typed ts h) (hT : P.Admits t) (hvalue : t.isValue = false)
    (hv : h.Belongs v t.key)
    (hnull : v ≠ .null) : P.Admits (P.machine.typeOf h v) ∧ (P.machine.typeOf h v).key = t.key := by
  rcases hP.reference hT hvalue with href | hstring
  · rcases hv.reference? href with rfl | ⟨id, o, rfl, ho, -, hkey⟩ | ⟨id, a, rfl, ha, hkey⟩
    · exact absurd rfl hnull
    · simp only [Machine.typeOf, Heap.deref, ho]
      exact ⟨(ht.object ho).admits, hkey⟩
    · simp only [Machine.typeOf, Heap.deref, ha]
      exact ⟨(ht.array ha).admits, a.elem.key_array.trans hkey⟩
  · rcases hv.string? hstring with rfl | ⟨s, rfl⟩
    · exact absurd rfl hnull
    · exact ⟨hP.string.1, (Ty.key_host hP.string.2 (by decide)).trans hstring.symm⟩

/-- A method of a type or one of its bases is called on a value of the type. -/
theorem receives_of_owner {q : Method}
    (howner : q.owner.key = t.key ∧ q.owner.isValue = t.isValue ∨ q.owner.name = TypeName.object)
    (hnull : P.plain → v ≠ .null) (hv : t.isValue = true ∨ h.Belongs v t.key) : P.Receives h q v := by
  refine ⟨hnull, ?_⟩
  rcases howner with ⟨hkey, hvalue⟩ | howner
  · rw [hkey, hvalue]
    exact hv.imp id .inr
  · exact .inr (.inl howner)

/-- What a virtual call of a method on a value of a type reaches is called on the value, and has the signature of the
    method. -/
theorem dispatch (hP : P.Sound) (hT : P.Admits t) {c : Ty} {r : Method} (hc : c ∈ Ty.lineage P.object t)
    (hr : r ∈ P.symbols.allMethods c) (hst : r.isStatic = false) (hU : P.Admits (P.machine.typeOf h v))
    (hkey : (P.machine.typeOf h v).key = t.key) (hnull : v ≠ .null)
    (hv : t.isValue = true ∧ (P.machine.typeOf h v).isValue = true ∨ h.Belongs v t.key) :
    P.Taken h r (P.machine.virtualTarget h v r) v := by
  have direct : P.Taken h r r v :=
    ⟨(hP.method hT hc hr).1, hst, receives_of_owner (hP.method hT hc hr).2 (fun _ => hnull) (hv.imp_left And.left),
      Ty.sameList_refl _,
      Ty.same_iff.mpr rfl⟩
  unfold Machine.virtualTarget
  split
  · exact direct
  · rename_i hvirtual
    dsimp only
    rw [hP.host hU]
    cases hfound : List.findSome? _ _ with
    | none => exact direct
    | some q =>
      obtain ⟨c', hc', hq⟩ := List.exists_of_findSome?_eq_some hfound
      obtain ⟨e, he, hq⟩ := Option.bind_eq_some_iff.mp hq
      obtain ⟨y, hy, rfl⟩ := Option.map_eq_some_iff.mp hq
      have hsame := Array.find?_some hy
      simp only [Bool.and_eq_true, decide_eq_true_eq] at hsame
      obtain ⟨hmem, hyst, hret⟩ :=
        hP.target hT hU hkey hc hr (by simpa using hvirtual) hc' he (Array.mem_of_find?_eq_some hy) hsame.1.1 hsame.1.2
      obtain ⟨hprovided, howner⟩ := hP.method hU hc' hmem
      exact ⟨hprovided, hyst, receives_of_owner howner (fun _ => hnull) (hv.imp And.right fun hv => hkey.symm ▸ hv),
          hsame.2, hret⟩

end Values

/-! ### What instructions come to -/

/-- What the result of a call adds to the stack of the caller. -/
inductive Adds (h : Heap) (ret : Option Ty) : ResultUse → List Slot → Prop
  | push {t} : Ty.same ret (some t) = true → t.isVoid = false → Adds h ret .push [.value (some t)]
  | drop : Adds h ret .drop []
  | object {v t} : t.isVoid = false → h.Belongs v t.key → Adds h ret (.object v) [.value (some t)]

/-- A call begins whose result adds slots to the stack of the caller. -/
def Leads (P : Platform) (ts : List Text) (h : Heap) (use : ResultUse) (args : List Value) (A : List Slot)
    (e : Entered × World) : Prop :=
  ∃ ret, P.Enters ts h use ret args e ∧ ((∃ x, e.1 = .halt x) ∨ Adds e.2.heap ret use A)

/-- What an instruction comes to that leaves the slots `S'`: it goes on or jumps in a typed heap with these on the
    stack, calls what adds some of them, returns a value of the type of the method, or fails, where the platform is
    plain as expected. -/
def Acts (P : Platform) (ts : List Text) (h : Heap) (Γ : Setting) (S' : List Slot) (f : Frame) (i : Instr) :
    Effect × World → Prop
  | (.next g, w) => ∃ ts', P.Later ts h ts' w.heap ∧ P.Stacked ts' w.heap S' g.stack
  | (.jump g _, w) => w.heap = h ∧ P.Stacked ts h S' g.stack
  | (.call g use r args, w) => ∃ A S₀, S' = A ++ S₀ ∧ P.Stacked ts h S₀ g.stack ∧
      (args.getLast? = some .null → f.stack.head? = some .null) ∧
      ∀ levels, P.Leads ts h use args A (P.machine.enter use levels r args w)
  | (.ret v, w) => w.heap = h ∧ h.Returns (some Γ.scope.ret) v
  | (.fail c, w) => w.heap = h ∧ (P.plain → c.Expected i f.stack)
  | (.missing, _) => False

section Instructions
variable {w : World} {f g : Frame} {i : Instr} {S S' : List Slot} {t : Ty} {v : Value} {s : Slot}

theorem Acts.next (ht : P.Typed ts w.heap) (hS : P.Stacked ts w.heap S' g.stack) : P.Acts ts w.heap Γ S' f i (.next g, w) :=
  ⟨ts, .refl ht, hS⟩

theorem Acts.push (ht : P.Typed ts w.heap) (hS : P.Stacked ts w.heap S f.stack) (hv : P.Fits ts w.heap s v) :
    P.Acts ts w.heap Γ (s :: S) f i (.next (f.push v), w) := .next ht (.cons hv hS)

theorem Acts.fail {c : InstrCause} (hc : c.Expected i f.stack) : P.Acts ts w.heap Γ S' f i (.fail c, w) :=
  ⟨rfl, fun _ => hc⟩

/-- What only happens where the platform is not plain. -/
theorem Acts.confused (hplain : ¬P.plain) (c : InstrCause) : P.Acts ts w.heap Γ S' f i (.fail c, w) :=
  ⟨rfl, fun hp => absurd hp hplain⟩

/-- The receiver and the parameters of a method have types of values. -/
theorem args_hold (hΓ : Γ.Ok) {n : Nat} (hn : Γ.scope.args[n]? = some t) : Γ.Holds t := by
  rcases List.mem_append.mp (List.mem_of_getElem? hn) with hmem | hmem
  · split at hmem
    · cases hmem
    · rw [List.mem_singleton.mp hmem]
      exact hΓ.owner
  · obtain ⟨⟨x, k, u⟩, hp, rfl⟩ := List.mem_map.mp hmem
    exact (hΓ.arg hp).2

/-! ### Arguments and locals -/

/-- A cell of a frame that is loaded. -/
theorem loadCell_acts (ht : P.Typed ts w.heap) (hS : P.Stacked ts w.heap S f.stack) {c : Nat} (hc : ts[c]? = some t.key)
    (hn : t.isVoid = false) : P.Acts ts w.heap Γ (.value (some t) :: S) f i (f.loadCell w.heap (some c), w) :=
  .push ht hS (.value hn (ht.load hc))

theorem loadCellAddress_acts (ht : P.Typed ts w.heap) (hS : P.Stacked ts w.heap S f.stack) {c : Nat}
    (hc : ts[c]? = some t.key)
    (hn : t.isVoid = false) (hvalue : t.isValue = true) :
      P.Acts ts w.heap Γ (.address t :: S) f i (f.loadCellAddress (some c), w) :=
  .push ht hS (.place hvalue hn (.cell hc))

theorem storeCell_acts (hP : P.Sound) (ht : P.Typed ts w.heap) {u : Option Ty}
    (hS : P.Stacked ts w.heap (.value u :: S) f.stack)
    {c : Nat} (hc : ts[c]? = some t.key) (hT : P.Admits t) (ha : Ty.accepts (some t) u = true) :
    P.Acts ts w.heap Γ S f i (f.storeCell w (some c)) := by
  obtain ⟨v, rest, hstack, hv, hrest⟩ := hS.value
  have later := ht.store hc (hv.accepted hP hT ha)
  simp only [Frame.storeCell, Frame.storeTo, hstack]
  exact ⟨ts, later, hrest.later later.cells later.keeps⟩

/-! ### Operators -/

theorem arithmeticResult_expected {op : Opcode} {a b : Int32} {c : InstrCause}
    (hop : op ∈ [Opcode.add, .sub, .mul, .div, .rem, .and, .or, .cgt, .clt])
    (hc : arithmeticResult op a b = .error c) (i : Instr)
    (stack : List Value) : c.Expected i stack := by
  have cases : (∃ x, c = .divideByZero x) ∨ ∃ x n, c = .overflow x n := by
    simp only [List.mem_cons, List.not_mem_nil, or_false] at hop
    rcases hop with rfl | rfl | rfl | rfl | rfl | rfl | rfl | rfl | rfl <;>
        simp only [arithmeticResult] at hc <;> try cases hc
    all_goals
      split at hc
      · cases hc
        exact .inl ⟨_, rfl⟩
      · split at hc
        · cases hc
          exact .inr ⟨_, _, rfl⟩
        · cases hc
  rcases cases with ⟨x, rfl⟩ | ⟨x, n, rfl⟩
  · exact .of_code rfl i stack
  · exact .of_code rfl i stack

theorem execBinary_acts (ht : P.Typed ts w.heap) {op : Opcode} {a b u : Ty}
    (hop : op ∈ [Opcode.add, .sub, .mul, .div, .rem, .and, .or, .cgt, .clt]) (ha : a.IsNumber)
    (hb : b.IsNumber) (hu : u.IsNumber)
    (hS : P.Stacked ts w.heap (.value (some b) :: .value (some a) :: S) f.stack) :
    P.Acts ts w.heap Γ (.value (some u) :: S) f i (f.execBinary w.heap op, w) := by
  obtain ⟨y, rest, hstack, hy, hS⟩ := hS.value
  obtain ⟨x, rest, rfl, hx, hrest⟩ := hS.value
  cases hx with
  | value _ hx =>
  cases hy with
  | value _ hy =>
  obtain ⟨m, rfl⟩ := hx.number? ha.key
  obtain ⟨n, rfl⟩ := hy.number? hb.key
  simp only [Frame.execBinary, hstack, Heap.deref]
  cases hresult : arithmeticResult op m n with
  | ok k => exact .next ht (.cons (.value hu.notVoid (.number hu.key)) hrest)
  | error c => exact .fail (arithmeticResult_expected hop hresult i f.stack)

theorem execUnary_acts (ht : P.Typed ts w.heap) {op : Opcode} {a : Ty} (ha : a.IsNumber) (g : Int32 → Int32)
    (hS : P.Stacked ts w.heap (.value (some a) :: S) f.stack) :
    P.Acts ts w.heap Γ (.value (some a) :: S) f i (f.execUnary w.heap op g, w) := by
  obtain ⟨x, rest, hstack, hx, hrest⟩ := hS.value
  cases hx with
  | value _ hx =>
  obtain ⟨n, rfl⟩ := hx.number? ha.key
  simp only [Frame.execUnary, hstack, Heap.deref]
  exact .next ht (.cons (.value ha.notVoid (.number ha.key)) hrest)

theorem execEqual_acts (ht : P.Typed ts w.heap) {a b : Option Ty} (hname : t.name = TypeName.boolean)
    (hS : P.Stacked ts w.heap (.value b :: .value a :: S) f.stack) :
    P.Acts ts w.heap Γ (.value (some t) :: S) f i (f.execEqual w.heap, w) := by
  obtain ⟨y, rest, hstack, -, hS⟩ := hS.value
  obtain ⟨x, rest, rfl, -, hrest⟩ := hS.value
  have hnumber : t.IsNumber := .inr hname
  simp only [Frame.execEqual, hstack]
  exact .next ht (.cons (.value hnumber.notVoid (.number hnumber.key)) hrest)

/-! ### Calls -/

theorem popN?_of_stack {args rest : List Value} (hstack : f.stack = args.reverse ++ rest) :
    f.popN? args.length = some (args, { f with stack := rest }) := by
  simp [Frame.popN?, hstack]

/-- The last argument is on top of the stack. -/
theorem head_of_last {args rest : List Value} (hlast : args.getLast? = some v) : (args.reverse ++ rest).head? = some v := by
  rw [List.head?_append, List.head?_reverse, hlast]
  rfl

/-- What a method leaves is what a call of it adds. -/
theorem adds_result (h : Heap) {m : Method} (hm : m.ret = some t) :
    Adds h m.ret (if m.returnsVoid then .drop else .push) m.result := by
  have hvoid : m.returnsVoid = t.isVoid := by simp [Method.returnsVoid, hm]
  unfold Method.result
  rw [hvoid, hm]
  cases hv : t.isVoid with
  | true => exact .drop
  | false => exact .push (Ty.same_iff.mpr rfl) hv

/-- A call of what is provided for a method. -/
theorem leads_taken {m q : Method} {recv args : List Value} (ht : P.Typed ts w.heap) (hm : m.ret = some t)
    (hq : P.Provides q)
    (hrecv : P.Receivers w.heap q recv) (ha : w.heap.Takes args m.params) (hparams : Ty.sameList q.params m.params = true)
    (hret : Ty.same q.ret m.ret = true) (levels : Nat) :
    P.Leads ts w.heap (if m.returnsVoid then .drop else .push) (recv ++ args) m.result
      (P.machine.enter (if m.returnsVoid then .drop else .push) levels q (recv ++ args) w) :=
  ⟨m.ret, (hq.enters ht hrecv (ha.same (by rw [Ty.sameList_iff, Ty.sameList_iff.mp hparams])) _ levels).congr hret id,
    .inr (adds_result _ hm)⟩

/-- A method on a type, as the platform has it. -/
theorem methodOn (hf : P.Lives ts f Γ d) {m : Method} (hm : Γ.MethodOn t m) :
    P.Admits t ∧ ∃ c ∈ Ty.lineage P.object t, m ∈ P.symbols.allMethods c := by
  obtain ⟨ht, c, hc, hmem⟩ := hm
  rw [hf.runs.admits] at ht
  rw [hf.runs.object] at hc
  rw [hf.runs.symbols] at hmem
  exact ⟨ht, c, hc, hmem⟩

theorem params_admitted (hf : P.Lives ts f Γ d) {m : Method} (hm : Γ.MethodOn t m) :
    ∀ p ∈ m.params, ∃ t, p = some t ∧ P.Admits t := by
  intro p hp
  obtain ⟨u, hu, hU⟩ := hm.params hf.runs.ok p hp
  exact ⟨u, hu, hf.runs.admits ▸ hU.admits⟩

theorem callStatic_acts (hP : P.Sound) (ht : P.Typed ts w.heap) (hf : P.Lives ts f Γ d) {m : Method}
    {types : List (Option Ty)}
    (hst : m.isStatic = true) (hm : Γ.MethodOn t m) (hfits : Ty.fits m.params types = true)
    (hS : P.Stacked ts w.heap (Slot.arguments types ++ S) f.stack) :
    P.Acts ts w.heap Γ (m.result ++ S) f i (f.execCall P.machine w.heap .call m, w) := by
  obtain ⟨args, rest, hstack, hargs, hrest⟩ := hS.arguments
  obtain ⟨hT, c, hc, hmem⟩ := methodOn hf hm
  obtain ⟨r, hr, -⟩ := hm.ret hf.runs.ok
  have htakes := takes_of_fits hP hargs hfits (params_admitted hf hm)
  have hpop : f.popN? m.argCount = some (args, { f with stack := rest }) := by
    rw [Method.argCount, if_pos hst, ← htakes.length_eq]
    exact popN?_of_stack hstack
  simp only [Frame.execCall, hpop, hst, if_true]
  refine ⟨m.result, S, rfl, hrest, fun hlast => hstack ▸ head_of_last hlast, fun levels => ?_⟩
  have hrecv : P.Receivers w.heap m [] := by
    unfold Receivers
    rw [if_pos hst]
  exact leads_taken ht hr (hP.method hT hc hmem).1 hrecv htakes (Ty.sameList_refl _) (Ty.same_iff.mpr rfl) levels

/-- A receiver on the stack is null, or what a call on it reaches is called on it. -/
theorem receiver_taken (hP : P.Sound) (ht : P.Typed ts h) (hf : P.Lives ts f Γ d) {m : Method} {op : Opcode}
    (hst : m.isStatic = false)
    (hm : Γ.MethodOn t m) (hr : Setting.Receiver t op s) (hv : P.Fits ts h s v) :
    op = .callvirt ∧ v = .null ∨ (op = .call ∨ op = .callvirt) ∧ (h.deref v).isNull = false ∧
      P.Taken h m (if op = .callvirt then P.machine.virtualTarget h v m else m) v := by
  obtain ⟨hT, c, hc, hmem⟩ := methodOn hf hm
  cases hr with
  | object hvalue =>
    cases hv with
    | value _ hv =>
    by_cases hnull : v = .null
    · exact .inl ⟨rfl, hnull⟩
    · refine .inr ⟨.inr rfl, ?_, ?_⟩
      · rw [hv.knows.deref]
        cases v with
        | null => exact absurd rfl hnull
        | _ => rfl
      · rw [if_pos rfl]
        obtain ⟨hU, hkey⟩ := ht.typeOf hP hT hvalue hv hnull
        exact dispatch hP hT hc hmem hst hU hkey hnull (.inr hv)
  | place hvalue =>
    cases hv with
    | @place _ a _ hvoid hplace =>
    obtain ⟨hprovided, howner⟩ := hP.method hT hc hmem
    refine .inr ⟨.inl rfl, ?_, hprovided, hst,
        receives_of_owner howner (fun _ he => Value.noConfusion he) (.inl hvalue), Ty.sameList_refl _,
      Ty.same_iff.mpr rfl⟩
    rcases value_plain hP hT hvalue hvoid (hplace.load ht) with ⟨n, hn⟩ | ⟨q, hq⟩
    · simp [Heap.deref, hn, Value.isNull]
    · simp [Heap.deref, hq, Value.isNull]

theorem callInstance_acts (hP : P.Sound) (ht : P.Typed ts w.heap) (hf : P.Lives ts f Γ d) {m : Method} {op : Opcode}
    {types : List (Option Ty)} (hst : m.isStatic = false) (hm : Γ.MethodOn t m) (hfits : Ty.fits m.params types = true)
    (hr : Setting.Receiver t op s) (hS : P.Stacked ts w.heap (Slot.arguments types ++ s :: S) f.stack) :
    P.Acts ts w.heap Γ (m.result ++ S) f { op, operand := .method m } (f.execCall P.machine w.heap op m, w) := by
  obtain ⟨args, rest, hstack, hargs, hrest⟩ := hS.arguments
  obtain ⟨v, rest, rfl, hv, hrest⟩ := hrest.top (by rintro q rfl; cases hr)
  obtain ⟨r, hret, -⟩ := hm.ret hf.runs.ok
  have htakes := takes_of_fits hP hargs hfits (params_admitted hf hm)
  have hpop : f.popN? m.argCount = some (v :: args, { f with stack := rest }) := by
    rw [Method.argCount, if_neg (by rw [hst]; exact Bool.false_ne_true), ← htakes.length_eq]
    have hstack : f.stack = (v :: args).reverse ++ rest := by rw [hstack]; simp
    exact popN?_of_stack hstack
  simp only [Frame.execCall, hpop, hst, Bool.false_eq_true, if_false]
  rcases receiver_taken hP ht hf hst hm hr hv with ⟨rfl, rfl⟩ | ⟨-, hnull, htaken⟩
  · refine .fail (.of_null rfl ?_)
    have heffect : Instr.effect none { op := .callvirt, operand := .method m } = (m.argCount, m.result.length) := by
      simp [Instr.effect, stackEffect, Setting.result_length]
    have hlen : args.reverse.length = m.argCount - 1 := by
      rw [List.length_reverse, htakes.length_eq, Method.argCount, if_neg (by rw [hst]; exact Bool.false_ne_true),
          Nat.add_sub_cancel]
    show f.stack[(Instr.effect none { op := .callvirt, operand := .method m }).1 - 1]? = _
    rw [heffect, hstack, List.getElem?_append_right (by omega), hlen, Nat.sub_self]
    rfl
  · simp only [hnull, Bool.false_eq_true, if_false]
    refine ⟨m.result, S, rfl, hrest, fun hlast => ?_, fun levels => ?_⟩
    · rw [hstack]
      have hhead : ((v :: args).reverse ++ rest).head? = some _ := head_of_last hlast
      simpa using hhead
    · have hrecv : P.Receivers w.heap (if op = .callvirt then P.machine.virtualTarget w.heap v m else m) [v] := by
        unfold Receivers
        rw [if_neg (by rw [htaken.isStatic]; exact Bool.false_ne_true)]
        exact ⟨v, rfl, htaken.receives⟩
      exact leads_taken ht hret htaken.provided hrecv htakes htaken.params htaken.ret levels

/-- The constructor of the root of all types, called on the receiver of a constructor. -/
theorem callBase_acts (hP : P.Sound) (ht : P.Typed ts w.heap) (hf : P.Lives ts f Γ d) {c : Method}
    (hc : c ∈ Γ.symbols.ctorsOf Γ.scope.roles.object) (hp : c.params = [])
    (hS : P.Stacked ts w.heap (.value (some t) :: S) f.stack) :
    P.Acts ts w.heap Γ S f { op := .call, operand := .ctor c } (f.execCtorCall w.heap c, w) := by
  rw [hf.runs.symbols, hf.runs.object] at hc
  obtain ⟨hprovided, hst, howner⟩ := hP.base hc
  obtain ⟨v, rest, hstack, hv, hrest⟩ := hS.value
  cases hv with
  | value _ hv =>
  have hcount : c.argCount = 1 := by
    rw [Method.argCount, if_neg (by rw [hst]; exact Bool.false_ne_true), hp]
    rfl
  have hpop : f.popN? c.argCount = some ([v], { f with stack := rest }) := by
    rw [hcount]
    have hstack : f.stack = [v].reverse ++ rest := hstack
    exact popN?_of_stack hstack
  simp only [Frame.execCtorCall, hpop, hv.knows.deref]
  split
  · rename_i hnull
    have hnull : v = .null := by
      cases v with
      | null => rfl
      | _ => cases hnull
    refine .fail (.of_null rfl ?_)
    have heffect : Instr.effect none { op := .call, operand := .ctor c } = (1, 0) := by simp [Instr.effect, stackEffect, hp]
    show f.stack[(Instr.effect none { op := .call, operand := .ctor c }).1 - 1]? = _
    rw [heffect, hstack, hnull]
    rfl
  · rename_i hnull
    refine ⟨[], S, rfl, hrest, fun hlast => ?_, fun levels => ?_⟩
    · rw [hstack]
      exact hlast
    · have hrecv : P.Receivers w.heap c [v] := by
        unfold Receivers
        rw [if_neg (by rw [hst]; exact Bool.false_ne_true)]
        exact ⟨v, rfl, receives_of_owner (t := t) (.inr howner) (fun _ he => hnull (by rw [he]; rfl)) (.inr hv)⟩
      have htakes : w.heap.Takes [] c.params := by
        rw [hp]
        exact .nil
      exact ⟨c.ret, hprovided.enters ht hrecv htakes .drop levels, .inr .drop⟩

end Instructions

end Platform
end CilCompiler
