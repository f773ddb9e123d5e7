import CilCompiler.Proofs.Compilation.Stages
import CilCompiler.Proofs.Lowering.Conversion
import CilCompiler.Proofs.Machine.Delegates
import CilCompiler.Proofs.StackBalance

/-! Delegates are transparent. In a compiled program every method that is made a delegate has the delegate's
    signature, and a call of the delegate goes like a call of the method: on the receiver itself, with virtual
    dispatch, or on a place that holds what the receiver was, where it was a value. -/

namespace CilCompiler

/-! ### The code of a conversion in the finished body -/

theorem Draft.ResolvesTo.hasAt {D : Draft} {b : Body} (hr : D.ResolvesTo b.code) {js after : List Instr}
    (before : List Instr)
    (hcode : D.code.toList = before ++ js ++ after) (hb : ∀ i ∈ js, i.expanded.op.isBranch = false) :
    b.HasAt before.length (js.map Instr.expanded) := by
  induction js generalizing before with
  | nil => trivial
  | cons i js ih =>
    have hi : D.code[before.length]? = some i := by
      rw [← Array.getElem?_toList, hcode]
      simp
    have hplain : i.op.isBranch = false := by
      by_contra hbranch
      have hbranch : i.op.isBranch = true := by simpa using hbranch
      have hexp := hb i List.mem_cons_self
      rw [Instr.expanded_of_branch hbranch, hbranch] at hexp
      cases hexp
    obtain ⟨j, hj, hres⟩ := hr.each hi
    have hrest := ih (before ++ [i]) (by simp [hcode]) fun j hj => hb j (List.mem_cons_of_mem _ hj)
    rw [List.length_append, List.length_singleton] at hrest
    exact ⟨⟨j, hj, by rw [hres.plain hplain]⟩, hrest⟩

theorem Lower.Conversion.code_plain (k : Lower.Conversion) (c : Scope) (r : Method) :
    ∀ i ∈ k.code c r, i.op.isBranch = false := by
  intro i hi
  unfold code receiverCode boundCode at hi
  simp only [List.mem_append, List.mem_singleton] at hi
  rcases hi with hi | rfl
  · split at hi
    · simp only [List.mem_cons, List.not_mem_nil, or_false] at hi
      rcases hi with rfl | rfl <;> rfl
    · simp only [List.mem_append, List.mem_cons, List.not_mem_nil, or_false] at hi
      rcases hi with hi | hi | rfl | rfl
      · cases hs : k.source with
        | own =>
          rw [hs] at hi
          cases List.mem_singleton.mp hi
          rfl
        | type t =>
          rw [hs] at hi
          cases hi
        | object t =>
          rw [hs] at hi
          cases hi
      · split at hi
        · cases List.mem_singleton.mp hi
          rfl
        · cases hi
      · rfl
      · rfl
  · rfl

/-- The code of a conversion stands in the finished body. -/
theorem Lower.Conversion.code_hasAt {D : Draft} {b : Body} (hr : D.ResolvesTo b.code) {k : Lower.Conversion}
    {c : Scope} {r : Method}
    {w : Work} (ha : k.work.Adds w (k.code c r)) (hw : w.draft.code.toList <+: D.code.toList) :
    b.HasAt k.work.draft.code.size (k.code c r) := by
  obtain ⟨js, hjs, hcode⟩ := ha
  obtain ⟨after, hafter⟩ := hw
  have hall : D.code.toList = k.work.draft.code.toList ++ js ++ after := by rw [← hafter, hjs]
  have hat := hr.hasAt _ hall fun i hi => k.code_plain c r _ (hcode ▸ List.mem_map_of_mem hi)
  rwa [hcode, Array.length_toList] at hat

/-! ### Values and their methods -/

namespace Compilation

/-- The methods that can be called on values of a type of the catalog, nearest first. -/
def hostMethods (t : Ty) : List Method :=
  (Ty.lineage hostRoles.object t).flatMap fun u =>
    match hostModule.def? u with
    | some d => d.methods.toList.map Routine.method
    | none => []

/-- The method that a virtual call of `r` on a box with a value of a type of the catalog reaches. -/
def hostTarget (t : Ty) (r : Method) : Option Method :=
  (Ty.lineage hostRoles.object t).findSome? fun u => (hostModule.def? u).bind fun d =>
    (d.methods.find? fun x =>
      x.method.name = r.name && x.method.isVirtual && Ty.sameList x.method.params r.params).map Routine.method

/-- The bases of a value type are of the catalog, and a method that is the nearest of its name and signature is the
    one that a virtual call reaches, and does the same on a box. -/
theorem host_values : ∀ e ∈ hostModule.types.toList, e.type.isValue = true → e.type.isVoid = false →
    (∀ u ∈ Ty.lineage hostRoles.object e.type, ∃ d ∈ hostModule.types.toList, d.type = u) ∧
    ∀ r ∈ hostMethods e.type, (hostMethods e.type).find? (fun q => q.name = r.name && (q.isStatic == r.isStatic) &&
        (Ty.sameList q.params r.params && Ty.same q.ret r.ret)) = some r → r.isStatic = false →
      (r.isVirtual = true → hostTarget e.type r = some r) ∧
      ((hostModule.routine? r).bind Routine.native).any
      (fun n => n.isOfValues e.type r.params && (n != .objectEquals || r.name = "Equals")) =
        true := by
  decide +kernel

namespace Stages
variable {p : Program} {c₀ c c₁ c₂ : Compilation} {f : Method → Draft}

/-- Value types are of the catalog. -/
theorem value_host (h : Stages p c₀ c c₁ c₂ f) {t : Ty} (ht : c₀.module.Knows t) (hv : t.isValue = true) :
    ∃ e ∈ hostModule.types.toList, e.type = t := by
  have harray : t.isArray = false := by
    cases t with
    | array e => cases hv
    | root d => rfl
    | derived d b => rfl
  obtain ⟨e, he, rfl⟩ := (Module.knows_iff harray).mp ht
  obtain ⟨i, hi⟩ := Array.mem_iff_getElem?.mp (Array.mem_toList_iff.mp he)
  rcases h.described.laid.cases hi with ⟨-, hhost⟩ | ⟨k, d, attrs, -, hd, rfl⟩
  · exact ⟨e, hhost, rfl⟩
  · obtain ⟨-, htyped, -⟩ := h.described.laid.blank hd
    rw [htyped.isValue] at hv
    cases hv

theorem hostModule_def? {e : TypeDef} (he : e ∈ hostModule.types.toList) : hostModule.def? e.type = some e := by
  obtain ⟨i, hi⟩ := Array.mem_iff_getElem?.mp (Array.mem_toList_iff.mp he)
  exact Module.Shaped.def? hostModule_shaped hi

section Values
variable (h : Stages p c₀ c c₁ c₂ f) {e : TypeDef} (he : e ∈ hostModule.types.toList) (hv : e.type.isValue = true)
  (hvoid : e.type.isVoid = false)
include h he hv hvoid

theorem methodsAlong_host {s : Symbols} (hs : c.symbols.Extends s) (name : Text) :
    s.methodsAlong hostRoles.object e.type name = (hostMethods e.type).filter fun q => q.name = name := by
  unfold Symbols.methodsAlong hostMethods
  rw [List.filter_flatMap]
  refine List.flatMap_congr fun u hu => ?_
  obtain ⟨d, hd, rfl⟩ := (host_values e he hv hvoid).1 u hu
  obtain ⟨i, -, hi⟩ := h.described.host_def hd
  rw [Symbols.methodsOf, hs.allMethods, (h.described.coherent.lists hi).methods, hostModule_def? hd]

/-- The method that is taken from a value is the nearest of its name and signature. -/
theorem chosen_nearest {k : Lower.Conversion} {scope : Scope} (hroles : scope.roles = hostRoles)
    (hs : k.source = .object e.type)
    (hreads : c.symbols.Extends k.work.symbols) {r : Method} (hr : k.Chooses scope r) :
    r ∈ hostMethods e.type ∧ (hostMethods e.type).find? (fun q => q.name = r.name && (q.isStatic == r.isStatic) &&
      (Ty.sameList q.params r.params && Ty.same q.ret r.ret)) = some r ∧ r.isStatic = false := by
  have hfits := hr.fits
  have hst : r.isStatic = false := by
    have := hfits.admitted
    simpa [Lower.Conversion.admits, hs] using this
  have howner : k.owner scope = e.type := by rw [Lower.Conversion.owner, hs]
  have hname : r.name = k.name := by
    obtain ⟨_, -, -, hn⟩ := Symbols.mem_methodsAlong.mp hfits.mem
    exact hn
  have honly : k.only scope = some false := by rw [Lower.Conversion.only, hs]
  have hfind : (hostMethods e.type).find? (fun q => q.name = k.name && ((q.isStatic == false) &&
      (Ty.sameList q.params k.delegate.params && Ty.same q.ret k.delegate.ret))) = some r := by
    unfold Lower.Conversion.Chooses Symbols.delegateTarget at hr
    rw [howner, honly, hroles, methodsAlong_host h he hv hvoid hreads] at hr
    dsimp only at hr
    split at hr
    · rename_i q hq
      cases hr
      rw [List.find?_filter, List.find?_filter] at hq
      simpa only [Option.all_some, Bool.decide_and, Bool.decide_eq_true] using hq
    · split at hr <;> cases hr
  refine ⟨List.mem_of_find?_eq_some hfind, ?_, hst⟩
  rw [← hfind]
  congr 1
  funext q
  have hparams := Ty.sameList_iff.mp hfits.params
  have hret : r.ret.map Ty.name = k.delegate.ret.map Ty.name := of_decide_eq_true hfits.ret
  have sameParams : Ty.sameList q.params r.params = Ty.sameList q.params k.delegate.params := by
    rw [Bool.eq_iff_iff, Ty.sameList_iff, Ty.sameList_iff, hparams]
  have sameRet : Ty.same q.ret r.ret = Ty.same q.ret k.delegate.ret := by
    unfold Ty.same
    rw [hret]
  rw [sameParams, sameRet, hname, hst, Bool.and_assoc]

end Values

/-- Virtual methods are not static. -/
theorem isStatic_of_virtual (h : Stages p c₀ c c₁ c₂ f) {i : Nat} {e : TypeDef}
    (he : c₂.module.types[i]? = some e) {y : Routine}
    (hy : y ∈ e.methods.toList) (hvirtual : y.method.isVirtual = true) : y.method.isStatic = false := by
  have host : ∀ e ∈ hostModule.types.toList, ∀ y ∈ e.methods.toList, y.method.isVirtual = true →
      y.method.isStatic = false := by
    decide +kernel
  by_cases hi : i < Module.hostCount
  · rw [h.host hi] at he
    exact host e (Array.mem_toList_iff.mpr (Array.mem_of_getElem? he)) y hy hvirtual
  · obtain ⟨-, -, hsize, -⟩ := h.generated.finish h.described h.finished
    have hlt := (Array.getElem?_eq_some_iff.mp he).1
    have hlen := h.described.length
    have hcount := h.described.size
    have hk : c.types[i - Module.hostCount]? = some c.types[i - Module.hostCount] := List.getElem?_eq_getElem (by omega)
    obtain ⟨-, e₀, he₀, hm⟩ := h.described.made hk
    have hdef := h.definition he₀
    rw [show Module.hostCount + (i - Module.hostCount) = i by omega, he] at hdef
    cases hdef
    obtain ⟨y₁, hy₁, rfl⟩ :=
      List.mem_map.mp (by simpa [TypeDef.finished] using hy : y ∈ (e₀.withDrafts f).methods.toList.map Routine.finished)
    obtain ⟨y₀, hy₀, rfl⟩ :=
      List.mem_map.mp (by simpa [TypeDef.withDrafts] using hy₁ : y₁ ∈ e₀.methods.toList.map (Routine.withDraft f))
    rw [Routine.method_finished] at hvirtual ⊢
    unfold Made at hm
    split at hm
    · obtain ⟨x, hx, hxy⟩ := List.mem_map.mp (hm.members ▸ List.mem_map_of_mem (List.mem_append_right _ hy₀))
      obtain ⟨_, -, hdecl⟩ := Described.forall₂_mem hm.declares hx
      have hnot := hdecl.isVirtual
      rw [hxy] at hnot
      rw [show (y₀.withDraft f).method = y₀.method from rfl, hnot] at hvirtual
      cases hvirtual
    · obtain ⟨ctor, invoke, -, hmethods, -, -, -, -, -, hst, -⟩ := hm.routines
      rw [hmethods] at hy₀
      cases List.mem_singleton.mp hy₀
      exact hst

end Stages
end Compilation

/-! ### What conversions do -/

/-- A call instruction, and the receiver that it finds on the stack below the arguments. -/
structure Call where
  op : Opcode
  method : Method
  receiver : List Value := []

namespace Machine

/-- Wherever one call is made with some arguments, it goes on like another made there instead: to the same frames, the
    same world and the same outcome at every step, unless calls go too deep. -/
def CallsLike (m : Machine) (w : World) (args : List Value) (a b : Call) : Prop :=
  ∀ (f : Frame) (pc : Nat) (S : List Value) (rest : List Frame) (steps n : Nat),
    (m.run n (m.callFrom (f.place pc (args.reverse ++ (a.receiver ++ S))) rest w steps a.op a.method)).Alike
      (m.run n (m.callFrom (f.place pc (args.reverse ++ (b.receiver ++ S))) rest w steps b.op b.method))

/-- The `n` instructions at a place take `before` off the stack and leave a delegate. In every world that keeps what
    there was, a call of the delegate goes like the calls that are `like` it. -/
def Makes (m : Machine) (f : Frame) (w : World) (pc n : Nat) (before : List Value) (invoke : Method)
    (like : World → List Value → Call → Prop) : Prop :=
  ∀ (S : List Value) (rest : List Frame) (steps : Nat), ∃ id w',
    m.run n (.running { frames := f.place pc (before ++ S) :: rest, world := w, steps }) =
      .running { frames := f.place (pc + n) (.obj id :: S) :: rest, world := w', steps := steps + n } ∧
    w.heap.Keeps w'.heap ∧ ∀ w'' args call, w'.heap.Keeps w''.heap → like w'' args call →
      m.CallsLike w'' args { op := .callvirt, method := invoke, receiver := [.obj id] } call

variable {m : Machine} {f : Frame} {w : World} {pc : Nat} {e : TypeDef} {ctor invoke r : Method} {v : Value}

/-- A delegate that was made is still there, with its receiver and its method. -/
theorem makeDelegate_later {target : Value} {method : Method} {w' : World}
    (hk : (m.makeDelegate e w target method).2.heap.Keeps w'.heap) :
    ∃ o, w'.heap.objects[(m.makeDelegate e w target method).1]? = some o ∧ o.type = e.type ∧ o.target = target ∧
      o.method = some method := by
  obtain ⟨first, tag, ho⟩ := w.makeObject_get m.module e fun o => { o with target, method := some method }
  obtain ⟨buffer, ho'⟩ := hk.objects ho
  exact ⟨_, ho', rfl, rfl, rfl⟩

theorem static_realized (hm : m.isCanceled = false) (hd : m.HasDelegate e ctor invoke) (hst : r.isStatic = true)
    (hsame : SameCall r invoke)
    (hcode : f.body.HasAt pc [{ op := .ldnull }, { op := .ldftn, operand := .method r },
      { op := .newobj, operand := .ctor ctor }]) :
    m.Makes f w pc 3 [] invoke fun _ args call => args.length = r.params.length ∧ call = { op := .call, method := r } := by
  intro S rest steps
  refine ⟨_, _, static_makes hm hd hcode, World.makeObject_keeps .., ?_⟩
  rintro w'' args call hk ⟨hlen, rfl⟩ g pc' S' rest' steps' n
  obtain ⟨o, ho, htype, -, hmethod⟩ := makeDelegate_later hk
  exact static_alike hd ho htype hmethod hst hsame (hlen.trans hsame.arity) n

theorem bound_realized (hm : m.isCanceled = false) (hd : m.HasDelegate e ctor invoke) (hst : r.isStatic = false)
    (htarget : ∀ h u, (m.virtualTarget h u r).isStatic = false) (hsame : SameCall r invoke) (hv : w.heap.Knows v)
    (hnull : v ≠ .null)
    (hcode : f.body.HasAt pc [{ op := .dup }, { op := .ldvirtftn, operand := .method r },
      { op := .newobj, operand := .ctor ctor }]) :
    m.Makes f w pc 3 [v] invoke fun _ args call =>
      args.length = r.params.length ∧ call = { op := .callvirt, method := r, receiver := [v] } := by
  intro S rest steps
  have notNull : ∀ h : Heap, (h.deref v).isNull = false := by
    intro h
    rw [hv.deref]
    cases v with
    | null => exact absurd rfl hnull
    | _ => rfl
  have hkept : w.heap.Keeps (m.makeDelegate e w v (m.virtualTarget w.heap v r)).2.heap := World.makeObject_keeps ..
  refine ⟨_, _, bound_makes hm hd (notNull _) hcode, hkept, ?_⟩
  rintro w'' args call hk ⟨hlen, rfl⟩ g pc' S' rest' steps' n
  obtain ⟨o, ho, htype, hrecv, hmethod⟩ := makeDelegate_later hk
  rw [← (hkept.trans hk).virtualTarget hv] at hmethod
  exact bound_alike hd ho htype hrecv (notNull _) hmethod hst (htarget _ _) hsame (hlen.trans hsame.arity) n

/-- A box that was made holds the value. -/
theorem makeBox_made (m : Machine) (e : TypeDef) (w : World) (v : Value) : ∃ box w', m.makeBox e w v = (box, w') ∧
    w.heap.Keeps w'.heap ∧ ∃ o, w'.heap.objects[box]? = some o ∧ o.type = e.type ∧ o.boxed = some v := by
  obtain ⟨first, tag, ho⟩ := w.makeObject_get m.module e fun o => { o with boxed := some v }
  exact ⟨(m.makeBox e w v).1, (m.makeBox e w v).2, rfl, World.makeObject_keeps .., _, ho, rfl, rfl⟩

/-- A member of values called on a box, and on a place that holds what is in it. -/
theorem enter_box {x : Routine} {n : Native} {t : Ty} {id : Nat} {a : Address} {args : List Value}
    (hx : m.routine? r = some x)
    (hnative : x.native = some n) (hn : n.isOfValues t r.params = true) (hb : w.heap.Boxes id t v) (ha : w.heap.load a = v)
    (hargs : n = .objectEquals → List.Forall₂ (fun v t => ∃ u, t = some u ∧ w.heap.Has v u.name) args r.params)
    (use : ResultUse) (levels : Nat) :
    m.enter use levels r (.obj id :: args) w = m.enter use levels r (.addr a :: args) w := by
  cases levels with
  | zero => rfl
  | succ levels =>
    rw [enter_succ, enter_succ]
    unfold opening
    simp only [hx, hnative, Native.run_box hn hb ha hargs]
    cases n.run m.module w (.addr a :: args) with
    | mk result w' => cases result <;> rfl

theorem boxed_realized (hm : m.isCanceled = false) (hd : m.HasDelegate e ctor invoke) (hst : r.isStatic = false)
    {e₀ : TypeDef} (he₀ : m.def? e₀.type = some e₀) (hvalue : e₀.type.isValue = true)
    (hbox : ∀ {h : Heap} {id : Nat} {o : Obj}, h.objects[id]? = some o → o.type = e₀.type →
      m.virtualTarget h (.obj id) r = r)
    {x : Routine} {n : Native} (hx : m.routine? r = some x) (hnative : x.native = some n)
    (hn : n.isOfValues e₀.type r.params = true) (hname : n = .objectEquals → r.name = "Equals") (hsame : SameCall r invoke)
    {u : Value} (hu : w.heap.deref v = u)
    (hv : (∃ i, u = .int i) ∨ ∃ q, u = .func q)
    (hcode : f.body.HasAt pc [{ op := .box, operand := .type e₀.type }, { op := .dup },
      { op := .ldvirtftn, operand := .method r },
      { op := .newobj, operand := .ctor ctor }]) :
    m.Makes f w pc 4 [v] invoke fun w'' args call => args.length = r.params.length ∧
      (r.name = "Equals" → List.Forall₂ (fun v t => ∃ u, t = some u ∧ w''.heap.Has v u.name) args r.params) ∧
        ∃ a, w''.heap.load a = u ∧ call = { op := .call, method := r, receiver := [.addr a] } := by
  intro S rest steps
  have hnull : u.isNull = false := by
    rcases hv with ⟨i, rfl⟩ | ⟨q, rfl⟩ <;> rfl
  obtain ⟨box, w₁, hmade, hkept, y, hy, hytype, hboxed⟩ := makeBox_made m e₀ w u
  have hkept' : w₁.heap.Keeps (m.makeDelegate e w₁ (.obj box) r).2.heap := World.makeObject_keeps ..
  refine ⟨(m.makeDelegate e w₁ (.obj box) r).1, (m.makeDelegate e w₁ (.obj box) r).2, ?_, hkept.trans hkept', ?_⟩
  · refine (box_makes hm hvalue he₀ hcode 3).trans ?_
    rw [hu, hmade]
    refine (bound_makes hm hd rfl hcode.2).trans ?_
    rw [hbox hy hytype]
    rfl
  rintro w'' args call hk ⟨hlen, hargs, a, ha, rfl⟩ g pc' S' rest' steps' n'
  obtain ⟨o, ho, htype, hrecv, hmethod⟩ := makeDelegate_later hk
  obtain ⟨buffer, hy'⟩ := (hkept'.trans hk).objects hy
  have hboxes : w''.heap.Boxes box e₀.type u := ⟨⟨_, hy', hytype, hboxed⟩, hv⟩
  have hlater : m.virtualTarget w''.heap (.obj box) r = r := hbox hy' hytype
  have hplace : (w''.heap.deref (.addr a)).isNull = false := by
    show (w''.heap.load a).isNull = false
    rw [ha]
    exact hnull
  have direct : m.callFrom (g.place pc' (args.reverse ++ .obj box :: S')) rest' w'' steps' .callvirt r =
      m.callFrom (g.place pc' (args.reverse ++ .addr a :: S')) rest' w'' steps' .call r := by
    rw [callFrom_instance hst hlen rfl, callFrom_instance hst hlen hplace, if_pos rfl, if_neg (by decide), hlater,
      enter_box hx hnative hn hboxes ha (hargs ∘ hname)]
  have halike :
      (m.run n' (m.callFrom (g.place pc' (args.reverse ++ .obj (m.makeDelegate e w₁ (.obj box) r).1 :: S')) rest' w'' steps'
      .callvirt invoke)).Alike
        (m.run n' (m.callFrom (g.place pc' (args.reverse ++ .obj box :: S')) rest' w'' steps' .callvirt r)) :=
    bound_alike hd ho htype hrecv rfl (by rw [hlater]; exact hmethod) hst (by rw [hlater]; exact hst) hsame
      (hlen.trans hsame.arity) n'
  rw [direct] at halike
  exact halike

end Machine

/-! ### Delegates of compiled programs -/

namespace Lower.Conversion

/-- What the code of a conversion takes off the stack, for a receiver: the object that the method is taken from. -/
def taken (k : Conversion) (v : Value) : List Value :=
  match k.source with
  | .object _ => [v]
  | .own | .type _ => []

/-- A value is the receiver of a conversion in a frame: it stands on the stack, or the frame's member was called on it. -/
def Receives (k : Conversion) (f : Frame) (h : Heap) (v : Value) : Prop :=
  k.source = .own → ∃ cell, f.arg? 0 = some cell ∧ h.load (.cell cell) = v

end Lower.Conversion

namespace Machine
variable {m : Machine} {f : Frame} {w : World} {pc : Nat} {invoke : Method} {v : Value}

/-- The code of a conversion of the method `r`, `n` instructions from `pc` on, does in a frame and a world what is meant. -/
structure Realizes (m : Machine) (k : Lower.Conversion) (owner : Ty) (r invoke : Method) (pc n : Nat)
    (f : Frame) (w : World) :
    Prop where
  /-- Calling the delegate of a static method is calling the method. -/
  static : r.isStatic = true → m.Makes f w pc n [] invoke fun _ args call =>
    args.length = r.params.length ∧ call = { op := .call, method := r }
  /-- Calling the delegate of an object's method is calling the method on the object. -/
  object : r.isStatic = false → owner.isValue = false → ∀ v, k.Receives f w.heap v → w.heap.Knows v → v ≠ .null →
    m.Makes f w pc n (k.taken v) invoke fun _ args call =>
      args.length = r.params.length ∧ call = { op := .callvirt, method := r, receiver := [v] }
  /-- Calling the delegate of a value's method is calling the method on a place that holds what the value was. The
      delegate's receiver is a box, and of the methods of values `Equals` alone tells a box from a place: another box
      with the value is equal to the one, the value itself to the other. As an object compiled code hands over
      neither, since a value is an object nowhere but as the receiver of a delegate. So the argument of `Equals` is
      asked to be one of its parameter's type. -/
  value : r.isStatic = false → owner.isValue = true → ∀ v u, k.Receives f w.heap v → w.heap.deref v = u →
    w.heap.Has u owner.name →
    m.Makes f w pc n (k.taken v) invoke fun w' args call => args.length = r.params.length ∧
      (r.name = "Equals" → List.Forall₂ (fun v t => ∃ u, t = some u ∧ w'.heap.Has v u.name) args r.params) ∧
        ∃ a, w'.heap.load a = u ∧ call = { op := .call, method := r, receiver := [.addr a] }
  /-- A method of no object makes no delegate. -/
  null : r.isStatic = false → owner.isValue = false → k.Receives f w.heap .null → ∀ S rest steps, ∃ n' ≤ n, ∃ fault,
    m.run n' (.running { frames := f.place pc (k.taken .null ++ S) :: rest, world := w, steps }) =
      .halted (.fault fault) w ∧
      fault.code? = some Code.nullReference

/-- The receiver of the member is put on the stack first. -/
theorem own_loads (hm : m.isCanceled = false) {cell : Nat} (hcell : f.arg? 0 = some cell)
    (hv : w.heap.load (.cell cell) = v)
    {is : List Instr} (hcode : f.body.HasAt pc ({ op := .ldarg, operand := .int 0 } :: is)) (S : List Value)
    (rest : List Frame)
    (steps n : Nat) : m.run (n + 1) (.running { frames := f.place pc S :: rest, world := w, steps }) =
      m.run n (.running { frames := f.place (pc + 1) (v :: S) :: rest, world := w, steps := steps + 1 }) := by
  obtain ⟨⟨i, hi, hlong⟩, -⟩ := hcode
  refine run_next hm hi hlong ?_ n
  have harg : (f.place pc S).arg? 0 = some cell := hcell
  show ((f.place pc S).loadCell w.heap ((f.place pc S).arg? 0), w) = _
  rw [harg, Frame.loadCell, hv]
  rfl

/-- The receiver is on the stack when the rest of the code begins. -/
theorem receiver_loads {k : Lower.Conversion} (hm : m.isCanceled = false) (hv : k.Receives f w.heap v)
    (hsource : ∀ t, k.source ≠ .type t) {is : List Instr} (hcode : f.body.HasAt pc (k.receiverCode ++ is)) :
    f.body.HasAt (pc + k.receiverCode.length) is ∧ ∀ S rest steps n,
      m.run (n + k.receiverCode.length) (.running { frames := f.place pc (k.taken v ++ S) :: rest, world := w, steps }) =
        m.run n (.running { frames := f.place (pc + k.receiverCode.length) (v :: S) :: rest, world := w
                            steps := steps + k.receiverCode.length }) := by
  unfold Lower.Conversion.Receives at hv
  unfold Lower.Conversion.taken Lower.Conversion.receiverCode at *
  cases hs : k.source with
  | own =>
    rw [hs] at hcode
    obtain ⟨cell, hcell, hload⟩ := hv hs
    exact ⟨hcode.2, own_loads hm hcell hload hcode⟩
  | type t => exact absurd hs (hsource t)
  | object t =>
    rw [hs] at hcode
    exact ⟨hcode, fun S rest steps n => rfl⟩

/-- Code that makes a delegate of a receiver on the stack makes one when the receiver has been put there. -/
theorem Makes.of_loads {like : World → List Value → Call → Prop} {n l : Nat} {before : List Value}
    (hl : ∀ S rest steps n, m.run (n + l) (.running { frames := f.place pc (before ++ S) :: rest, world := w, steps }) =
      m.run n (.running { frames := f.place (pc + l) (v :: S) :: rest, world := w, steps := steps + l }))
    (h : m.Makes f w (pc + l) n [v] invoke like) : m.Makes f w pc (n + l) before invoke like := by
  intro S rest steps
  obtain ⟨id, w', hrun, hmade⟩ := h S rest (steps + l)
  refine ⟨id, w', ?_, hmade⟩
  rw [hl S rest steps n]
  refine hrun.trans ?_
  rw [show pc + l + n = pc + (n + l) by omega, show steps + l + n = steps + (n + l) by omega]

end Machine

namespace Compilation.Stages
variable {p : Program} {c₀ c c₁ c₂ : Compilation} {f : Method → Draft} {m : Machine} {M : Module}
    {D : Delegate} {e : TypeDef}
  {r invoke : Method} {k : Lower.Conversion} {x : Member}

theorem DelegateDefined.hasDelegate (h : DelegateDefined M D e invoke) (hm : m.Loads M) :
    m.HasDelegate e D.ctor invoke where
  definition := (hm.def? _).trans h.definition
  isDelegate := h.isDelegate
  owner := h.owner
  params := by rw [h.params]; rfl
  made := by
    obtain ⟨y, hy, himpl, -⟩ := h.made
    exact ⟨y, (hm.routine? _).trans hy, himpl⟩
  called := by
    obtain ⟨y, hy, -, himpl, hnative⟩ := h.called
    exact ⟨y, (hm.routine? _).trans hy, himpl, hnative⟩
  name := h.name
  isStatic := h.isStatic
  only := h.only

theorem DelegateDefined.invoke? (h : DelegateDefined M D e invoke) : M.invoke? D.type = some invoke := by
  have hmethods : e.methods.toList.map Routine.method = [invoke] := by
    rw [← Array.toList_map, h.only]
  have hselects : Binding.instances.selects false = true := by decide
  simp only [Module.invoke?, Module.methods, ← h.type, h.definition, hmethods, List.filter_cons, h.isStatic,
      hselects, if_true,
    List.filter_nil, h.name, decide_true]

theorem DelegateDefined.sameCall {scope : Scope} (h : DelegateDefined M k.delegate e invoke) (hr : k.Fits scope r) :
    Machine.SameCall r invoke := by
  obtain ⟨hparams, hret⟩ := h.signature
  have hnames : r.ret.map Ty.name = invoke.ret.map Ty.name := by
    rw [hret]
    exact of_decide_eq_true hr.ret
  constructor
  · have := congrArg List.length (Ty.sameList_iff.mp hr.params)
    rwa [List.length_map, List.length_map, ← hparams] at this
  · have isVoid : ∀ q : Method, q.returnsVoid = (q.ret.map Ty.name).any (· = TypeName.void) := by
      intro q
      unfold Method.returnsVoid
      cases q.ret <;> rfl
    rw [isVoid, isVoid, hnames]

/-- A call of a method that needs a receiver reaches one that needs a receiver. -/
theorem dispatch_instance (h : Stages p c₀ c c₁ c₂ f) (hm : m.Loads c₂.module) (hst : r.isStatic = false)
    (hp : Heap) (v : Value) :
    (m.virtualTarget hp v r).isStatic = false := by
  unfold Machine.virtualTarget
  split
  · exact hst
  · dsimp only
    cases hfound : List.findSome? _ _ with
    | none => exact hst
    | some q =>
      obtain ⟨t, -, ht⟩ := List.exists_of_findSome?_eq_some hfound
      obtain ⟨d, hd, hq⟩ := Option.bind_eq_some_iff.mp ht
      obtain ⟨y, hy, rfl⟩ := Option.map_eq_some_iff.mp hq
      rw [hm.def?] at hd
      have hvirtual := Array.find?_some hy
      simp only [Bool.and_eq_true] at hvirtual
      exact h.isStatic_of_virtual (Module.def?_some hd).1
          (Array.mem_toList_iff.mpr (Array.mem_of_find?_eq_some hy)) hvirtual.1.2

/-- A call of the nearest method of values on a box reaches that method. -/
theorem box_target (h : Stages p c₀ c c₁ c₂ f) (hm : m.Loads c₂.module) (he : e ∈ hostModule.types.toList)
    (hbases : ∀ u ∈ Ty.lineage hostRoles.object e.type, ∃ d ∈ hostModule.types.toList, d.type = u)
    (hr : r.isVirtual = true → hostTarget e.type r = some r) {hp : Heap} {id : Nat} {o : Obj}
    (ho : hp.objects[id]? = some o)
    (ht : o.type = e.type) : m.virtualTarget hp (.obj id) r = r := by
  unfold Machine.virtualTarget
  split
  · rfl
  · rename_i hvirtual
    have htype : m.typeOf hp (.obj id) = e.type := by
      simp only [Machine.typeOf, Heap.deref, ho, ht]
    have hmodule : e.type.module = 0 := by
      rw [← h.module_id]
      exact (Module.def?_some (h.def?_host he)).2.2
    have hroot : m.hostType 0 TypeName.object = hostRoles.object := hm.hostType (h.type?_host (by decide +kernel))
    have hsame : ∀ u ∈ Ty.lineage hostRoles.object e.type, m.def? u = hostModule.def? u := by
      intro u hu
      obtain ⟨d, hd, rfl⟩ := hbases u hu
      rw [hm.def?, h.def?_host hd, hostModule_def? hd]
    have hfound : (Ty.lineage hostRoles.object e.type).findSome? (fun u => (m.def? u).bind fun d =>
        (d.methods.find? fun x => x.method.name = r.name && x.method.isVirtual && Ty.sameList x.method.params r.params).map
          Routine.method) = some r := by
      rw [← hr (by simpa using hvirtual), hostTarget]
      let reached (d : Option TypeDef) : Option Method := d.bind fun d =>
        (d.methods.find? fun x => x.method.name = r.name && x.method.isVirtual && Ty.sameList x.method.params r.params).map
          Routine.method
      have hmap : ∀ look : Ty → Option TypeDef, (Ty.lineage hostRoles.object e.type).findSome? (fun u => reached (look u)) =
          ((Ty.lineage hostRoles.object e.type).map look).findSome? reached := fun look => by
        rw [List.findSome?_map]
        rfl
      exact (hmap m.def?).trans ((congrArg _ (List.map_congr_left hsame)).trans (hmap hostModule.def?).symm)
    simp only [htype, hmodule, hroot, hfound, Option.getD_some]

/-- Values of value types are numbers or pointers. -/
theorem value_plain (he : e ∈ hostModule.types.toList) (hv : e.type.isValue = true)
    (hvoid : e.type.isVoid = false) {hp : Heap}
    {u : Value} (hu : hp.Has u e.type.name) : (∃ i, u = .int i) ∨ ∃ q, u = .func q := by
  have host : ∀ e ∈ hostModule.types.toList, e.type.isValue = true → e.type.isVoid = false →
      e.type.name.endsWith TypeName.arrayEnding = false ∧ TypeName.isReference e.type.name = false ∧
        e.type.name ≠ TypeName.string := by
    decide +kernel
  obtain ⟨harray, hnot, hstring⟩ := host e he hv hvoid
  generalize hn : e.type.name = n at hu harray hnot hstring
  cases hu with
  | number => exact .inl ⟨_, rfl⟩
  | pointer => exact .inr ⟨_, rfl⟩
  | string => exact absurd rfl hstring
  | null hnull =>
    rcases hnull with hnull | hnull
    · rw [hnot] at hnull
      cases hnull
    · exact absurd hnull hstring
  | object ho hb hr =>
    rw [hnot] at hr
    cases hr
  | array ha => exact absurd rfl (TypeName.array_ne harray)

/-- A method of the catalog's values is implemented in every module as in the catalog. -/
theorem routine?_host (h : Stages p c₀ c c₁ c₂ f)
    (hbases : ∀ u ∈ Ty.lineage hostRoles.object e.type, ∃ d ∈ hostModule.types.toList, d.type = u)
    (hr : r ∈ hostMethods e.type) :
    c₂.module.routine? r = hostModule.routine? r := by
  obtain ⟨u, hu, hr⟩ := List.mem_flatMap.mp hr
  obtain ⟨d, hd, rfl⟩ := hbases u hu
  rw [hostModule_def? hd] at hr
  obtain ⟨y, hy, rfl⟩ := List.mem_map.mp hr
  obtain ⟨i, hlt, hi⟩ := hostModule_place hd
  have hmem : y ∈ d.routines := List.mem_append_right _ hy
  rw [Module.Shaped.routine? h.shaped ((h.host hlt).trans hi) hmem, Module.Shaped.routine? hostModule_shaped hi hmem]

/-- The code of a conversion does what is meant, wherever it stands. -/
theorem realizes (h : Stages p c₀ c c₁ c₂ f) (hm : m.Loads c₂.module) (hrun : m.isCanceled = false)
    (hscope : (h.setting x).Ok) (hk : k.Located (h.setting x)) (hr : k.Chooses (c.scopeOf x) r)
    (hd : DelegateDefined c₂.module k.delegate e invoke) {fr : Frame} {w : World} {pc : Nat}
    (hcode : fr.body.HasAt pc (k.code (c.scopeOf x) r)) :
    m.Realizes k (k.owner (c.scopeOf x)) r invoke pc (k.code (c.scopeOf x) r).length fr w := by
  have hdel := hd.hasDelegate hm
  have hsame := hd.sameCall hr.fits
  have hsource : r.isStatic = false → ∀ t, k.source ≠ .type t := by
    intro hst t ht
    have := hr.fits.admitted
    simp [Lower.Conversion.admits, ht, hst] at this
  -- The code of a method that needs a receiver loads it, makes an object of it, and takes the method from that.
  have hbound : r.isStatic = false → k.code (c.scopeOf x) r = k.receiverCode ++
      (Lower.Conversion.boundCode (k.owner (c.scopeOf x)) r ++
      [{ op := .newobj, operand := .ctor k.delegate.ctor }]) := by
    intro hst
    rw [Lower.Conversion.code, hst, if_neg Bool.false_ne_true, List.append_assoc]
  constructor
  · intro hst
    have hall : k.code (c.scopeOf x) r = [{ op := .ldnull }, { op := .ldftn, operand := .method r },
        { op := .newobj, operand := .ctor k.delegate.ctor }] := by
      rw [Lower.Conversion.code, hst, if_pos rfl]
      rfl
    rw [hall] at hcode ⊢
    exact Machine.static_realized hrun hdel hst hsame hcode
  · intro hst hvalue v hv hknown hnull
    rw [hbound hst] at hcode ⊢
    obtain ⟨hat, hloads⟩ := Machine.receiver_loads hrun hv (hsource hst) hcode
    rw [Lower.Conversion.boundCode, hvalue] at hat ⊢
    have hmakes := Machine.bound_realized hrun hdel hst (h.dispatch_instance hm hst) hsame hknown hnull hat
    rw [List.length_append, Nat.add_comm]
    exact hmakes.of_loads hloads
  · intro hst hvalue v u hv hu hhas
    obtain ⟨t, hs⟩ : ∃ t, k.source = .object t := by
      cases hs : k.source with
      | own =>
        rw [Lower.Conversion.owner, hs] at hvalue
        rw [show (c.scopeOf x).owner.isValue = false from hscope.ownerObject] at hvalue
        cases hvalue
      | type t => exact absurd hs (hsource hst t)
      | object t => exact ⟨t, rfl⟩
    have howner : k.owner (c.scopeOf x) = t := by rw [Lower.Conversion.owner, hs]
    rw [howner] at hvalue hhas
    obtain ⟨hknown, hnonvoid⟩ := hk.object hs
    obtain ⟨e₀, he₀, rfl⟩ := h.value_host hknown hvalue
    obtain ⟨hmem, hnearest, -⟩ := h.chosen_nearest he₀ hvalue hnonvoid h.described.roles hs hk.reads.grown hr
    obtain ⟨hbases, hmethods⟩ := host_values e₀ he₀ hvalue hnonvoid
    obtain ⟨htarget, hnative⟩ := hmethods r hmem hnearest hst
    rw [← h.routine?_host hbases hmem, ← hm.routine?] at hnative
    obtain ⟨n, hbind, hn⟩ := (Option.any_eq_true _ _).mp hnative
    obtain ⟨hn, hequals⟩ := Bool.and_eq_true_iff.mp hn
    have hname : n = .objectEquals → r.name = "Equals" := by
      rintro rfl
      simpa using hequals
    obtain ⟨y, hy, hynative⟩ := Option.bind_eq_some_iff.mp hbind
    have hplain := value_plain he₀ hvalue hnonvoid hhas
    rw [hbound hst] at hcode ⊢
    obtain ⟨hat, hloads⟩ := Machine.receiver_loads hrun hv (hsource hst) hcode
    rw [Lower.Conversion.boundCode, howner, hvalue] at hat ⊢
    have hmakes := Machine.boxed_realized hrun hdel hst ((hm.def? _).trans (h.def?_host he₀)) hvalue
      (h.box_target hm he₀ hbases htarget) hy hynative hn hname hsame hu hplain hat
    rw [List.length_append, Nat.add_comm]
    exact hmakes.of_loads hloads
  · intro hst hvalue hv S rest steps
    rw [hbound hst] at hcode ⊢
    obtain ⟨hat, hloads⟩ := Machine.receiver_loads hrun hv (hsource hst) hcode
    rw [Lower.Conversion.boundCode, hvalue] at hat ⊢
    refine ⟨2 + k.receiverCode.length, by simp; omega, _,
        (hloads S rest steps 2).trans (Machine.bound_fails hrun rfl hat), rfl⟩

end Compilation.Stages

namespace Compilation

/-- Every conversion of a method to a delegate, however it is written, takes a method of the name that may be taken
    there and has the signature of the delegate's `Invoke`, and a call of the delegate that is made goes like a call
    of the method. -/
theorem delegate_transparency {p : Program} {name runtime : Text} {isCanceled : Bool} {c : Compilation}
    (h : (compile p .dynamic name runtime isCanceled).Gives c) :
    ∃ c₁, (generated p (start (Module.new 0 .dynamic name runtime))).Gives c₁ ∧ c₁.finish = .ok c ∧
      ∀ d ∈ c₁.types, ∀ x ∈ d.members, ∃ s body, Emits (c₁.scopeOf x) d x { symbols := s } (c₁.module.draft x.method) ∧
        (c.module.routine? x.method).bind Routine.body = some body ∧
        ∀ y k, Comes (c₁.scopeOf x) d x { symbols := s } y → Lower.Converts (c₁.scopeOf x) y k →
          ∃ r invoke, k.Fits (c₁.scopeOf x) r ∧ c.module.invoke? k.delegate.type = some invoke ∧
            Ty.sameList r.params invoke.params = true ∧ Ty.same r.ret invoke.ret = true ∧
            ∀ (m : Machine) (f : Frame) (w : World), m.Loads c.module → m.isCanceled = false → f.body = body →
              m.Realizes k (k.owner (c₁.scopeOf x)) r invoke k.work.draft.code.size
                (k.code (c₁.scopeOf x) r).length f w := by
  obtain ⟨c₀, c', c₁, drafts, hgen, hs⟩ := compile_stages h
  refine ⟨c₁, hgen, hs.finished, fun d hd x hx => ?_⟩
  rw [hs.types] at hd
  obtain ⟨i, hi⟩ := List.mem_iff_getElem?.mp hd
  obtain ⟨routine, body, hmember⟩ := hs.member hi hx
  obtain ⟨-, hresolves, -⟩ := hs.resolves hi hx hmember
  have hlowered := hs.generated.lowered (d, x) (List.mem_flatMap.mpr ⟨d, hd, List.mem_map_of_mem hx⟩)
  obtain ⟨s, hemits, -, hwithin⟩ := Lowered.within (hs.supplied hi hx) hlowered
  rw [hs.scopeOf, hs.generated.draft hs.described hi hx]
  refine ⟨s, body, hemits, by rw [hmember.routine]; exact hmember.body, fun y k hy hk => ?_⟩
  obtain ⟨hfits, q, w₁, hrun, hcode, -⟩ := hwithin hy
  have hlocated := hk.located (hs.setting_ok hi hx) hfits
  obtain ⟨r, hchosen, -, hadds⟩ := Lower.Conversion.lower_ok (hk.run.symm.trans hrun)
  obtain ⟨t, hdelegate⟩ := hlocated.delegate
  obtain ⟨e, invoke, hdefined⟩ := hs.delegate hdelegate
  obtain ⟨hparams, hret⟩ := hdefined.signature
  refine ⟨r, invoke, hchosen.fits, hdefined.invoke?, ?_, ?_, fun m f w hm hrunning hbody => ?_⟩
  · rw [hparams]
    exact hchosen.fits.params
  · rw [hret]
    exact hchosen.fits.ret
  · refine hs.realizes hm hrunning (hs.setting_ok hi hx) hlocated hchosen hdefined ?_
    rw [hbody]
    exact Lower.Conversion.code_hasAt hresolves hadds hcode

/-- A program that makes delegates in every way that there is: of static methods, of an object's methods and of a
    number's. -/
def delegateProgram : Program where
  delegates := [{ name := "Op", ret := "string", params := [{ name := "n", type := "int" }] },
    { name := "Show", ret := "string", params := [] }]
  classes := [{
    name := "C"
    fields := []
    ctors := []
    methods := [
      { name := "s", isStatic := true, ret := "string", params := [{ name := "n", type := "int" }]
        body := [.return (.call (.ident "n") "ToString" [])] },
      { name := "i", isStatic := false, ret := "string", params := [{ name := "n", type := "int" }]
        body := [.return (.call (.ident "n") "ToString" [])] },
      { name := "f", isStatic := false, ret := "string",
        params := [{ name := "n", type := "int" }, { name := "o", type := "C" }]
        body := [
          .local "a" "Op" (.ident "i"),
          .local "b" "Op" (.member (.ident "o") "i"),
          .local "c" "Op" (.member (.ident "C") "s"),
          .local "d" "Op" (.new "Op" [.ident "s"]),
          .local "e" "" (.methodRef (.ident "o") "i" "Op"),
          .local "g" "Show" (.member (.ident "n") "ToString"),
          .return (.call .missing "g" [])] },
      { name := "pick", isStatic := false, ret := "Op", params := []
        body := [.return (.methodRef .missing "i" "")] }] }]

/-- What a method returns in its first statement has been lowered. -/
theorem Emits.returned {scope : Scope} {d : DeclaredType} {x : Member} {w : Work} {D : Draft} {e : Expr} {rest : List Stmt}
    (h : Emits scope d x w D) (hctor : x.method.isCtor = false) (hbody : x.body = .return e :: rest)
    (he : e.isMissing = false) :
    ∃ q w', Lower.expr e (some scope.ret) false scope w = .ok (q, w') := by
  obtain ⟨b, w₁, w₂, hl, -, -⟩ := h
  rw [lowering, hctor, if_neg Bool.false_ne_true, hbody] at hl
  simp only [Lower.statements, Lower.block, Lower.stmt, Lower.returnStmt, Lower.value, he, Lower.bind_ok,
      Lower.read_ok, Lower.ite_ok,
    Lower.fail_ok, Bool.false_eq_true, not_false_iff, true_and, and_false, false_and, false_or] at hl
  obtain ⟨_, _, ⟨_, _, ⟨_, _, ⟨rfl, rfl⟩, -, _, _, ⟨q, w', hrun, -⟩, -⟩, -⟩, -⟩ := hl
  exact ⟨q, w', hrun⟩

/-- Whether a body gives a method of its own class, by the name `i`, and does nothing else. -/
def picksOwn : List Stmt → Bool
  | [.return (.methodRef .missing name type)] => name = "i" && type = ""
  | _ => false

theorem eq_of_picksOwn {body : List Stmt} (h : picksOwn body = true) :
    body = [.return (.methodRef .missing "i" "")] := by
  unfold picksOwn at h
  split at h
  · simp only [Bool.and_eq_true, decide_eq_true_eq] at h
    obtain ⟨rfl, rfl⟩ := h
    rfl
  · cases h

theorem delegate_transparency_sample : ∃ c, (compile delegateProgram .dynamic "m" "v4" false).Gives c ∧
    ∃ c₁, (generated delegateProgram (start (Module.new 0 .dynamic "m" "v4"))).Gives c₁ ∧ c₁.finish = .ok c ∧
      ∃ d ∈ c₁.types, ∃ x ∈ d.members, ∃ s body k, ∃ r invoke : Method, x.body = [.return (.methodRef .missing "i" "")] ∧
        Emits (c₁.scopeOf x) d x { symbols := s } (c₁.module.draft x.method) ∧
        Lower.Converts (c₁.scopeOf x) ⟨.methodRef .missing "i" "", some (c₁.scopeOf x).ret, false, { symbols := s }⟩ k ∧
        (c.module.routine? x.method).bind Routine.body = some body ∧ r.name = "i" ∧
        c.module.invoke? k.delegate.type = some invoke ∧ Ty.sameList r.params invoke.params = true ∧
          Ty.same r.ret invoke.ret = true ∧
        ∀ (f : Frame) (w : World), f.body = body →
          (c.machine 8).Realizes k (c₁.scopeOf x).owner r invoke k.work.draft.code.size
            (k.code (c₁.scopeOf x) r).length f w := by
  obtain ⟨c, hc, hsample⟩ := Logged.gives_of_any (x := compile delegateProgram .dynamic "m" "v4" false) (j := default)
    (p := fun c => decide (∃ d ∈ c.types, ∃ x ∈ d.members, x.method.isCtor = false ∧
      picksOwn x.body = true))
    (by decide +kernel)
  obtain ⟨d, hd, x, hx, hctor, hpicks⟩ := of_decide_eq_true hsample
  have hbody := eq_of_picksOwn hpicks
  obtain ⟨c₁, hgen, hfinish, hmakes⟩ := delegate_transparency hc
  rw [(finish_same hfinish).1] at hd
  obtain ⟨s, body, hemits, hcode, hmakes⟩ := hmakes d hd x hx
  obtain ⟨q, w, hrun⟩ := hemits.returned hctor hbody rfl
  obtain ⟨⟨dt, D⟩, w₁, hdelegate, -⟩ := Lower.bind_ok.mp hrun
  have hconverts :
      Lower.Converts (c₁.scopeOf x) ⟨.methodRef .missing "i" "", some (c₁.scopeOf x).ret, false, { symbols := s }⟩
      ⟨dt, D, "i", .own, w₁⟩ := .reference (.own hdelegate rfl)
  obtain ⟨r, invoke, hfits, hinvoke, hparams, hret, hrealizes⟩ := hmakes _ _ (.returned hctor hbody rfl) hconverts
  obtain ⟨_, -, -, hname⟩ := Symbols.mem_methodsAlong.mp hfits.mem
  obtain ⟨_, _, _, _, -, hs⟩ := compile_stages hc
  exact ⟨c, hc, c₁, hgen, hfinish, d, hd, x, hx, s, body, _, r, invoke, hbody, hemits, hconverts, hcode, hname,
      hinvoke, hparams, hret,
    fun f w => hrealizes _ f w (hs.loads 8) rfl⟩

end Compilation
end CilCompiler
