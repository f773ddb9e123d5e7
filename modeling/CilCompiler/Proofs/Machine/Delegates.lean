import Mathlib.Data.Finset.Card
import Mathlib.Data.Finset.Range
import Mathlib.Order.Monotone.Basic
import CilCompiler.Machine.Frame
import CilCompiler.Proofs.Machine.Levels
import CilCompiler.Proofs.Symbols

/-!
Values and their types, and delegates while code runs. `Heap.Has` says of which types, by name, a value is: numbers are of
two types, null is of every type whose values are references, and an object or array is of the type it was made with.
Objects and arrays stay what they were made as (`Heap.Keeps`), and so do the types of values.

The instructions of a conversion make an object that holds a receiver and the method that a call on this receiver
reaches (`static_makes`, `bound_makes`); on a null receiver they fail. A call of `Invoke` on the object goes on like
the call of that method itself (`invoke_alike`), but for the level that it takes. A box is opened where its value is
asked for; one that holds itself has no text (`textFrom_none_of_textOf`). -/

namespace CilCompiler

/-- The name of a type whose values are objects or arrays: not that of numbers, pointers or strings. -/
def TypeName.isReference (n : Text) : Bool :=
  n ≠ TypeName.int32 && n ≠ TypeName.boolean && n ≠ TypeName.intPtr && n ≠ TypeName.string

/-- A value is of the type of a name. -/
inductive Heap.Has (h : Heap) : Value → Text → Prop
  | number {v n} : n = TypeName.int32 ∨ n = TypeName.boolean → h.Has (.int v) n
  | pointer {m} : h.Has (.func m) TypeName.intPtr
  | string {s} : h.Has (.str s) TypeName.string
  | null {n} : TypeName.isReference n = true ∨ n = TypeName.string → h.Has .null n
  | object {id o} : h.objects[id]? = some o → o.boxed = none → TypeName.isReference o.type.name = true →
      h.Has (.obj id) o.type.name
  | array {id a} : h.arrays[id]? = some a → h.Has (.arr id) (TypeName.array a.elem.name)

/-- Objects and arrays are still there and what they were; only the text of a builder may have changed. -/
structure Heap.Keeps (h h' : Heap) : Prop where
  objects : ∀ {id : Nat} {o : Obj}, h.objects[id]? = some o → ∃ buffer, h'.objects[id]? = some { o with buffer }
  arrays : ∀ {id : Nat} {a : Arr}, h.arrays[id]? = some a → h'.arrays[id]? = some a

/-- The value is no address, and the object or array that it names is there. -/
def Heap.Knows (h : Heap) : Value → Prop
  | .obj id => id < h.objects.size
  | .arr id => id < h.arrays.size
  | .addr _ => False
  | .null | .int _ | .str _ | .func _ => True

namespace Heap

variable {h h' h'' : Heap} {v : Value} {n : Text}

/-! ### What stays -/

theorem Keeps.refl (h : Heap) : h.Keeps h := ⟨fun {_ o} ho => ⟨o.buffer, ho⟩, fun ha => ha⟩

theorem Keeps.trans (hk : h.Keeps h') (hk' : h'.Keeps h'') : h.Keeps h'' where
  objects {_ o} ho := by
    obtain ⟨buffer, ho'⟩ := hk.objects ho
    exact hk'.objects (o := { o with buffer }) ho'
  arrays ha := hk'.arrays (hk.arrays ha)

theorem Keeps.typeOf (hk : h.Keeps h') (hv : h.Knows v) (m : Machine) : m.typeOf h' v = m.typeOf h v := by
  cases v with
  | obj id =>
    have hget : h.objects[id]? = some h.objects[id] := Array.getElem?_eq_getElem hv
    obtain ⟨buffer, hget'⟩ := hk.objects hget
    simp only [Machine.typeOf, Heap.deref, hget, hget']
  | arr id =>
    have hget : h.arrays[id]? = some h.arrays[id] := Array.getElem?_eq_getElem hv
    simp only [Machine.typeOf, Heap.deref, hget, hk.arrays hget]
  | addr a => exact hv.elim
  | null | int | str | func => rfl

theorem Keeps.virtualTarget (hk : h.Keeps h') (hv : h.Knows v) (m : Machine) (r : Method) :
    m.virtualTarget h' v r = m.virtualTarget h v r := by
  unfold Machine.virtualTarget
  rw [hk.typeOf hv]

theorem Knows.deref (hv : h.Knows v) (h' : Heap) : h'.deref v = v := by
  cases v with
  | addr a => exact hv.elim
  | _ => rfl

end Heap

/-- An object that is made is there. -/
theorem World.makeObject_get (w : World) (module : Nat) (d : TypeDef) (change : Obj → Obj) :
    ∃ first tag, (w.makeObject module d change).2.heap.objects[(w.makeObject module d change).1]? =
      some (change { type := d.type, first, count := d.slots, tag }) :=
  ⟨w.heap.cells.size, (w.state module).lastTag + 1, by simp [makeObject, Heap.addObject, Heap.allocate, modifyState]⟩

/-- Making an object changes no other. -/
theorem World.makeObject_keeps (w : World) (module : Nat) (d : TypeDef) (change : Obj → Obj) :
    w.heap.Keeps (w.makeObject module d change).2.heap where
  objects {id o} ho := by
    have hlt := (Array.getElem?_eq_some_iff.mp ho).1
    refine ⟨o.buffer, ?_⟩
    show (w.heap.objects.push _)[id]? = some o
    rw [Array.getElem?_push, if_neg (by omega)]
    exact ho
  arrays ha := ha

/-- What becomes of a run is what becomes of another, unless it goes too deep first. -/
def Progress.Alike (p q : Progress) : Prop := p.IsTooDeep ∨ p.Within q

/-! ### Making a delegate -/

/-- A body has instructions at a place, which stand for the given ones. -/
def Body.HasAt (b : Body) (pc : Nat) : List Instr → Prop
  | [] => True
  | i :: is => (∃ i', b.code[pc]? = some i' ∧ i'.expanded = i) ∧ b.HasAt (pc + 1) is

/-- A delegate type as the machine has it. -/
structure Machine.HasDelegate (m : Machine) (e : TypeDef) (ctor invoke : Method) : Prop where
  definition : m.def? e.type = some e
  isDelegate : e.type.isDelegate = true
  owner : ctor.owner = e.type
  params : ctor.params.length = 2
  made : ∃ x, m.routine? ctor = some x ∧ x.impl = .runtime
  called : ∃ x, m.routine? invoke = some x ∧ x.impl = .runtime ∧ x.native = none
  name : invoke.name = Method.invokeName
  isStatic : invoke.isStatic = false
  only : e.methods.map Routine.method = #[invoke]

namespace Machine

variable {m : Machine} {f : Frame} {rest : List Frame} {w : World} {steps pc : Nat} {S : List Value}

/-- One instruction of the frame at a place, with values on its stack. -/
theorem run_next (hm : m.isCanceled = false) {i i' : Instr} (hi : f.body.code[pc]? = some i')
    (hi' : i'.expanded = i) {S' : List Value}
    {w' : World} (he : (f.place pc S).execLong m w i = (.next (f.place pc S'), w')) (n : Nat) :
    m.run (n + 1) (.running { frames := f.place pc S :: rest, world := w, steps }) =
      m.run n (.running { frames := f.place (pc + 1) S' :: rest, world := w', steps := steps + 1 }) := by
  subst hi'
  have he : (f.place pc S).exec m w i' = (.next (f.place pc S'), w') := he
  have hi : (f.place pc S).body.code[(f.place pc S).pc]? = some i' := hi
  show m.run n (m.step _) = _
  simp only [step, hi, hm, he, Bool.false_eq_true, and_false, if_false]
  rfl

/-- The world with a new delegate, and its number. -/
def makeDelegate (m : Machine) (e : TypeDef) (w : World) (target : Value) (method : Method) : Nat × World :=
  w.makeObject m.module e fun o => { o with target, method := some method }

/-- The world with a new box that holds a value, and its number. -/
def makeBox (m : Machine) (e : TypeDef) (w : World) (v : Value) : Nat × World :=
  w.makeObject m.module e fun o => { o with boxed := some v }

variable {e : TypeDef} {ctor invoke r : Method} {v : Value}

/-- The values pushed last are taken off, in the order in which they were pushed. -/
theorem popN?_append (args : List Value) :
    (f.place pc (args.reverse ++ S)).popN? args.length = some (args, f.place pc S) := by
  simp [Frame.popN?, Frame.place]

theorem execNew_delegate (hd : m.HasDelegate e ctor invoke) :
    (f.place pc (.func (some r) :: v :: S)).execLong m w { op := .newobj, operand := .ctor ctor } =
      (.next (f.place pc (.obj (m.makeDelegate e w v r).1 :: S)), (m.makeDelegate e w v r).2) := by
  obtain ⟨x, hx, himpl⟩ := hd.made
  have hdef : m.def? ctor.owner = some e := by rw [hd.owner]; exact hd.definition
  have hdel : ctor.owner.isDelegate = true := by rw [hd.owner]; exact hd.isDelegate
  have hpop : (f.place pc (.func (some r) :: v :: S)).popN? ctor.params.length =
      some ([v, .func (some r)], f.place pc S) := by
    rw [hd.params]
    exact popN?_append [v, .func (some r)]
  simp only [Frame.execLong, Frame.execNew, hpop, hdef, hx, hdel, himpl, Bool.true_and, decide_true, if_true]
  rfl

/-- The code for a static method makes a delegate without a receiver. -/
theorem static_makes (hm : m.isCanceled = false) (hd : m.HasDelegate e ctor invoke)
    (hcode : f.body.HasAt pc [{ op := .ldnull }, { op := .ldftn, operand := .method r },
      { op := .newobj, operand := .ctor ctor }]) :
    m.run 3 (.running { frames := f.place pc S :: rest, world := w, steps }) =
      .running { frames := f.place (pc + 3) (.obj (m.makeDelegate e w .null r).1 :: S) :: rest
                 world := (m.makeDelegate e w .null r).2, steps := steps + 3 } := by
  obtain ⟨⟨i₁, h1, e1⟩, ⟨i₂, h2, e2⟩, ⟨i₃, h3, e3⟩, -⟩ := hcode
  have pushed : (f.place pc S).execLong m w { op := .ldnull } = (.next (f.place pc (.null :: S)), w) := rfl
  have pointer : (f.place (pc + 1) (.null :: S)).execLong m w { op := .ldftn, operand := .method r } =
      (.next (f.place (pc + 1) (.func (some r) :: .null :: S)), w) := rfl
  rw [run_next hm h1 e1 pushed, run_next hm h2 e2 pointer, run_next hm h3 e3 (execNew_delegate hd)]
  rfl

theorem execDup_place : (f.place pc (v :: S)).execLong m w { op := .dup } = (.next (f.place pc (v :: v :: S)), w) := rfl

/-- The code for a method of the object on the stack makes a delegate with the method that a call on the object reaches. -/
theorem bound_makes (hm : m.isCanceled = false) (hd : m.HasDelegate e ctor invoke) (hv : (w.heap.deref v).isNull = false)
    (hcode : f.body.HasAt pc [{ op := .dup }, { op := .ldvirtftn, operand := .method r },
      { op := .newobj, operand := .ctor ctor }]) :
    m.run 3 (.running { frames := f.place pc (v :: S) :: rest, world := w, steps }) =
      .running { frames := f.place (pc + 3) (.obj (m.makeDelegate e w v (m.virtualTarget w.heap v r)).1 :: S) :: rest
                 world := (m.makeDelegate e w v (m.virtualTarget w.heap v r)).2, steps := steps + 3 } := by
  obtain ⟨⟨i₁, h1, e1⟩, ⟨i₂, h2, e2⟩, ⟨i₃, h3, e3⟩, -⟩ := hcode
  have pointer : (f.place (pc + 1) (v :: v :: S)).execLong m w { op := .ldvirtftn, operand := .method r } =
      (.next (f.place (pc + 1) (.func (some (m.virtualTarget w.heap v r)) :: v :: S)), w) := by
    simp [Frame.execLong, Frame.execVirtualPointer, Frame.place, hv]
  rw [run_next hm h1 e1 execDup_place, run_next hm h2 e2 pointer, run_next hm h3 e3 (execNew_delegate hd)]
  rfl

/-- On null the code for a method of an object fails. -/
theorem bound_fails (hm : m.isCanceled = false) (hv : (w.heap.deref v).isNull = true) {is : List Instr}
    (hcode : f.body.HasAt pc ({ op := .dup } :: { op := .ldvirtftn, operand := .method r } :: is)) :
    m.run 2 (.running { frames := f.place pc (v :: S) :: rest, world := w, steps }) =
      .halted (faultAt f.method (pc + 1) (.virtualPointerOnNull r.name)) w := by
  obtain ⟨⟨i₁, h1, e1⟩, ⟨i₂, h2, e2⟩, -⟩ := hcode
  have pointer : (f.place (pc + 1) (v :: v :: S)).exec m w i₂ = (.fail (.virtualPointerOnNull r.name), w) := by
    show Frame.execLong m w _ i₂.expanded = _
    simp [e2, Frame.execLong, Frame.execVirtualPointer, Frame.place, hv]
  have h2 : (f.place (pc + 1) (v :: v :: S)).body.code[(f.place (pc + 1) (v :: v :: S)).pc]? = some i₂ := h2
  have fails : m.step { frames := f.place (pc + 1) (v :: v :: S) :: rest, world := w, steps := steps + 1 } =
      .halted (faultAt f.method (pc + 1) (.virtualPointerOnNull r.name)) w := by
    simp only [step, h2, hm, pointer, Bool.false_eq_true, and_false, if_false]
    rfl
  rw [run_next hm h1 e1 execDup_place]
  show m.run 0 (m.step _) = _
  rw [fails]
  rfl

/-- A value is put into a box first. -/
theorem box_makes (hm : m.isCanceled = false) {t : Ty} (ht : t.isValue = true) (he : m.def? t = some e) {is : List Instr}
    (hcode : f.body.HasAt pc ({ op := .box, operand := .type t } :: is)) (n : Nat) :
    m.run (n + 1) (.running { frames := f.place pc (v :: S) :: rest, world := w, steps }) =
      m.run n (.running { frames := f.place (pc + 1) (.obj (m.makeBox e w (w.heap.deref v)).1 :: S) :: rest
                          world := (m.makeBox e w (w.heap.deref v)).2, steps := steps + 1 }) := by
  obtain ⟨⟨i₁, h1, e1⟩, -⟩ := hcode
  have box : (f.place pc (v :: S)).execLong m w { op := .box, operand := .type t } =
      (.next (f.place pc (.obj (m.makeBox e w (w.heap.deref v)).1 :: S)), (m.makeBox e w (w.heap.deref v)).2) := by
    simp [Frame.execLong, Frame.execBox, Frame.place, ht, he, makeBox]
  exact run_next hm h1 e1 box n

/-! ### Calling a delegate -/

/-- What a call instruction of a frame leads to. -/
def callFrom (m : Machine) (f : Frame) (rest : List Frame) (w : World) (steps : Nat) (op : Opcode)
    (r : Method) : Progress :=
  match f.execCall m w.heap op r with
  | .call f use r args => proceed ({ f with pc := f.pc + 1 } :: rest) steps use (m.enter use f.levels r args w)
  | .fail c => .halted (faultAt f.method f.pc c) w
  | _ => .halted .missing w

/-- A call instruction calls, or fails. -/
theorem execCall_cases (h : Heap) (op : Opcode) (r : Method) :
    (∃ g use r' args, f.execCall m h op r = .call g use r' args) ∨ (∃ c, f.execCall m h op r = .fail c) ∨
      f.execCall m h op r = .missing := by
  unfold Frame.execCall
  split
  · exact .inr (.inr rfl)
  · dsimp only
    split
    · exact .inl ⟨_, _, _, _, rfl⟩
    · split
      · exact .inr (.inr rfl)
      · split
        · exact .inr (.inl ⟨_, rfl⟩)
        · exact .inl ⟨_, _, _, _, rfl⟩

/-- A call instruction leads there. -/
theorem step_call (hm : m.isCanceled = false) {i : Instr} {op : Opcode} (hop : op = .call ∨ op = .callvirt)
    (hi : f.body.code[f.pc]? = some i) (hi' : i.expanded = { op, operand := .method r }) :
    m.step { frames := f :: rest, world := w, steps } = m.callFrom f rest w (steps + 1) op r := by
  have hexec : f.exec m w i = (f.execCall m w.heap op r, w) := by
    show f.execLong m w i.expanded = _
    rw [hi']
    rcases hop with rfl | rfl <;> rfl
  simp only [step, hi, hm, hexec, Bool.false_eq_true, and_false, if_false, callFrom]
  rcases execCall_cases (m := m) (f := f) w.heap op r with ⟨g, use, r', args, he⟩ | ⟨c, he⟩ | he
  · rw [he]
  · rw [he]
  · rw [he]

/-- What a call does with its result. -/
def useOf (r : Method) : ResultUse := if r.returnsVoid then .drop else .push

theorem callFrom_static {op : Opcode} {args : List Value} (hst : r.isStatic = true) (hlen : args.length = r.params.length) :
    m.callFrom (f.place pc (args.reverse ++ S)) rest w steps op r =
      proceed (f.place (pc + 1) S :: rest) steps (useOf r) (m.enter (useOf r) f.levels r args w) := by
  have hpop : (f.place pc (args.reverse ++ S)).popN? r.argCount = some (args, f.place pc S) := by
    rw [Method.argCount, hst, if_pos rfl, ← hlen]
    exact popN?_append args
  simp only [callFrom, Frame.execCall, hpop, hst, if_true]
  rfl

theorem popN?_receiver {args : List Value} (hst : r.isStatic = false) (hlen : args.length = r.params.length) :
    (f.place pc (args.reverse ++ v :: S)).popN? r.argCount = some (v :: args, f.place pc S) := by
  rw [Method.argCount, hst, if_neg Bool.false_ne_true, ← hlen]
  have htake : (f.place pc ((v :: args).reverse ++ S)).popN? (v :: args).length = some (v :: args, f.place pc S) :=
    popN?_append _
  rwa [List.reverse_cons, List.append_assoc] at htake

theorem callFrom_instance {op : Opcode} {args : List Value} (hst : r.isStatic = false)
    (hlen : args.length = r.params.length)
    (hv : (w.heap.deref v).isNull = false) :
    m.callFrom (f.place pc (args.reverse ++ v :: S)) rest w steps op r =
      proceed (f.place (pc + 1) S :: rest) steps (useOf r)
        (m.enter (useOf r) f.levels (if op = .callvirt then m.virtualTarget w.heap v r else r) (v :: args) w) := by
  simp only [callFrom, Frame.execCall, popN?_receiver hst hlen, hst, hv, Bool.false_eq_true, if_false]
  rfl

theorem callFrom_null {op : Opcode} {args : List Value} (hst : r.isStatic = false) (hlen : args.length = r.params.length)
    (hv : (w.heap.deref v).isNull = true) :
    m.callFrom (f.place pc (args.reverse ++ v :: S)) rest w steps op r =
      .halted (faultAt f.method pc (.callOnNull op.mnemonic r.owner.name r.name)) w := by
  simp only [callFrom, Frame.execCall, popN?_receiver hst hlen, hst, hv, Bool.false_eq_true, if_false, if_true]
  rfl

theorem virtualTarget_invoke (hd : m.HasDelegate e ctor invoke) {h : Heap} {id : Nat} {o : Obj}
    (ho : h.objects[id]? = some o)
    (ht : o.type = e.type) : m.virtualTarget h (.obj id) invoke = invoke := by
  unfold virtualTarget
  split
  · rfl
  · rename_i hvirtual
    obtain ⟨bases, hline⟩ := Ty.lineage_head (m.hostType e.type.module TypeName.object) e.type
    obtain ⟨x, hx, hmethod⟩ : ∃ x, e.methods = #[x] ∧ x.method = invoke := by
      simpa [Array.map_eq_singleton_iff] using hd.only
    have htype : m.typeOf h (.obj id) = e.type := by
      simp only [typeOf, Heap.deref, ho, ht]
    have hvirtual : invoke.isVirtual = true := by simpa using hvirtual
    simp only [htype, hline, List.findSome?_cons, hd.definition, Option.bind_some, hx, List.find?_toArray]
    simp [hmethod, hvirtual, Ty.sameList_refl]

variable {id : Nat} {o : Obj} {target : Method} {args : List Value}

/-- A call of `Invoke` calls the delegate's method on its receiver, and only takes a level more. -/
theorem invoke_alike (args : List Value) (steps : Nat) (hd : m.HasDelegate e ctor invoke)
    (ho : w.heap.objects[id]? = some o) (hmethod : o.method = some target)
    (hrecv : target.isStatic = false → o.target.isNull = false) (use : ResultUse) (levels : Nat) (fs : List Frame) :
    (proceed fs steps use (m.enter use levels invoke (.obj id :: args) w)).Alike
      (proceed fs steps use (m.enter use levels target ((if target.isStatic then [] else [o.target]) ++ args) w)) := by
  obtain ⟨x, hx, himpl, hnative⟩ := hd.called
  cases levels with
  | zero => exact .inl ⟨_, w, rfl, _, _, _, rfl⟩
  | succ levels =>
    have hopen : m.opening invoke (.obj id :: args) w =
        (.onward target ((if target.isStatic then [] else [o.target]) ++ args), w) := by
      have hname : ¬Method.invokeName = Method.ctorName := by decide
      simp only [opening, hx, hnative, himpl, if_true, Heap.deref, ho, hd.name, hname, if_false, openDelegate, hmethod]
      cases hst : target.isStatic with
      | true => rfl
      | false => simp [hrecv hst]
    rw [enter_succ (r := invoke), hopen]
    exact proceed_within (Frame.within_list_refl fs) (Nat.le_succ levels)

theorem alike_run {p q : Progress} (h : p.Alike q) (n : Nat) : (m.run n p).Alike (m.run n q) := by
  rcases h with ⟨halt, w, rfl, hdeep⟩ | h
  · exact .inl ⟨halt, w, run_halted .., hdeep⟩
  · exact run_within h n

/-- The parts of two signatures that a call looks at. -/
structure SameCall (r r' : Method) : Prop where
  arity : r.params.length = r'.params.length
  void : r.returnsVoid = r'.returnsVoid

theorem SameCall.useOf {r' : Method} (h : SameCall r r') : useOf r = useOf r' := by
  unfold Machine.useOf
  rw [h.void]

/-- Calling a delegate of a static method goes like calling the method. -/
theorem static_alike (hd : m.HasDelegate e ctor invoke) (ho : w.heap.objects[id]? = some o) (ht : o.type = e.type)
    (hmethod : o.method = some target) (hst : target.isStatic = true) (hsame : SameCall target invoke)
    (hlen : args.length = invoke.params.length) (n : Nat) :
    (m.run n (m.callFrom (f.place pc (args.reverse ++ .obj id :: S)) rest w steps .callvirt invoke)).Alike
      (m.run n (m.callFrom (f.place pc (args.reverse ++ S)) rest w steps .call target)) := by
  rw [callFrom_instance hd.isStatic hlen rfl, callFrom_static hst (hlen.trans hsame.arity.symm), if_pos rfl,
    virtualTarget_invoke hd ho ht, hsame.useOf]
  have halike := invoke_alike args steps hd ho hmethod (fun h => by rw [hst] at h; cases h) (useOf invoke) f.levels
    (f.place (pc + 1) S :: rest)
  rw [hst] at halike
  exact alike_run halike n

/-- Calling a delegate of a method of an object goes like calling the method on the object. -/
theorem bound_alike (hd : m.HasDelegate e ctor invoke) (ho : w.heap.objects[id]? = some o) (ht : o.type = e.type)
    (hv : o.target = v)
    (hnull : (w.heap.deref v).isNull = false) (hmethod : o.method = some (m.virtualTarget w.heap v r))
    (hst : r.isStatic = false) (htst : (m.virtualTarget w.heap v r).isStatic = false) (hsame : SameCall r invoke)
    (hlen : args.length = invoke.params.length) (n : Nat) :
    (m.run n (m.callFrom (f.place pc (args.reverse ++ .obj id :: S)) rest w steps .callvirt invoke)).Alike
      (m.run n (m.callFrom (f.place pc (args.reverse ++ v :: S)) rest w steps .callvirt r)) := by
  have hvnull : v.isNull = false := by
    cases v with
    | null => exact hnull
    | _ => rfl
  rw [callFrom_instance hd.isStatic hlen rfl, callFrom_instance hst (hlen.trans hsame.arity.symm) hnull,
      if_pos rfl, if_pos rfl,
    virtualTarget_invoke hd ho ht, hsame.useOf]
  have halike := invoke_alike args steps hd ho hmethod (fun _ => by rw [hv]; exact hvnull) (useOf invoke) f.levels
    (f.place (pc + 1) S :: rest)
  rw [htst, hv] at halike
  exact alike_run halike n

end Machine
/-! ### Boxes -/

namespace Heap
variable {h : Heap} {v v' : Value} {fuel : Nat}

theorem textFrom_box {b : Bool} {id : Nat} {o : Obj} {u : Value} (hv : h.deref v = .obj id) (ho : h.objects[id]? = some o)
    (hu : o.boxed = some u) (fuel : Nat) :
    h.textFrom (fuel + 1) b v = h.textFrom fuel (o.type.name = TypeName.boolean) u := by
  rw [textFrom]
  simp only [hv, ho, hu]

/-- Only boxes have no text. -/
theorem boxed_of_textFrom {b : Bool} (hnone : h.textFrom fuel b v = none) :
    ∃ id o u, h.deref v = .obj id ∧ h.objects[id]? = some o ∧ o.boxed = some u := by
  unfold textFrom at hnone
  split at hnone
  case h_8 id hv =>
    cases ho : h.objects[id]? with
    | none => simp [ho] at hnone
    | some o =>
      cases hu : o.boxed with
      | none => simp [ho, hu] at hnone
      | some u => exact ⟨id, o, u, hv, ho, hu⟩
  case h_4 => split at hnone <;> cases hnone
  all_goals cases hnone

/-- Whether a value has a text does not depend on how numbers are shown, or on whether the value is at a place. -/
theorem textFrom_none_congr {b b' : Bool} (hv : h.deref v = h.deref v') (hnone : h.textFrom fuel b v = none) :
    h.textFrom fuel b' v' = none := by
  obtain ⟨id, o, u, hid, ho, hu⟩ := boxed_of_textFrom hnone
  cases fuel with
  | zero =>
    rw [textFrom]
    simp only [← hv, hid, ho, hu]
  | succ fuel =>
    rw [textFrom_box hid ho hu] at hnone
    rwa [textFrom_box (hv ▸ hid) ho hu]

/-- The objects that have no text with so many openings. -/
def unread (h : Heap) (fuel : Nat) : Finset Nat :=
  (Finset.range h.objects.size).filter fun i => h.textFrom fuel false (.obj i) = none

theorem mem_unread {b : Bool} {i : Nat} (hv : h.deref v = .obj i) : i ∈ h.unread fuel ↔ h.textFrom fuel b v = none := by
  have hi : h.deref v = h.deref (.obj i) := hv
  rw [unread, Finset.mem_filter, Finset.mem_range]
  refine ⟨fun hin => textFrom_none_congr hi.symm hin.2, fun hnone => ?_⟩
  obtain ⟨id, o, u, hid, ho, -⟩ := boxed_of_textFrom hnone
  obtain rfl : i = id := Value.obj.inj (hv.symm.trans hid)
  exact ⟨(Array.getElem?_eq_some_iff.mp ho).1, textFrom_none_congr hi hnone⟩

/-- A box is unread with one opening more if what is in it is unread. -/
theorem mem_unread_succ {i : Nat} : i ∈ h.unread (fuel + 1) ↔
    ∃ o u j, h.objects[i]? = some o ∧ o.boxed = some u ∧ h.deref u = .obj j ∧ j ∈ h.unread fuel := by
  rw [mem_unread (b := false) (v := .obj i) rfl]
  constructor
  · intro hnone
    obtain ⟨id, o, u, hid, ho, hu⟩ := boxed_of_textFrom hnone
    cases hid
    rw [textFrom_box rfl ho hu] at hnone
    obtain ⟨j, -, -, hj, -⟩ := boxed_of_textFrom hnone
    exact ⟨o, u, j, ho, hu, hj, (mem_unread hj).mpr hnone⟩
  · rintro ⟨o, u, j, ho, hu, hj, hin⟩
    rw [textFrom_box rfl ho hu]
    exact (mem_unread hj).mp hin

theorem unread_succ_subset (fuel : Nat) : h.unread (fuel + 1) ⊆ h.unread fuel := by
  induction fuel with
  | zero =>
    intro i hi
    obtain ⟨o, u, j, ho, hu, -⟩ := mem_unread_succ.mp hi
    refine (mem_unread (b := false) (v := .obj i) rfl).mpr ?_
    rw [textFrom]
    simp only [deref, ho, hu]
  | succ fuel ih =>
    intro i hi
    obtain ⟨o, u, j, ho, hu, hj, hin⟩ := mem_unread_succ.mp hi
    exact mem_unread_succ.mpr ⟨o, u, j, ho, hu, hj, ih hin⟩

/-- Where one more opening finds no further text, no number of openings does. -/
theorem unread_stable {k : Nat} (hk : h.unread (k + 1) = h.unread k) (more : Nat) : h.unread (k + more) = h.unread k := by
  induction more with
  | zero => rfl
  | succ more ih =>
    rw [← hk]
    ext i
    rw [← Nat.add_assoc, mem_unread_succ, mem_unread_succ, ih]

/-- Each opening finds a text that was not found before, until none does. -/
theorem unread_card (k : Nat) : (∃ j ≤ k, h.unread (j + 1) = h.unread j) ∨ (h.unread k).card + k ≤ h.objects.size := by
  induction k with
  | zero => exact .inr ((Finset.card_filter_le _ _).trans (Finset.card_range _).le)
  | succ k ih =>
    rcases ih with ⟨j, hj, hstable⟩ | hcard
    · exact .inl ⟨j, by omega, hstable⟩
    · by_cases hk : h.unread (k + 1) = h.unread k
      · exact .inl ⟨k, by omega, hk⟩
      · have := Finset.card_lt_card ((unread_succ_subset k).ssubset_of_ne hk)
        exact .inr (by omega)

/-- A value that is not printed has no text, however many boxes are opened. -/
theorem textFrom_none_of_textOf {b : Bool} (hnone : h.textOf b v = none) (fuel : Nat) : h.textFrom fuel b v = none := by
  obtain ⟨i, -, -, hv, -⟩ := boxed_of_textFrom hnone
  have hin : i ∈ h.unread h.objects.size := (mem_unread hv).mpr hnone
  refine (mem_unread hv).mp ?_
  rcases unread_card (h := h) h.objects.size with ⟨j, hj, hstable⟩ | hcard
  · obtain ⟨more, hmore⟩ := Nat.exists_eq_add_of_le hj
    rw [hmore, unread_stable hstable] at hin
    -- It is unread with `j` openings: so it is with fewer, and with more.
    have anti : Antitone h.unread := antitone_nat_of_succ_le unread_succ_subset
    rw [← unread_stable hstable fuel] at hin
    exact anti (Nat.le_add_left fuel j) hin
  · have := Finset.card_pos.mpr ⟨i, hin⟩
    omega

end Heap

/-- Whether a member of the catalog, called on a value of type `t`, does the same on a box with the value. The text of
    an object and the equality of objects look at the box itself. -/
def Native.isOfValues (t : Ty) (params : List (Option Ty)) : Native → Bool
  | .boolText | .objectHash | .intCompare | .pointerNumber => true
  | .objectText => t.name ≠ TypeName.boolean
  | .objectEquals =>
    match params with
    | some u :: _ => u.name = TypeName.object
    | _ => false
  | _ => false

namespace Heap
variable {h : Heap} {id : Nat} {t : Ty} {v : Value} {a : Address}

/-- An object is a box for a number or a pointer. -/
structure Boxes (h : Heap) (id : Nat) (t : Ty) (v : Value) : Prop where
  box : ∃ o, h.objects[id]? = some o ∧ o.type = t ∧ o.boxed = some v
  value : (∃ n, v = .int n) ∨ ∃ m, v = .func m

theorem Boxes.unboxed (hb : h.Boxes id t v) : h.unboxed (.obj id) = v := by
  obtain ⟨o, ho, -, hv⟩ := hb.box
  simp [Heap.unboxed, Heap.deref, ho, hv]

theorem Boxes.unboxed_place (hb : h.Boxes id t v) (ha : h.load a = v) : h.unboxed (.addr a) = v := by
  rcases hb.value with ⟨n, rfl⟩ | ⟨m, rfl⟩ <;> simp [Heap.unboxed, Heap.deref, ha]

/-- A number or pointer has the same text wherever it is. -/
theorem Boxes.text_of_deref (hb : h.Boxes id t v) {fuel fuel' : Nat} {isBool : Bool} {u u' : Value} (hu : h.deref u = v)
    (hu' : h.deref u' = v) : h.textFrom fuel isBool u = h.textFrom fuel' isBool u' := by
  unfold Heap.textFrom
  rw [hu, hu']
  rcases hb.value with ⟨n, rfl⟩ | ⟨m, rfl⟩
  · rfl
  · cases m <;> rfl

theorem Boxes.text (hb : h.Boxes id t v) (ha : h.load a = v) (ht : t.name ≠ TypeName.boolean) :
    h.textOf false (.obj id) = h.textOf false (.addr a) := by
  obtain ⟨o, ho, rfl, hv⟩ := hb.box
  have hsize := (Array.getElem?_eq_some_iff.mp ho).1
  obtain ⟨fuel, hfuel⟩ : ∃ k, h.objects.size = k + 1 := ⟨h.objects.size - 1, by omega⟩
  have hderef : h.deref v = v := by
    rcases hb.value with ⟨n, rfl⟩ | ⟨m, rfl⟩ <;> rfl
  have opened : h.textFrom (fuel + 1) false (.obj id) = h.textFrom fuel (o.type.name = TypeName.boolean) v := by
    rw [Heap.textFrom]
    simp only [Heap.deref, ho, hv]
  unfold Heap.textOf
  rw [hfuel, opened, decide_eq_false ht]
  exact hb.text_of_deref hderef ha

/-- No value of a reference type equals a box or what is in it. -/
theorem Boxes.equal (hb : h.Boxes id t v) (ha : h.load a = v) {b : Value} (hv : h.Has b TypeName.object) :
    Native.equalObjects h (.obj id) b = Native.equalObjects h (.addr a) b := by
  obtain ⟨o, ho, -, hbox⟩ := hb.box
  have place : Native.equalObjects h (.addr a) b = false := by
    rcases hb.value with ⟨n, rfl⟩ | ⟨m, rfl⟩
    all_goals
      generalize hn : TypeName.object = name at hv
      cases hv with
      | number hx => exact absurd hx (by rw [← hn]; decide)
      | pointer => cases hn
      | string => cases hn
      | null => simp [Native.equalObjects, Heap.deref, ha, Heap.same]
      | object => simp [Native.equalObjects, Heap.deref, ha, Heap.same]
      | array => simp [Native.equalObjects, Heap.deref, ha, Heap.same]
  rw [place]
  generalize hn : TypeName.object = name at hv
  cases hv with
  | number hx => exact absurd hx (by rw [← hn]; decide)
  | pointer => cases hn
  | string => cases hn
  | null => simp [Native.equalObjects, Heap.deref, Heap.same]
  | @object j y hy hnone =>
    have hne : id ≠ j := by
      rintro rfl
      rw [ho] at hy
      cases hy
      rw [hbox] at hnone
      cases hnone
    simp [Native.equalObjects, Heap.deref, ho, hy, hbox, hnone, hne]
  | array => simp [Native.equalObjects, Heap.deref, Heap.same]

/-- A number that is no object would tell a place from a box: it equals the number at the place. -/
example :
    let h : Heap := { cells := #[.int 7], objects := #[{ (default : Obj) with boxed := some (.int 7) }] }
    h.load (.cell 0) = .int 7 ∧ Native.equalObjects h (.obj 0) (.int 7) = false ∧
      Native.equalObjects h (.addr (.cell 0)) (.int 7) = true := by
  decide +kernel

end Heap

/-- A member of values does the same on a box and on a place that holds the value. Only the equality of objects needs
    to know what its argument is. -/
theorem Native.run_box {n : Native} {module : Nat} {w : World} {id : Nat} {t : Ty} {v : Value} {a : Address}
    {args : List Value}
    {params : List (Option Ty)} (hn : n.isOfValues t params = true) (hb : w.heap.Boxes id t v) (ha : w.heap.load a = v)
    (hargs : n = .objectEquals → List.Forall₂ (fun v t => ∃ u, t = some u ∧ w.heap.Has v u.name) args params) :
    n.run module w (.obj id :: args) = n.run module w (.addr a :: args) := by
  cases n with
  | boolText => simp only [Native.run, Native.shown, hb.unboxed, hb.unboxed_place ha]
  | objectHash => simp only [Native.run, Native.hashOf, hb.unboxed, hb.unboxed_place ha]
  | pointerNumber => simp only [Native.run, hb.unboxed, hb.unboxed_place ha]
  | intCompare => cases args <;> simp only [Native.run, hb.unboxed, hb.unboxed_place ha]
  | objectText => simp only [Native.run, Native.shown, hb.text ha (of_decide_eq_true hn)]
  | objectEquals =>
    cases hargs rfl with
    | nil => cases hn
    | cons hv _ =>
      obtain ⟨u, rfl, hv⟩ := hv
      rw [show u.name = TypeName.object from of_decide_eq_true hn] at hv
      simp only [Native.run, hb.equal ha hv]
  | _ => cases hn

end CilCompiler
