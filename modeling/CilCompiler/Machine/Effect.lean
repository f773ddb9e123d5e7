import CilCompiler.Machine.Frame

/-!
What instructions do. An instruction changes the world and its own frame, and says how control goes on: behind
it, somewhere else, into a call, or out of the frame. All instructions are run by `Frame.exec`, a short form
as the long form it stands for.
-/

namespace CilCompiler

/-- What an instruction does besides changing the world. -/
inductive Effect where
  /-- Control goes on behind the instruction. -/
  | next (f : Frame)
  | jump (f : Frame) (target : Nat)
  | call (f : Frame) (use : ResultUse) (r : Method) (args : List Value)
  | ret (v : Value)
  | fail (c : InstrCause)
  | missing

/-- The long form of an instruction: a short form with the number it stands for. A short form that stores to a local
    pops what it stores (`Opcode.pops_shortLocal`). -/
def Instr.expanded (i : Instr) : Instr :=
  match i.op.shortInt? with
  | some v => { op := .ldc, operand := .int v }
  | none =>
    match i.op.shortArg? with
    | some n => { op := .ldarg, operand := .int (Int32.ofNat n) }
    | none =>
      match i.op.shortLocal? with
      | some n =>
        { op := if i.op.row.pops = 1 then .stloc else .ldloc, operand := .int (Int32.ofNat n) }
      | none =>
        match i.op with
        | .ldcS => { i with op := .ldc }
        | .ldargS => { i with op := .ldarg }
        | .ldargaS => { i with op := .ldarga }
        | .stargS => { i with op := .starg }
        | _ => i

/-- The short forms that store to locals are those that pop a value, and they stand together in the order of the opcodes. -/
theorem Opcode.pops_shortLocal {op : Opcode} {n : Nat} (h : op.shortLocal? = some n) :
    op.row.pops = 1 ↔ stloc0.number ≤ op.number ∧ op.number ≤ stloc3.number := by
  cases op <;> cases h <;> decide

/-- The number in an operand. -/
def Operand.number : Operand → Int32
  | .int v => v
  | _ => 0

/-- The result of an operator on numbers. -/
def arithmeticResult (op : Opcode) (a b : Int32) : Except InstrCause Int32 :=
  match op with
  | .add => .ok (a + b)
  | .sub => .ok (a - b)
  | .mul => .ok (a * b)
  | .div =>
    if b = 0 then .error (.divideByZero op.mnemonic)
    else if a.toInt = -2147483648 ∧ b = -1 then .error (.overflow op.mnemonic a.toInt)
    else .ok (a / b)
  | .rem =>
    if b = 0 then .error (.divideByZero op.mnemonic)
    else if a.toInt = -2147483648 ∧ b = -1 then .error (.overflow op.mnemonic a.toInt)
    else .ok (a % b)
  | .and => .ok (a &&& b)
  | .or => .ok (a ||| b)
  | .xor => .ok (a ^^^ b)
  | .cgt => .ok (if b < a then 1 else 0)
  | .clt => .ok (if a < b then 1 else 0)
  | _ => .error (.notExecutable op.mnemonic)

namespace Frame

def push (f : Frame) (v : Value) : Frame := { f with stack := v :: f.stack }

/-- Takes the topmost values off the stack; the one pushed first comes first. -/
def popN? (f : Frame) (n : Nat) : Option (List Value × Frame) :=
  if f.stack.length < n then none
  else some ((f.stack.take n).reverse, { f with stack := f.stack.drop n })

/-- The cell of an argument. -/
def arg? (f : Frame) (n : Int32) : Option Nat :=
  if 0 ≤ n.toInt ∧ n.toInt < f.argCount then some (f.args + n.toInt.toNat) else none

/-- The cell of a local. -/
def local? (f : Frame) (n : Int32) : Option Nat :=
  if 0 ≤ n.toInt ∧ n.toInt < f.body.locals.size then some (f.locals + n.toInt.toNat) else none

def loadCell (f : Frame) (h : Heap) : Option Nat → Effect
  | some c => .next (f.push (h.load (.cell c)))
  | none => .missing

def loadCellAddress (f : Frame) : Option Nat → Effect
  | some c => .next (f.push (.addr (.cell c)))
  | none => .missing

/-- Stores the value on the stack. -/
def storeTo (f : Frame) (w : World) (a : Address) : Effect × World :=
  match f.stack with
  | v :: rest => (.next { f with stack := rest }, { w with heap := w.heap.store a v })
  | [] => (.missing, w)

def storeCell (f : Frame) (w : World) : Option Nat → Effect × World
  | some c => f.storeTo w (.cell c)
  | none => (.missing, w)

def execBinary (f : Frame) (h : Heap) (op : Opcode) : Effect :=
  match f.stack with
  | b :: a :: rest =>
    match h.deref a, h.deref b with
    | .int x, .int y =>
      match arithmeticResult op x y with
      | .ok v => .next { f with stack := .int v :: rest }
      | .error c => .fail c
    | a, b => .fail (.operandKinds op.mnemonic a.kindName b.kindName)
  | _ => .missing

def execUnary (f : Frame) (h : Heap) (op : Opcode) (g : Int32 → Int32) : Effect :=
  match f.stack with
  | a :: rest =>
    match h.deref a with
    | .int x => .next { f with stack := .int (g x) :: rest }
    | a => .fail (.operandKind op.mnemonic a.kindName)
  | _ => .missing

def execEqual (f : Frame) (h : Heap) : Effect :=
  match f.stack with
  | b :: a :: rest => .next { f with stack := .bool (h.same a b) :: rest }
  | _ => .missing

/-- Turns a number or a method pointer into a number. -/
def execConvert (m : Machine) (f : Frame) (w : World) (op : Opcode) : Effect × World :=
  match f.stack with
  | a :: rest =>
    match w.heap.deref a with
    | .int x => (.next { f with stack := .int x :: rest }, w)
    | .func r =>
      let (n, w) := w.numberOf m.module r
      (.next { f with stack := .int n :: rest }, w)
    | a => (.fail (.operandKind op.mnemonic a.kindName), w)
  | _ => (.missing, w)

def execBranch (f : Frame) (x : Operand) (taken : Value → Bool) : Effect :=
  match f.stack, x with
  | v :: rest, .offset target =>
    if taken v then .jump { f with stack := rest } target else .next { f with stack := rest }
  | _, _ => .missing

/-- Calls a constructor on an object that is there already. -/
def execCtorCall (f : Frame) (h : Heap) (c : Method) : Effect :=
  match f.popN? c.argCount with
  | some (self :: rest, f) =>
    if (h.deref self).isNull then .fail (.constructorOnNull c.owner.name)
    else .call f .drop c (self :: rest)
  | _ => .missing

def execCall (m : Machine) (f : Frame) (h : Heap) (op : Opcode) (r : Method) : Effect :=
  match f.popN? r.argCount with
  | none => .missing
  | some (args, f) =>
    let use : ResultUse := if r.returnsVoid then .drop else .push
    if r.isStatic then .call f use r args
    else
      match args with
      | [] => .missing
      | self :: _ =>
        if (h.deref self).isNull then .fail (.callOnNull op.mnemonic r.owner.name r.name)
        else .call f use (if op = .callvirt then m.virtualTarget h self r else r) args

/-- Makes an object and calls its constructor; the runtime makes delegates itself. -/
def execNew (m : Machine) (f : Frame) (w : World) (c : Method) : Effect × World :=
  match f.popN? c.params.length, m.def? c.owner, m.routine? c with
  | some (args, f), some d, some x =>
    if c.owner.isDelegate && x.impl = .runtime then
      match args with
      | [target, .func method] =>
        let (id, w) := w.makeObject m.module d fun o => { o with target, method }
        (.next (f.push (.obj id)), w)
      | _ => (.fail (.delegateOperands c.owner.name), w)
    else
      let (id, w) := w.makeObject m.module d fun o => o
      (.call f (.object (.obj id)) c (.obj id :: args), w)
  | _, _, _ => (.missing, w)

def execVirtualPointer (m : Machine) (f : Frame) (h : Heap) (r : Method) : Effect :=
  match f.stack with
  | v :: rest =>
    if (h.deref v).isNull then .fail (.virtualPointerOnNull r.name)
    else .next { f with stack := .func (some (m.virtualTarget h v r)) :: rest }
  | _ => .missing

/-- The cell of an object's field. -/
def fieldCell (h : Heap) (op : Opcode) (x : Field) (recv : Value) : Except Effect Nat :=
  match h.deref recv with
  | .obj id =>
    match h.objects[id]? with
    | none => .error .missing
    | some o =>
      match x.slot with
      | some slot =>
        if slot < o.count then .ok (o.first + slot)
        else .error (.fail (.noFieldSlot o.type.name x.owner.name x.name))
      | none => .error (.fail (.noFieldSlot o.type.name x.owner.name x.name))
  | v => .error (.fail (.fieldOf op.mnemonic x.name v.kindName))

/-- The cell of an array's element. -/
def elementCell (h : Heap) (op : Opcode) (array index : Value) : Except Effect Nat :=
  match h.deref array with
  | .arr id =>
    match h.deref index with
    | .int i =>
      match h.arrays[id]? with
      | none => .error .missing
      | some a =>
        if 0 ≤ i.toInt ∧ i.toInt < a.count then .ok (a.first + i.toInt.toNat)
        else .error (.fail (.indexOutside i.toInt a.count))
    | v => .error (.fail (.indexKind op.mnemonic v.kindName))
  | v => .error (.fail (.elementOf op.mnemonic v.kindName))

/-- Replaces what addressed a cell by what the cell holds, or by its address. -/
def loadFound (f : Frame) (h : Heap) (rest : List Value) (byAddress : Bool) : Except Effect Nat → Effect
  | .ok c => .next { f with stack := (if byAddress then .addr (.cell c) else h.load (.cell c)) :: rest }
  | .error e => e

/-- Stores a value in a cell that was addressed. -/
def storeFound (f : Frame) (w : World) (rest : List Value) (v : Value) : Except Effect Nat → Effect × World
  | .ok c => (.next { f with stack := rest }, { w with heap := w.heap.store (.cell c) v })
  | .error e => (e, w)

def execField (f : Frame) (w : World) (op : Opcode) (x : Field) : Effect × World :=
  match op, f.stack with
  | .ldfld, recv :: rest => (f.loadFound w.heap rest false (fieldCell w.heap op x recv), w)
  | .ldflda, recv :: rest => (f.loadFound w.heap rest true (fieldCell w.heap op x recv), w)
  | .stfld, v :: recv :: rest =>
    let c := fieldCell w.heap op x recv
    f.storeFound w rest v c
  | _, _ => (.missing, w)

def execElement (f : Frame) (w : World) (op : Opcode) : Effect × World :=
  match op, f.stack with
  | .ldelem, index :: array :: rest => (f.loadFound w.heap rest false (elementCell w.heap op array index), w)
  | .ldelema, index :: array :: rest => (f.loadFound w.heap rest true (elementCell w.heap op array index), w)
  | .stelem, v :: index :: array :: rest =>
    let c := elementCell w.heap op array index
    f.storeFound w rest v c
  | _, _ => (.missing, w)

def execNewArray (f : Frame) (w : World) (elem : Ty) : Effect × World :=
  match f.stack with
  | v :: rest =>
    match w.heap.deref v with
    | .int n =>
      if n < 0 then (.fail (.negativeSize n.toInt), w)
      else
        let (id, heap) := w.heap.addArray elem n.toInt.toNat
        (.next { f with stack := .arr id :: rest }, { w with heap })
    | v => (.fail (.sizeKind v.kindName), w)
  | _ => (.missing, w)

def execLength (f : Frame) (h : Heap) : Effect :=
  match f.stack with
  | v :: rest =>
    match h.deref v with
    | .arr id =>
      match h.arrays[id]? with
      | some a => .next { f with stack := .int (Int32.ofNat a.count) :: rest }
      | none => .missing
    | v => .fail (.lengthOf v.kindName)
  | _ => .missing

/-- Puts a value of a value type into an object; anything else stays as it is. -/
def execBox (m : Machine) (f : Frame) (w : World) (t : Ty) : Effect × World :=
  match f.stack with
  | v :: rest =>
    if t.isValue then
      match m.def? t with
      | some d =>
        let boxed := w.heap.deref v
        let (id, w) := w.makeObject m.module d fun o => { o with boxed := some boxed }
        (.next { f with stack := .obj id :: rest }, w)
      | none => (.missing, w)
    else (.next f, w)
  | _ => (.missing, w)

def execDup (f : Frame) : Effect :=
  match f.stack with
  | v :: rest => .next { f with stack := v :: v :: rest }
  | [] => .missing

def execPop (f : Frame) : Effect :=
  match f.stack with
  | _ :: rest => .next { f with stack := rest }
  | [] => .missing

/-- Runs an instruction in its long form. -/
def execLong (m : Machine) (w : World) (f : Frame) (i : Instr) : Effect × World :=
  match i.op, i.operand with
  | .nop, _ => (.next f, w)
  | .ldnull, _ => (.next (f.push .null), w)
  | .ldc, x => (.next (f.push (.int x.number)), w)
  | .ldstr, .str s => (.next (f.push (.str s)), w)
  | .ldarg, x => (f.loadCell w.heap (f.arg? x.number), w)
  | .ldarga, x => (f.loadCellAddress (f.arg? x.number), w)
  | .starg, x => f.storeCell w (f.arg? x.number)
  | .ldloc, x => (f.loadCell w.heap (f.local? x.number), w)
  | .ldloca, x => (f.loadCellAddress (f.local? x.number), w)
  | .stloc, x => f.storeCell w (f.local? x.number)
  | .dup, _ => (f.execDup, w)
  | .pop, _ => (f.execPop, w)
  | .ret, _ => (.ret (f.stack.headD .null), w)
  | .br, .offset target => (.jump f target, w)
  | .brtrue, x => (f.execBranch x Value.isTrue, w)
  | .brfalse, x => (f.execBranch x fun v => !v.isTrue, w)
  | .ceq, _ => (f.execEqual w.heap, w)
  | .neg, _ => (f.execUnary w.heap i.op fun v => -v, w)
  | .not, _ => (f.execUnary w.heap i.op fun v => ~~~v, w)
  | .convI4, _ => f.execConvert m w i.op
  | .call, .method r | .callvirt, .method r => (f.execCall m w.heap i.op r, w)
  | .call, .ctor c => (f.execCtorCall w.heap c, w)
  | .newobj, .ctor c => f.execNew m w c
  | .ldftn, .method r => (.next (f.push (.func (some r))), w)
  | .ldvirtftn, .method r => (f.execVirtualPointer m w.heap r, w)
  | .ldfld, .field x | .ldflda, .field x | .stfld, .field x => f.execField w i.op x
  | .ldsfld, .field x => (.next (f.push (w.heap.load (.static x))), w)
  | .ldsflda, .field x => (.next (f.push (.addr (.static x))), w)
  | .stsfld, .field x => f.storeTo w (.static x)
  | .newarr, .type t => f.execNewArray w t
  | .ldlen, _ => (f.execLength w.heap, w)
  | .ldelem, _ | .ldelema, _ | .stelem, _ => f.execElement w i.op
  | .box, .type t => f.execBox m w t
  | .add, _ | .sub, _ | .mul, _ | .div, _ | .rem, _ | .and, _ | .or, _ | .xor, _ | .cgt, _ | .clt, _ =>
    (f.execBinary w.heap i.op, w)
  | op, _ => (.fail (.notExecutable op.mnemonic), w)

/-- Runs an instruction. -/
def exec (m : Machine) (w : World) (f : Frame) (i : Instr) : Effect × World := f.execLong m w i.expanded

end Frame

end CilCompiler
