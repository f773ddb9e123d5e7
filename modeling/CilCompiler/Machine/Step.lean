import CilCompiler.Machine.Frame
import CilCompiler.Machine.Effect

/-!
Calls. A call is over at once where the runtime or the host supplies the method, and adds a frame where code
runs; every call uses up one of the levels it was given. All calls begin in `Machine.enter`.

Runs. The machine runs finished bodies one instruction at a time: `Machine.step` runs one instruction of the
innermost call, and a return gives its value to the frame below.
-/

namespace CilCompiler

/-- How a call begins. -/
inductive Entered where
  /-- It is over already. -/
  | value (v : Value)
  /-- It runs code. -/
  | frame (f : Frame)
  | halt (h : Halt)

namespace Machine

/-- A frame for a body, with cells for its arguments and locals. -/
def frameFor (w : World) (r : Method) (b : Body) (args : List Value) (levels : Nat) (use : ResultUse) : Frame × World :=
  let (firstArg, heap) := w.heap.allocate args
  let (firstLocal, heap) := heap.allocate (b.locals.toList.map fun t => .zero (some t))
  ({ method := r, body := b, args := firstArg, argCount := args.length, locals := firstLocal, levels, use },
    { w with heap })

/-- Binds a delegate to the object and method its constructor is given. -/
def bindDelegate (w : World) (id : Nat) : List Value → Entered × World
  | target :: method :: _ =>
    (.value .null, { w with heap := w.heap.modifyObject id fun o => { o with target, method := method.method? } })
  | _ => (.halt .missing, w)

/-- Calls a method that may call at most `levels` deep, itself included. -/
def enter (m : Machine) (use : ResultUse) : (levels : Nat) → Method → List Value → World → Entered × World
  | 0, r, _, w => (.halt (.fault (.runtime (.depthExceeded m.maxDepth r.owner.name r.name))), w)
  | levels + 1, r, args, w =>
    match m.routine? r with
    | none => (.halt .missing, w)
    | some x =>
      match x.native with
      | some n =>
        match n.run m.module w args with
        | (.ok v, w) => (.value v, w)
        | (.error h, w) => (.halt h, w)
      | none =>
        if x.impl = .runtime then
          match args with
          | [] => (.halt .missing, w)
          | self :: rest =>
            match w.heap.deref self with
            | .obj id =>
              match w.heap.objects[id]? with
              | none => (.halt .missing, w)
              | some o =>
                if r.name = Method.ctorName then bindDelegate w id rest
                else if r.name = Method.invokeName then
                  match o.method with
                  | none => (.halt (.fault (.runtime (.unboundDelegate o.type.name))), w)
                  | some target =>
                    if target.isStatic then m.enter use levels target rest w
                    else if o.target.isNull then (.halt (.fault (.runtime (.delegateWithoutReceiver o.type.name))), w)
                    else m.enter use levels target (o.target :: rest) w
                else (.halt (.fault (.runtime (.notRuntimeMember r.owner.name r.name))), w)
            | _ => (.halt (.fault (.runtime (.nullDelegate r.owner.name r.name))), w)
        else
          match x.body with
          | some b =>
            let (f, w) := frameFor w r b args levels use
            (.frame f, w)
          | none =>
            if (m.def? r.owner).any TypeDef.isCreated then
              (.halt (.fault (.runtime (.noImplementation r.owner.name r.name))), w)
            else (.halt (.fault (.backend (.memberNotFinalized r.owner.name r.name))), w)

end Machine

/-- A run in progress. -/
structure Running where
  /-- The frames, that of the innermost call first. -/
  frames : List Frame
  world : World
  /-- How many instructions have been begun. -/
  steps : Nat := 0

/-- Where a run stands. -/
inductive Progress where
  | running (s : Running)
  | done (v : Value) (w : World)
  | halted (h : Halt) (w : World)

namespace Machine

/-- After this many instructions a run looks whether it was canceled. -/
def checkInterval : Nat := 4096

/-- Gives the result of a call to the frame below. -/
def deliver (frames : List Frame) (w : World) (steps : Nat) (use : ResultUse) (v : Value) : Progress :=
  match frames with
  | [] =>
    match use with
    | .object o => .done o w
    | _ => .done v w
  | f :: rest =>
    let f := match use with
      | .push => f.push v
      | .drop => f
      | .object o => f.push o
    .running { frames := f :: rest, world := w, steps }

/-- Goes on with a call that has begun. -/
def proceed (frames : List Frame) (steps : Nat) (use : ResultUse) : Entered × World → Progress
  | (.value v, w) => deliver frames w steps use v
  | (.frame f, w) => .running { frames := f :: frames, world := w, steps }
  | (.halt h, w) => .halted h w

/-- The fault of an instruction. -/
def faultAt (r : Method) (pc : Nat) (c : InstrCause) : Halt :=
  .fault (.runtime (.instruction r.owner.name r.name pc c))

/-- Runs one instruction of the innermost call. -/
def step (m : Machine) (s : Running) : Progress :=
  match s with
  | { frames := [], world, .. } => .done .null world
  | { frames := f :: rest, world, steps } =>
    match f.body.code[f.pc]? with
    | none => .halted (faultAt f.method f.pc .controlLeft) world
    | some i =>
      let steps := steps + 1
      if steps % checkInterval = 0 ∧ m.isCanceled then
        .halted (.fault (.within (Text.join [f.method.owner.name, "::", f.method.name]) .canceled)) world
      else
        match f.exec m world i with
        | (.next f, w) => .running { frames := { f with pc := f.pc + 1 } :: rest, world := w, steps }
        | (.jump f target, w) => .running { frames := { f with pc := target } :: rest, world := w, steps }
        | (.call f use r args, w) =>
          let levels := f.levels
          proceed ({ f with pc := f.pc + 1 } :: rest) steps use (m.enter use levels r args w)
        | (.ret v, w) => deliver rest w steps f.use v
        | (.fail c, w) => .halted (faultAt f.method f.pc c) w
        | (.missing, w) => .halted .missing w

/-- Runs at most `fuel` instructions. -/
def run (m : Machine) : (fuel : Nat) → Progress → Progress
  | fuel + 1, .running s => run m fuel (m.step s)
  | _, p => p

/-- The beginning of a call from outside. -/
def invoke (m : Machine) (w : World) (r : Method) (args : List Value) : Progress :=
  if !(m.def? r.owner).any TypeDef.isCreated then
    .halted (.fault (.backend (.memberNotFinalized r.owner.name r.name))) w
  else if args.length ≠ r.argCount then
    .halted (.fault (.runtime (.argumentCount r.owner.name r.name r.argCount args.length))) w
  else proceed [] 0 .push (m.enter .push m.maxDepth r args w)

/-- The beginning of making an object from outside, with the first constructor that takes as many
    arguments. -/
def construct (m : Machine) (w : World) (t : Ty) (args : List Value) : Progress :=
  match m.def? t with
  | none => .halted (.fault (.lookup (.noConstructorOfArity t.name args.length))) w
  | some d =>
    if !d.isCreated then .halted (.fault (.backend (.typeNotFinalized t.name))) w
    else
      match d.ctors.find? fun x => x.method.params.length = args.length with
      | none => .halted (.fault (.lookup (.noConstructorOfArity t.name args.length))) w
      | some x =>
        let (id, w) := w.makeObject m.module d fun o => o
        let use : ResultUse := .object (.obj id)
        proceed [] 0 use (m.enter use m.maxDepth x.method (.obj id :: args) w)

/-- The beginning of a run from the entry point. -/
def start (m : Machine) (w : World) : Progress :=
  match m.modules[m.module]? with
  | none => .halted .missing w
  | some x =>
    match x.entry with
    | none => .halted (.fault (.lookup (.noEntryPoint x.name))) w
    | some r => m.invoke w r []

/-- The exit code of a run with a result. -/
def exitCode : Value → Int
  | .int v => v.toInt
  | _ => 0

end Machine

end CilCompiler
