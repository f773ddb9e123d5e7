import CilCompiler.Lowering.Resolution
import CilCompiler.Lowering.Scope

/-!
Names and references: loading variables and fields, taking a method as a delegate, and calls. Where an
operand is an expression, the code that lowers it is passed in.
-/

namespace CilCompiler.Lower

/-! ### Fields and types -/

/-- The field of a name on a type or its bases. -/
def fieldAlong (t : Ty) (name : Text) : Lower (Except Fault Field) := fun c w =>
  .ok (w.symbols.fieldAlong c.roles.object t name, w)

/-- The type an expression names, if it is a name and stands for a type. -/
def typeTarget : Expr → Lower (Option Ty)
  | .ident name => return (← symbols).entered? name
  | _ => return none

/-- Loads a field, or its address where it is to be called on and holds a value. -/
def loadField (f : Field) (called : Bool) : Lower Pushed := do
  let isAddress := called && f.type.any Ty.isValue
  let op : Opcode := match f.isStatic, isAddress with
    | true, true => .ldsflda
    | true, false => .ldsfld
    | false, true => .ldflda
    | false, false => .ldfld
  emit (.field op f)
  return { type := f.type, isAddress }

/-- The operand before the dot. Null and void have no members. -/
def receiver (operand : Lower Pushed) (member : Text) : Lower (Ty × Bool) := do
  let v ← operand
  match v.type with
  | none => fail (.typing (.memberOfNull member))
  | some t => if t.isVoid then fail (.typing (.memberOfVoid member)) else return (t, v.isAddress)

/-! ### Methods as delegates -/

/-- The delegate type of a method reference: the one it names, or the one its context wants. -/
def delegateType (hint : Option Ty) (spelling name : Text) : Lower (Ty × Delegate) := do
  let wanted ← if spelling.isEmpty then pure hint else some <$> lookupType spelling
  match wanted with
  | none => fail (.typing (.undirectedReference name))
  | some t =>
    match (← symbols).delegate? (some t) with
    | some d => return (t, d)
    | none => fail (.typing (.notDelegate t.name))

def delegateTarget (t : Ty) (name : Text) (only : Option Bool) (dt : Ty) (d : Delegate) : Lower Method := do
  ofExcept ((← symbols).delegateTarget (← read).roles.object t name only d dt)

/-- Pushes null and a static method. -/
def staticFunction (m : Method) : Lower Unit := do
  emit (.plain .ldnull)
  emit (.method .ldftn m)

/-- Turns the receiver on the stack into a receiver and its method; a value is boxed. -/
def boundFunction (recv : Ty) (m : Method) : Lower Unit := do
  if recv.isValue then emit (.type .box (some recv))
  emit (.plain .dup)
  emit (.method .ldvirtftn m)

/-- Makes a delegate of the object and method on the stack. -/
def makeDelegate (dt : Ty) (d : Delegate) : Lower Pushed := do
  emit (.ctor .newobj d.ctor)
  return { type := some dt }

/-- A method of the enclosing type as a delegate. -/
def ownReference (name : Text) (dt : Ty) (d : Delegate) : Lower Pushed := do
  let c ← read
  let m ← delegateTarget c.owner name (if c.isStatic then some true else none) dt d
  if m.isStatic then staticFunction m
  else
    emitThis
    boundFunction c.owner m
  makeDelegate dt d

/-- A static method of a type as a delegate. -/
def typeReference (t : Ty) (name : Text) (dt : Ty) (d : Delegate) : Lower Pushed := do
  let m ← delegateTarget t name (some true) dt d
  staticFunction m
  makeDelegate dt d

/-- A method of the object on the stack as a delegate. -/
def boundReference (recv : Ty) (name : Text) (dt : Ty) (d : Delegate) : Lower Pushed := do
  let m ← delegateTarget recv name (some false) dt d
  boundFunction recv m
  makeDelegate dt d

/-- A method reference. -/
def reference (target : Expr) (operand : Lower Pushed) (name spelling : Text) (hint : Option Ty) : Lower Pushed := do
  let (dt, d) ← delegateType hint spelling name
  if target.isMissing then ownReference name dt d
  else
    match ← typeTarget target with
    | some t => typeReference t name dt d
    | none => do
      let (t, _) ← receiver operand name
      boundReference t name dt d

/-- Loads a bare name: a local, a parameter, a field, or a method as a delegate. -/
def ident (name : Text) (hint : Option Ty) (called : Bool) : Lower Pushed := do
  let c ← read
  match ← local? name with
  | some l =>
    if called && l.type.isValue then
      emit (.local .ldloca (some l))
      return { type := some l.type, isAddress := true }
    else
      emit (.local .ldloc (some l))
      return { type := some l.type }
  | none =>
    match c.param? name with
    | some (index, t) =>
      if called && t.isValue then
        emit (.arg .ldarga index)
        return { type := some t, isAddress := true }
      else
        emit (.arg .ldarg index)
        return { type := some t }
    | none =>
      match ← fieldAlong c.owner name with
      | .ok f =>
        if !f.isStatic then
          requireInstance ("field " ++ name)
          emitThis
        loadField f called
      | .error _ =>
        if ((← symbols).methodsOf c.owner name).isEmpty then
          fail (.lookup (.unknownName name c.owner.name))
        else
          let (dt, d) ← delegateType hint .empty name
          ownReference name dt d

/-! ### Calls -/

def callOp (t : Ty) : Opcode := if t.isValue then .call else .callvirt

def resolve (t : Ty) (name : Text) (args : List (Option Ty)) (isStatic : Bool) : Lower Method := do
  ofExcept ((← symbols).resolve (← read).roles.object t name args isStatic)

/-- What the arguments of a call can be. -/
def hintsFor (t : Ty) (name : Text) (isStatic : Bool) (arity : Nat) : Lower (List (Option Ty)) := do
  return Ty.hints ((← symbols).candidates (← read).roles.object t name isStatic) arity

/-- The arguments of a call as code that takes what each of them can be. -/
structure Arguments where
  count : Nat
  push : List (Option Ty) → Lower (List (Option Ty))

/-- A call of a static method. -/
def callStatic (t : Ty) (name : Text) (hints : List (Option Ty)) (args : Arguments) : Lower Pushed := do
  let types ← args.push hints
  let m ← resolve t name types true
  emit (.method .call m)
  return { type := m.ret }

/-- A call on the receiver on the stack; a value is called on through its address. -/
def callInstance (recv : Ty) (isAddress : Bool) (name : Text) (args : Arguments) : Lower Pushed := do
  if recv.isValue && !isAddress then spillAddress recv
  let types ← args.push (← hintsFor recv name false args.count)
  let m ← resolve recv name types false
  emit (.method (callOp recv) m)
  return { type := m.ret }

/-- A call without arguments of a known method on the receiver on the stack. -/
def callGetter (recv : Ty) (isAddress : Bool) (m : Method) : Lower Pushed := do
  if recv.isValue && !isAddress then spillAddress recv
  emit (.method (callOp recv) m)
  return { type := m.ret }

/-- Whether a name stands for a variable that holds a delegate. -/
def isDelegateVariable (name : Text) : Lower Bool := do
  match ← local? name with
  | some l => return l.type.isDelegate
  | none =>
    match (← read).param? name with
    | some (_, t) => return t.isDelegate
    | none =>
      match ← fieldAlong (← read).owner name with
      | .ok f => return f.type.any Ty.isDelegate
      | .error _ => return false

/-- Moves the arguments on the stack into temporaries, the last one first. `types` are their types, last
    first, and `position` is the number of the first of `types`. -/
def spillArguments (name : Text) : (position : Nat) → List (Option Ty) → Lower (List LocalSlot)
  | _, [] => return []
  | position, none :: _ => fail (.typing (.nullArgument position name))
  | position, some t :: rest => do
    let l ← declareLocal .empty t
    emit (.local .stloc (some l))
    let ls ← spillArguments name (position - 1) rest
    return ls ++ [l]

/-- A call where static and other methods of the same arity compete: the arguments are evaluated first and
    put back behind the receiver. -/
def callMixed (name : Text) (args : Arguments) : Lower Pushed := do
  let types ← args.push []
  let temps ← spillArguments name types.length types.reverse
  let owner := (← read).owner
  match ((← symbols).methodsOf owner name).find? fun m => Ty.sameList m.params types with
  | none => fail (.lookup (.noOverload owner.name (signature name types)))
  | some m =>
    if !m.isStatic then emitThis
    for l in temps do emit (.local .ldloc (some l))
    emit (.method (if m.isStatic then .call else callOp owner) m)
    return { type := m.ret }

/-- A call without a target: of a variable that holds a delegate, or of a method of the enclosing type. -/
def callOwn (name : Text) (args : Arguments) : Lower Pushed := do
  let c ← read
  if ← isDelegateVariable name then
    let v ← ident name none false
    match v.type with
    | some t => callInstance t v.isAddress Method.invokeName args
    | none => fail (.typing (.memberOfNull Method.invokeName))
  else
    let all := (← symbols).methodsOf c.owner name
    if all.isEmpty then fail (.lookup (.missingMethod c.owner.name name))
    else
      let fitting := all.filter fun m => m.params.length = args.count
      let statics := fitting.filter Method.isStatic
      let instances := fitting.filter fun m => !m.isStatic
      if c.isStatic && statics.isEmpty && !instances.isEmpty then
        fail (.shape (.instanceMethodInStatic name c.memberName))
      else if c.isStatic || instances.isEmpty then
        callStatic c.owner name (Ty.hints statics args.count) args
      else if statics.isEmpty then
        emitThis
        callInstance c.owner false name args
      else callMixed name args

end CilCompiler.Lower
