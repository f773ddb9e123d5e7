import CilCompiler.Lowering.Reference

/-!
Lowering of expressions. Code for an expression pushes one value, none if its type is void, and the
lowering says what was pushed. The type the context wants is used only to choose the delegate type of a
method reference.
-/

namespace CilCompiler.Lower

/-! ### Operators -/

/-- Turns the boolean on the stack around. -/
def negate : Lower Unit := do
  emit (.int .ldc 0)
  emit (.plain .ceq)

/-- Compares the operands on the stack; there is no instruction for three of the comparisons. -/
def emitComparison : BinaryOp → Lower Unit
  | .lt => emit (.plain .clt)
  | .gt => emit (.plain .cgt)
  | .ne => do
    emit (.plain .ceq)
    negate
  | .le => do
    emit (.plain .cgt)
    negate
  | .ge => do
    emit (.plain .clt)
    negate
  | _ => emit (.plain .ceq)

/-- Whether an operator compares for equality. -/
def isEquality : BinaryOp → Bool
  | .eq | .ne => true
  | _ => false

def compare (op : BinaryOp) (lt rt : Option Ty) : Lower Pushed := do
  let roles := (← read).roles
  if isEquality op then
    if Ty.same lt rt || (lt.isNone && Ty.accepts rt none) || (rt.isNone && Ty.accepts lt none) then pure ()
    else fail (.typing (.cannotCompare (Ty.shown lt) (Ty.shown rt)))
  else if Ty.same lt (some roles.int32) && Ty.same rt (some roles.int32) then pure ()
  else fail (.typing (.needsInts op.spelling (Ty.shown lt) (Ty.shown rt)))
  emitComparison op
  return { type := some roles.boolean }

/-- The instruction of an operator on integers. -/
def arithmetic : BinaryOp → Opcode
  | .add => .add
  | .sub => .sub
  | .mul => .mul
  | .div => .div
  | .rem => .rem
  | .and => .and
  | .or => .or
  | _ => .nop

/-- Applies an operator to the operands on the stack. -/
def applyBinary (op : BinaryOp) (lt rt : Option Ty) : Lower Pushed := do
  let roles := (← read).roles
  if Ty.isVoidOpt lt || Ty.isVoidOpt rt then fail (.typing (.voidOperand op.spelling))
  else if op.isComparison then compare op lt rt
  else if !Ty.same lt rt then fail (.typing (.operandsDiffer op.spelling (Ty.shown lt) (Ty.shown rt)))
  else if op = .and ∨ op = .or then
    if Ty.same lt (some roles.int32) || Ty.same lt (some roles.boolean) then
      emit (.plain (arithmetic op))
      return { type := lt }
    else fail (.typing (.needsIntOrBool op.spelling (Ty.shown lt)))
  else if op = .add ∧ Ty.same lt (some roles.string) then
    let concat ← ofExcept ((← symbols).findMethod roles.string "Concat" [lt, rt] true)
    emit (.method .call concat)
    return { type := some roles.string }
  else if Ty.same lt (some roles.int32) then
    emit (.plain (arithmetic op))
    return { type := lt }
  else fail (.typing (.needsInt op.spelling (Ty.shown lt)))

/-- Applies an operator to the operand on the stack. -/
def applyUnary (op : UnaryOp) (t : Option Ty) : Lower Pushed := do
  let roles := (← read).roles
  if op = .neg ∧ Ty.same t (some roles.int32) then emit (.plain .neg)
  else if op = .not ∧ Ty.same t (some roles.boolean) then negate
  else if op = .not ∧ Ty.same t (some roles.int32) then emit (.plain .not)
  else fail (.typing (.operatorDoesNotApply op.spelling (Ty.shown t)))
  return { type := t }

/-! ### Elements and members -/

/-- Pushes an array and an index, and gives the element type. -/
def element (array : Lower Pushed) (position : Option Ty → Lower Pushed) : Lower Ty := do
  let a ← array
  match a.type.bind Ty.elem? with
  | none => fail (.typing (.notArray (Ty.shown a.type)))
  | some elem =>
    let int32 := (← read).roles.int32
    let i ← position (some int32)
    if Ty.same i.type (some int32) then return elem
    else fail (.typing (.indexNotInt (Ty.shown i.type)))

/-- Loads an element, or its address where it is to be called on and holds a value. -/
def loadElement (elem : Ty) (called : Bool) : Lower Pushed := do
  if called && elem.isValue then
    emit (.type .ldelema (some elem))
    return { type := some elem, isAddress := true }
  else
    emit (.type .ldelem (some elem))
    return { type := some elem }

/-- A member of a type: a static field, or a method as a delegate where one is wanted. -/
def staticMember (t : Ty) (name : Text) (hint : Option Ty) (called : Bool) : Lower Pushed := do
  match ← fieldAlong t name with
  | .ok f =>
    if f.isStatic then loadField f called
    else fail (.shape (.fieldNeedsObject t.name name))
  | .error e =>
    match hint, (← symbols).delegate? hint with
    | some dt, some d =>
      if ((← symbols).methodsAlong (← read).roles.object t name).isEmpty then fail e
      else typeReference t name dt d
    | _, _ => fail e

/-- A member of the object on the stack: the length of an array, a field, a method as a delegate where one is
    wanted, or a property. -/
def instanceMember (t : Ty) (isAddress : Bool) (name : Text) (hint : Option Ty) (called : Bool) : Lower Pushed := do
  let roles := (← read).roles
  if t.isArray && name = "Length" then
    emit (.plain .ldlen)
    return { type := some roles.int32 }
  else
    match ← fieldAlong t name with
    | .ok f =>
      if f.isStatic then fail (.shape (.staticFieldAccessed t.name name))
      else loadField f called
    | .error _ =>
      match hint, (← symbols).delegate? hint with
      | some dt, some d =>
        if ((← symbols).methodsAlong roles.object t name).isEmpty then property roles t isAddress name
        else boundReference t name dt d
      | _, _ => property roles t isAddress name
where
  property (roles : Roles) (t : Ty) (isAddress : Bool) (name : Text) : Lower Pushed := do
    match (← symbols).resolve roles.object t ("get_" ++ name) [] false with
    | .ok m => callGetter t isAddress m
    | .error _ => fail (.lookup (.missingProperty t.name name))

/-! ### Expressions -/

/-- Makes an object with the arguments of a constructor. -/
def construct (t : Ty) (args : Arguments) : Lower Pushed := do
  if t.isValue then fail (.shape (.constructedValueType t.name))
  else
    let types ← args.push (Ty.hints ((← read).ctorsOf t) args.count)
    let ctor ← ofExcept ((← symbols).findConstructor t types)
    emit (.ctor .newobj ctor)
    return { type := some t }

/-- Makes an array. -/
def constructArray (elem : Text) (size : Option Ty → Lower Pushed) : Lower Pushed := do
  let array ← lookupType (TypeName.array elem)
  let int32 := (← read).roles.int32
  let n ← size (some int32)
  if Ty.same n.type (some int32) then
    emit (.type .newarr array.elem?)
    return { type := some array }
  else fail (.typing (.sizeNotInt (Ty.shown n.type)))

mutual

/-- Lowers an expression. `hint` is the type the context wants; `called` asks for the address of a variable,
    field or element that holds a value, so that a call on it sees the place itself. -/
def expr : Expr → (hint : Option Ty) → (called : Bool) → Lower Pushed
  | .missing, _, _ => fail (.shape .missingExpression)
  | .int v, _, _ => do
    emit (.int .ldc v)
    return { type := some (← read).roles.int32 }
  | .bool b, _, _ => do
    emit (.int .ldc (if b then 1 else 0))
    return { type := some (← read).roles.boolean }
  | .string s, _, _ => do
    emit (.str .ldstr s)
    return { type := some (← read).roles.string }
  | .null, _, _ => do
    emit (.plain .ldnull)
    return { type := none }
  | .this, _, _ => do
    requireInstance "this"
    emitThis
    return { type := some (← read).owner }
  | .ident name, hint, called => ident name hint called
  | .member target name, hint, called => do
    match ← typeTarget target with
    | some t => staticMember t name hint called
    | none => do
      let bindable := ((← symbols).delegate? hint).isSome
      let (t, isAddress) ← receiver (expr target none !bindable) name
      instanceMember t isAddress name hint called
  | .index array position, _, called => do
    let elem ← element (expr array none false) (fun hint => expr position hint false)
    loadElement elem called
  | .binary op left right, _, _ => do
    let l ← expr left none false
    let r ← expr right l.type false
    applyBinary op l.type r.type
  | .unary op operand, _, _ => do
    let v ← expr operand none false
    applyUnary op v.type
  | .call target name args, _, _ => do
    let given : Arguments := { count := args.length, push := fun hints => arguments 1 hints args }
    if target.isMissing then callOwn name given
    else
      match ← typeTarget target with
      | some t => callStatic t name (← hintsFor t name true given.count) given
      | none => do
        let (t, isAddress) ← receiver (expr target none true) name
        callInstance t isAddress name given
  | .new type args, _, _ => do
    let t ← lookupType type
    match (← symbols).delegate? (some t) with
    | some _ => delegateOf t args
    | none => construct t { count := args.length, push := fun hints => arguments 1 hints args }
  | .newArray elem size, _, _ => constructArray elem (fun hint => expr size hint false)
  | .methodRef target name spelling, hint, _ => reference target (expr target none false) name spelling hint

/-- Lowers arguments from left to right and gives their types; `position` is the number of the first. -/
def arguments (position : Nat) (hints : List (Option Ty)) : List Expr → Lower (List (Option Ty))
  | [] => return []
  | e :: rest => do
    let v ← expr e hints.head?.join false
    if Ty.isVoidOpt v.type then fail (.typing (.voidArgument position))
    else
      let types ← arguments (position + 1) hints.tail rest
      return v.type :: types

/-- A delegate is made from one method reference, however it is written. -/
def delegateOf (dt : Ty) : List Expr → Lower Pushed
  | [e] => methodGroup dt e
  | _ => fail (.shape (.delegateArguments dt.name))

/-- The delegate of a method named by an expression. -/
def methodGroup (dt : Ty) : Expr → Lower Pushed
  | .methodRef target name spelling => reference target (expr target none false) name spelling (some dt)
  | .ident name => reference .missing (fail (.shape .missingExpression)) name .empty (some dt)
  | .member target name => reference target (expr target none false) name .empty (some dt)
  | _ => fail (.shape (.delegateArguments dt.name))

end

/-- Lowers an expression for its value and gives its type. -/
def value (e : Expr) (hint : Option Ty) : Lower (Option Ty) := return (← expr e hint false).type

end CilCompiler.Lower
