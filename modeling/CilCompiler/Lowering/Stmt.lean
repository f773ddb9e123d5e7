import CilCompiler.Lowering.Expr

/-!
Lowering of statements and bodies. Code for a statement leaves the stack as it found it. Branches are
written with labels: a loop jumps to its test first, and a choice to its second part.
-/

namespace CilCompiler

/-- What an assignment stores to, once the value is on the stack. -/
inductive Place where
  | local (l : LocalSlot)
  | arg (index : Nat)
  | field (f : Field)
  | staticField (f : Field)
  | element (elem : Ty)
deriving DecidableEq

namespace Lower

/-! ### Assignments -/

/-- A bare name as the target of an assignment. -/
def identPlace (name : Text) : Lower (Place × Option Ty) := do
  let c ← read
  match ← local? name with
  | some l => return (.local l, some l.type)
  | none =>
    match c.param? name with
    | some (index, t) => return (.arg index, some t)
    | none =>
      match ← fieldAlong c.owner name with
      | .error _ => fail (.lookup (.unassignableName name c.owner.name))
      | .ok f =>
        if f.isStatic then return (.staticField f, f.type)
        else
          requireInstance ("field " ++ name)
          emitThis
          return (.field f, f.type)

/-- A member as the target of an assignment. -/
def memberPlace (target : Expr) (name : Text) : Lower (Place × Option Ty) := do
  match ← typeTarget target with
  | some t =>
    let f ← ofExcept (← fieldAlong t name)
    if f.isStatic then return (.staticField f, f.type)
    else fail (.shape (.fieldNeedsObject t.name name))
  | none =>
    let (t, _) ← receiver (expr target none false) name
    match ← fieldAlong t name with
    | .error e => if t.isArray && name = "Length" then fail (.shape .arrayLengthAssigned) else fail e
    | .ok f =>
      if f.isStatic then fail (.shape (.staticFieldAssigned t.name name))
      else return (.field f, f.type)

/-- Pushes what the target of an assignment needs below the value, and gives its type. -/
def place : Expr → Lower (Place × Option Ty)
  | .ident name => identPlace name
  | .member target name => memberPlace target name
  | .index array position => do
    let elem ← element (expr array none false) (fun hint => expr position hint false)
    return (.element elem, some elem)
  | .missing => fail (.shape .missingTarget)
  | e => fail (.shape (.notAssignable e.kindName))

/-- Stores the value on the stack. -/
def store : Place → Lower Unit
  | .local l => emit (.local .stloc (some l))
  | .arg index => emit (.arg .starg index)
  | .field f => emit (.field .stfld f)
  | .staticField f => emit (.field .stsfld f)
  | .element elem => emit (.type .stelem (some elem))

/-! ### Simple statements -/

/-- Calls the constructor of the base on the receiver. -/
def baseCall : Lower Unit := do
  let base ← ofExcept ((← symbols).findConstructor (← read).roles.object [])
  emitThis
  emit (.ctor .call base)

def returnStmt (e : Expr) : Lower Unit := do
  let c ← read
  if e.isMissing then
    if c.ret.isVoid then emit (.plain .ret)
    else fail (.typing (.returnWithoutValue c.memberName c.ret.name))
  else if c.ret.isVoid then fail (.typing (.valueFromVoid c.memberName))
  else
    let t ← value e (some c.ret)
    expect (some c.ret) t "return value"
    emit (.plain .ret)

/-- The type a declaration gives a local, if it gives one. -/
def declaredType (name type : Text) : Lower (Option Ty) := do
  if type.isEmpty then return none
  else
    let t ← lookupType type
    if t.isVoid then fail (.typing (.voidLocal name)) else return some t

/-- The type of a local with an initializer: the declared one, or that of the initializer. -/
def initializedType (name : Text) (declared initial : Option Ty) : Lower Ty := do
  match declared with
  | some t =>
    expect (some t) initial ("initializer of " ++ name)
    return t
  | none =>
    match initial with
    | none => fail (.typing (.localFromNull name))
    | some t => if t.isVoid then fail (.typing (.voidInitializer name)) else return t

/-- A declaration; the local is added behind its initializer, which cannot refer to it. -/
def localStmt (name type : Text) (init : Expr) : Lower Unit := do
  let c ← read
  if (← local? name).isSome || (c.param? name).isSome then fail (.shape (.repeatedLocal name c.memberName))
  else
    let declared ← declaredType name type
    if init.isMissing then
      match declared with
      | none => fail (.typing (.untypedLocal name))
      | some t =>
        let _ ← declareLocal name t
    else
      let initial ← value init declared
      let t ← initializedType name declared initial
      let l ← declareLocal name t
      emit (.local .stloc (some l))

def assignStmt (target e : Expr) : Lower Unit := do
  let (p, t) ← place target
  let v ← value e t
  expect t v "assignment"
  store p

def exprStmt (e : Expr) : Lower Unit := do
  let v ← expr e none false
  if Ty.isVoidOpt v.type then pure () else fail (.shape (.strayValue (Ty.shown v.type)))

def condition (e : Expr) : Lower Unit := do
  let boolean := (← read).roles.boolean
  let t ← value e (some boolean)
  if Ty.same t (some boolean) then pure () else fail (.typing (.conditionNotBool (Ty.shown t)))

/-! ### Statements -/

/-- A loop around a lowered body. -/
def whileLoop (cond : Expr) (body : Lower Unit) : Lower Unit := do
  let start ← defineLabel
  let test ← defineLabel
  emit (.label .br (some test))
  markLabel start
  body
  markLabel test
  condition cond
  emit (.label .brtrue (some start))

/-- A choice between two lowered parts. -/
def choice (cond : Expr) (yes no : Lower Unit) : Lower Unit := do
  let other ← defineLabel
  let done ← defineLabel
  condition cond
  emit (.label .brfalse (some other))
  yes
  emit (.label .br (some done))
  markLabel other
  no
  markLabel done

mutual

/-- Lowers a statement. -/
def stmt : Stmt → Lower Unit
  | .return e => returnStmt e
  | .local name type init => localStmt name type init
  | .assign target e => assignStmt target e
  | .expr e => exprStmt e
  | .baseCall => do
    if (← read).site.method.isCtor then baseCall else fail (.shape .baseCallOutsideConstructor)
  | .while cond body => whileLoop cond (block body)
  | .if cond yes no => choice cond (block yes) (block no)

/-- Lowers statements in order. -/
def block : List Stmt → Lower Unit
  | [] => return ()
  | s :: rest => do
    stmt s
    block rest

end

/-! ### Bodies -/

/-- Whether the last statement returns. -/
def endsInReturn (body : List Stmt) : Bool :=
  match body.getLast? with
  | some (.return _) => true
  | _ => false

/-- Lowers the statements of a body and says whether a return is still to be added behind them. -/
def statements (body : List Stmt) : Lower Bool := do
  block body
  let c ← read
  if endsInReturn body then return false
  else if c.ret.isVoid then return true
  else fail (.shape (.missingReturn c.memberName c.ret.name))

/-- Stores the initial value of a field of the receiver. -/
def initField (f : Field) (init : Expr) : Lower Unit := do
  emitThis
  let t ← value init f.type
  expect f.type t ("initializer of " ++ f.name)
  emit (.field .stfld f)

/-- Lowers a constructor: the call of the base constructor, which the body may start with, the initial values
    of fields, and the statements. -/
def constructor (inits : List (Field × Expr)) (body : List Stmt) : Lower Bool := do
  let body := match body with
    | .baseCall :: rest => rest
    | body => body
  baseCall
  for (f, init) in inits do initField f init
  statements body

end Lower
end CilCompiler
