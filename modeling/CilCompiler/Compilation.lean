import CilCompiler.Journal
import CilCompiler.Lowering.Stmt
import CilCompiler.Module.Finish

/-!
Compilation of a program into a module, in five passes: the catalog is entered, the program's types and
members are declared, its delegates are described, bodies are generated, and types are finished.
-/

namespace CilCompiler

/-- A member whose body is to be generated. -/
structure Member where
  method : Method
  params : List Param
  types : List Ty
  ret : Ty
  body : List Stmt

/-- What a program declares under a name. -/
inductive Declaration where
  | delegate (d : DelegateDecl)
  | class (c : ClassDecl)

def Declaration.name : Declaration → Text
  | .delegate d => d.name
  | .class c => c.name

/-- A declared type with what is known of it. -/
structure DeclaredType where
  type : Ty
  source : Declaration
  members : List Member := []
  /-- The fields of an instance that have an initial value. -/
  inits : List (Field × Expr) := []
  delegate : Option Delegate := none

/-- The state between passes. -/
structure Compilation where
  module : Module
  symbols : Symbols := {}
  roles : Roles
  types : List DeclaredType := []
  entry : Option Method := none

namespace Compilation

/-! ### The catalog -/

/-- The types with a role; the catalog holds all of them. -/
def rolesOf (m : Module) : Roles :=
  let role (name : Text) : Ty := (m.type? name).getD default
  { object := role TypeName.object, void := role TypeName.void, int32 := role TypeName.int32,
    boolean := role TypeName.boolean, string := role TypeName.string, intPtr := role TypeName.intPtr,
    multicastDelegate := role TypeName.multicastDelegate }

def start (m : Module) : Compilation := { module := m, roles := rolesOf m }

def registerAliases (s : Symbols) : List (Text × Text) → Except Fault Symbols
  | [] => .ok s
  | (spelling, target) :: rest => do
    let s ← s.registerAlias spelling target
    registerAliases s rest

/-- Enters the catalog and its aliases. -/
def enterCatalog (c : Compilation) : Except Fault Compilation := do
  let symbols ← c.symbols.registerBuiltins (c.module.hostTypes.map c.module.membersOf)
  let symbols ← registerAliases symbols Host.aliases
  return { c with symbols }

/-! ### Declarations -/

def defineType (c : Compilation) (source : Declaration) (attrs : TypeAttributes) (base : Option Ty) :
    Except Fault Compilation := do
  let name := source.name
  if name.isEmpty then .error (.shape .namelessType)
  else if c.symbols.hasType name then .error (.shape (.typeDefined name))
  else
    let (type, module) ← c.module.defineType name attrs base
    let symbols ← c.symbols.registerType type
    return { c with module, symbols, types := c.types ++ [{ type, source }] }

/-- Defines the types, delegates first. -/
def defineTypes (c : Compilation) (p : Program) : Except Fault Compilation := do
  let c ← p.delegates.foldlM (fun c d => c.defineType (.delegate d) .delegates (some c.roles.multicastDelegate)) c
  p.classes.foldlM (fun c d => c.defineType (.class d) .classes none) c

def lookup (c : Compilation) (name : Text) : Except Fault (Ty × Compilation) := do
  let (t, symbols) ← c.symbols.lookup name
  return (t, { c with symbols })

/-- The return type of a name; no name is void. -/
def lookupReturn (c : Compilation) (name : Text) : Except Fault (Ty × Compilation) :=
  if name.isEmpty then .ok (c.roles.void, c) else c.lookup name

/-- The types of parameters; their names differ from each other and from those `seen`. -/
def lookupParams (c : Compilation) (seen : List Text) : List Param → Except Fault (List Ty × Compilation)
  | [] => .ok ([], c)
  | p :: rest =>
    if seen.contains p.name then .error (.shape (.repeatedParameter p.name))
    else do
      let (t, c) ← c.lookup p.type
      if t.isVoid then .error (.typing (.voidParameter p.name))
      else
        let (ts, c) ← c.lookupParams (p.name :: seen) rest
        return (t :: ts, c)

/-- Names parameters from a position on. -/
def nameParams (m : Module) (r : Method) : (position : Nat) → List Text → Except Fault Module
  | _, [] => .ok m
  | position, n :: rest => do
    let m ← m.defineParameter r position n
    nameParams m r (position + 1) rest

/-- Declares a delegate: a constructor that takes an object and a method, and `Invoke`. The runtime
    implements both. -/
def declareDelegate (c : Compilation) (t : Ty) (d : DelegateDecl) : Except Fault (Delegate × Compilation) := do
  let (ret, c) ← c.lookupReturn d.ret
  let (params, c) ← c.lookupParams [] d.params
  let (ctor, m) ← c.module.defineConstructor t .methods [some c.roles.object, some c.roles.intPtr]
  let m ← nameParams m ctor 1 ["object", "method"]
  let m ← m.setImplementation ctor .runtime
  let (invoke, m) ← m.defineMethod t Method.invokeName .invocations (some ret) (params.map some)
  let m ← nameParams m invoke 1 (d.params.map Param.name)
  let m ← m.setImplementation invoke .runtime
  let symbols ← c.symbols.registerConstructor ctor
  let symbols ← symbols.registerMethod invoke
  return ({ type := t, ret := some ret, params := params.map some, ctor }, { c with module := m, symbols })

/-- Declares a field; only a field of instances has an initial value. -/
def declareField (c : Compilation) (t : Ty) (f : FieldDecl) : Except Fault (Field × Compilation) := do
  let (type, c) ← c.lookup f.type
  if type.isVoid then .error (.typing (.voidField t.name f.name))
  else if f.isStatic ∧ !f.init.isMissing then .error (.shape (.staticFieldInit t.name f.name))
  else
    let (field, module) ← c.module.defineField t f.name (some type) (if f.isStatic then .publicStatics else .publics)
    let symbols ← c.symbols.registerField field
    return (field, { c with module, symbols })

/-- Declares fields and collects the initial values. -/
def declareFields (c : Compilation) (t : Ty) : List FieldDecl → Except Fault (List (Field × Expr) × Compilation)
  | [] => .ok ([], c)
  | f :: rest => do
    let (field, c) ← c.declareField t f
    let (inits, c) ← c.declareFields t rest
    return (if f.init.isMissing then inits else (field, f.init) :: inits, c)

def declareCtor (c : Compilation) (t : Ty) (d : CtorDecl) : Except Fault (Member × Compilation) := do
  let (types, c) ← c.lookupParams [] d.params
  let (method, m) ← c.module.defineConstructor t .methods (types.map some)
  let module ← nameParams m method 1 (d.params.map Param.name)
  let symbols ← c.symbols.registerConstructor method
  return ({ method, params := d.params, types, ret := c.roles.void, body := d.body }, { c with module, symbols })

def declareMethod (c : Compilation) (t : Ty) (d : MethodDecl) : Except Fault (Member × Compilation) := do
  let (ret, c) ← c.lookupReturn d.ret
  let (types, c) ← c.lookupParams [] d.params
  let attrs : MethodAttributes := if d.isStatic then .statics else .methods
  let (method, m) ← c.module.defineMethod t d.name attrs (some ret) (types.map some)
  let module ← nameParams m method 1 (d.params.map Param.name)
  let symbols ← c.symbols.registerMethod method
  return ({ method, params := d.params, types, ret, body := d.body }, { c with module, symbols })

/-- Declares members one by one. -/
def declareEach {α : Type} (declare : Compilation → α → Except Fault (Member × Compilation)) (c : Compilation) :
    List α → Except Fault (List Member × Compilation)
  | [] => .ok ([], c)
  | d :: rest => do
    let (m, c) ← declare c d
    let (ms, c) ← declareEach declare c rest
    return (m :: ms, c)

/-- Declares a class; one without constructors gets a constructor without parameters. -/
def declareClass (c : Compilation) (d : DeclaredType) (cd : ClassDecl) : Except Fault (DeclaredType × Compilation) := do
  let t := d.type
  let (inits, c) ← c.declareFields t cd.fields
  let ctors := if cd.ctors.isEmpty then [{ params := [], body := [] }] else cd.ctors
  let (ctors, c) ← declareEach (fun c x => c.declareCtor t x) c ctors
  let (methods, c) ← declareEach (fun c x => c.declareMethod t x) c cd.methods
  return ({ d with members := ctors ++ methods, inits }, c)

def declareType (c : Compilation) (d : DeclaredType) : Except Fault (DeclaredType × Compilation) :=
  match d.source with
  | .delegate dd => do
    let (delegate, c) ← c.declareDelegate d.type dd
    return ({ d with delegate := some delegate }, c)
  | .class cd => c.declareClass d cd

/-- Declares the members of a type in a span of its own. -/
def declareNext (c : Compilation) (d : DeclaredType) : Logged (DeclaredType × Compilation) := do
  let span ← Logged.start .type d.source.name (← Logged.context).span
  match ← Logged.attempt (.ofExcept (c.declareType d)) with
  | .error f =>
    Logged.finish span "failed"
    Logged.fail f
  | .ok declared =>
    Logged.finish span .empty
    return declared

/-- Declares the members of types. -/
def declareTypes (c : Compilation) : List DeclaredType → Logged (List DeclaredType × Compilation)
  | [] => return ([], c)
  | d :: rest => do
    let (d, c) ← c.declareNext d
    let (ds, c) ← c.declareTypes rest
    return (d :: ds, c)

/-- The name of the method a program starts with. -/
def entryName : Text := "Main"

/-- Makes a member the entry point if it is a static method of that name. -/
def considerEntry (c : Compilation) (x : Member) : Except Fault Compilation := do
  let m := x.method
  if m.isCtor ∨ !m.isStatic ∨ m.name ≠ entryName then return c
  else if !x.types.isEmpty ∨ !(x.ret.isVoid || Ty.same (some x.ret) (some c.roles.int32)) then
    .error (.shape (.badEntrySignature m.owner.name (signature m.name m.params)))
  else
    match c.entry with
    | some e => .error (.shape (.conflictingEntries m.owner.name m.name e.owner.name e.name))
    | none =>
      let module ← c.module.setEntryPoint m
      return { c with module, entry := some m }

def findEntry (c : Compilation) : Except Fault Compilation :=
  (c.types.flatMap DeclaredType.members).foldlM considerEntry c

/-- Defines all types first and their members second, so that members may name any type. -/
def declare (p : Program) (c : Compilation) : Logged Compilation := do
  let symbols ← .ofExcept c.symbols.beginDeclarations
  let c ← .ofExcept ({ c with symbols }.defineTypes p)
  let (types, c) ← c.declareTypes c.types
  .ofExcept ({ c with types }.findEntry)

/-! ### Delegates -/

def describeDelegates (c : Compilation) : List DeclaredType → Logged Compilation
  | [] => return c
  | d :: rest =>
    match d.delegate with
    | none => c.describeDelegates rest
    | some x => do
      let symbols ← .ofExcept (c.symbols.registerDelegate x)
      Logged.point (← Logged.context) .type "delegate"
        (Text.join [d.source.name, " ", signature Method.invokeName x.params])
      { c with symbols }.describeDelegates rest

/-- Describes the delegates, after which symbols are only read. -/
def describe (c : Compilation) : Logged Compilation := do
  let c ← c.describeDelegates c.types
  let symbols ← .ofExcept c.symbols.freeze
  return { c with symbols }

/-! ### Bodies -/

/-- The setting of a member's body. -/
def scopeOf (c : Compilation) (x : Member) : Scope :=
  let first := if x.method.isStatic then 0 else 1
  { site := c.module.site x.method, roles := c.roles, ret := x.ret
    params := ((x.params.map Param.name).zip x.types).zipIdx.map fun ((n, t), i) => (n, first + i, t)
    ctorsOf := fun t => c.module.ctors t .instances }

/-- Lowers a member's statements and says whether a return is still to be added. -/
def lowerMember (c : Compilation) (d : DeclaredType) (x : Member) : Except Fault (Bool × Work) :=
  let lowering := if x.method.isCtor then Lower.constructor d.inits x.body else Lower.statements x.body
  lowering (c.scopeOf x) { symbols := c.symbols, draft := c.module.draft x.method }

/-- Lowers a member and ends its body. -/
def lowerBody (ctx : Context) (c : Compilation) (d : DeclaredType) (x : Member) : Logged Work := do
  let (addReturn, w) ← .ofExcept (c.lowerMember d x)
  if addReturn then
    Logged.point ctx .member "implicit-ret" x.method.name
    let (_, w) ← .ofExcept (Lower.emit (.plain .ret) (c.scopeOf x) w)
    return w
  else return w

/-- Generates the body of a member in a span of its own. -/
def generateMember (ctx : Context) (c : Compilation) (d : DeclaredType) (x : Member) : Logged Compilation := do
  let (span, ctx) ← Logged.startIn ctx .member x.method.name
  match ← Logged.attempt (c.lowerBody ctx d x) with
  | .error f =>
    Logged.finish span "failed"
    Logged.fail f
  | .ok w =>
    Logged.finish (span.withExtra "locals" (Text.ofNat w.draft.locals.size)) .empty
    return { c with module := c.module.setDraft x.method w.draft, symbols := w.symbols }

/-- Generates the bodies of members, unless the work is canceled before one of them. The span is that of their type, which
    ends where this fails. -/
def generateMembers (canceled : Cancellation) (span : Trace.Span) (ctx : Context) (d : DeclaredType) (c : Compilation) :
    List Member → Logged Compilation
  | [] => return c
  | x :: rest => do
    if ← Logged.isCanceled canceled then
      Logged.finish span "canceled"
      Logged.fail .canceled
    else
      match ← Logged.attempt (c.generateMember ctx d x) with
      | .error f =>
        Logged.finish span "failed"
        Logged.fail (.within (Text.join [d.source.name, "::", x.method.name]) f)
      | .ok c => generateMembers canceled span ctx d c rest

/-- Generates the bodies of a type's members in a span of its own; a delegate has none. -/
def generateTypeUnder (canceled : Cancellation) (c : Compilation) (d : DeclaredType) : Logged Compilation :=
  if d.members.isEmpty then return c
  else do
    let (span, ctx) ← Logged.startIn (← Logged.context) .type d.source.name
    let c ← generateMembers canceled span ctx d c d.members
    Logged.finish (span.withExtra "members" (Text.ofNat d.members.length)) .empty
    return c

def generateType (c : Compilation) (d : DeclaredType) : Logged Compilation := c.generateTypeUnder .never d

def generateUnder (canceled : Cancellation) (c : Compilation) : Logged Compilation :=
  c.types.foldlM (generateTypeUnder canceled) c

def generate (c : Compilation) : Logged Compilation := c.generateUnder .never

/-! ### Finishing -/

def finishType (c : Compilation) (d : DeclaredType) : Except Fault Compilation :=
  match c.module.createType d.type with
  | (.ok _, module) => .ok { c with module }
  | (.error f, _) => .error (.within ("finalize " ++ d.source.name) f)

def finish (c : Compilation) : Except Fault Compilation := c.types.foldlM finishType c

/-! ### The passes together -/

/-- A pass in a span of its own. The pass works in the context of its span, and the context before is the context
    behind it. -/
def phase {α : Type} (name : Text) (work : Logged α) : Logged α := do
  let outer ← Logged.context
  let (span, ctx) ← Logged.startIn outer .phase name
  let number ← Logged.startPhase name
  Logged.setContext ctx
  let outcome ← Logged.attempt work
  Logged.setContext outer
  let remark : Text := match outcome with
    | .ok _ => .empty
    | .error _ => "failed"
  Logged.finishPhase number remark
  Logged.finish span remark
  .ofExcept outcome

/-- A pass, unless the work has been canceled before. -/
def pass {α : Type} (canceled : Cancellation) (name : Text) (work : Logged α) : Logged α := do
  Logged.checkpoint canceled
  phase name work

/-- All passes. -/
def passesUnder (canceled : Cancellation) (p : Program) (c : Compilation) : Logged Compilation := do
  let c ← pass canceled "builtins" (.ofExcept c.enterCatalog)
  let c ← pass canceled "declare" (declare p c)
  let c ← pass canceled "thunks" c.describe
  let c ← pass canceled "generate" (c.generateUnder canceled)
  pass canceled "finalize" (.ofExcept c.finish)

/-- The passes of work that nobody cancels. -/
def passes (p : Program) (c : Compilation) : Logged Compilation := passesUnder .never p c

/-- Compiles a program into a module that holds the catalog only. The work looks at whether it has been canceled
    before each pass and before each body. It is done in a context of its own, below that of the caller, which the
    caller has back when the work is over. -/
def runUnder (canceled : Cancellation) (m : Module) (p : Program) : Logged Compilation := do
  let caller ← Logged.context
  let (span, ctx) ← Logged.startIn caller .driver ("codegen " ++ m.name)
  Logged.setContext ctx
  match ← Logged.attempt (passesUnder canceled p (start m)) with
  | .error f =>
    Logged.finish span "failed"
    Logged.setContext caller
    Logged.fail f
  | .ok c =>
    Logged.finish (span.withExtra "types" (Text.ofNat c.types.length)) "ok"
    Logged.setContext caller
    return c

/-- Compiles a program, unless the work was canceled before it began. -/
def run (m : Module) (p : Program) (isCanceled : Bool) : Logged Compilation := runUnder (fun _ => isCanceled) m p

end Compilation
end CilCompiler
