import CilCompiler.Module.Balance
import CilCompiler.Module.Host

/-!
Modules under construction. A module holds the types of the catalog and the types a program defines, with
their members and the bodies recorded so far. A type accepts changes until it is finished; finishing it
checks its bodies.
-/

namespace CilCompiler

/-- A method or constructor with all that belongs to it. -/
structure Routine where
  method : Method
  paramNames : List Text := []
  impl : Implementation := .recorded
  draft : Draft := {}
  /-- The body, once the type is finished. -/
  body : Option Body := none
  native : Option Native := none
deriving DecidableEq, Inhabited

/-- A declared type with its members. -/
structure TypeDef where
  type : Ty
  attrs : TypeAttributes := ⟨0⟩
  fields : Array Field := #[]
  ctors : Array Routine := #[]
  methods : Array Routine := #[]
  /-- The number of fields of an instance. -/
  slots : Nat := 0
  isCreated : Bool := false
deriving DecidableEq, Inhabited

structure Module where
  /-- The number that tells the module from others. -/
  id : Nat
  backend : Backend
  name : Text
  /-- The assembly of the catalog's types. -/
  runtime : Text
  /-- The catalog's types first, then the defined ones. -/
  types : Array TypeDef
  entry : Option Method := none
  /-- The listing, header first. -/
  lines : Array Text := #[]
deriving DecidableEq, Inhabited

namespace TypeDef

/-- The constructor or method a reference stands for. -/
def routine? (d : TypeDef) (m : Method) : Option Routine :=
  if m.isCtor then d.ctors[m.index]? else d.methods[m.index]?

def modifyRoutine (d : TypeDef) (m : Method) (f : Routine → Routine) : TypeDef :=
  if m.isCtor then { d with ctors := d.ctors.modify m.index f }
  else { d with methods := d.methods.modify m.index f }

/-- The constructors, then the methods. -/
def routines (d : TypeDef) : List Routine := d.ctors.toList ++ d.methods.toList

/-- The catalog's type `t` with the members of its entry; `host` holds all types of the catalog. -/
def ofEntry (host : List Ty) (t : Ty) (e : Host.TypeEntry) : TypeDef :=
  let ref (n : Text) : Option Ty := host.find? fun t => t.name = n
  { type := t
    fields := (e.fields.zipIdx.map fun (f, index) =>
      { owner := t, index, name := f.name, type := ref f.type,
        attrs := if f.isStatic then .publicStatics else .publics, slot := none : Field }).toArray
    ctors := (e.ctors.zipIdx.map fun (c, index) =>
      { method := { owner := t, isCtor := true, index, name := Method.ctorName,
                    attrs := MethodAttributes.forConstructor ⟨1⟩, params := c.params.map ref, ret := ref TypeName.void }
        paramNames := c.params.map fun _ => .empty
        native := some c.native : Routine }).toArray
    methods := (e.methods.zipIdx.map fun (m, index) =>
      { method := { owner := t, isCtor := false, index, name := m.name,
                    attrs := ⟨9 + (if m.isStatic then 2 else 0) + (if m.isVirtual then 4 else 0)⟩
                    params := m.params.map ref, ret := ref m.ret }
        paramNames := m.params.map fun _ => .empty
        native := some m.native : Routine }).toArray
    isCreated := true }

end TypeDef

namespace Module

/-- The name of a module that is given none. -/
def defaultName : Text := "Program"

/-- The lines a listing starts with. -/
def header (name runtime : Text) : Array Text := #[
  Text.join [".assembly extern ", runtime, " \x7b\x7d"],
  Text.join [".assembly ", name, " \x7b\x7d"],
  Text.join [".module ", name, ".exe"]]

/-- A module that holds the catalog and nothing else. An empty name stands for the usual one. Only a
    listing may place the catalog in another assembly. -/
def new (id : Nat) (backend : Backend) (name runtime : Text) : Module :=
  let name := if name.isEmpty then defaultName else name
  let runtime := match backend with
    | .textual => if runtime.isEmpty then Host.defaultAssembly else runtime
    | .dynamic => Host.defaultAssembly
  let host := Host.types id runtime
  { id, backend, name, runtime
    types := ((host.zip Host.catalog).map fun (t, e) => TypeDef.ofEntry host t e).toArray
    lines := match backend with
      | .textual => header name runtime
      | .dynamic => #[] }

/-- The number of types of the catalog. -/
def hostCount : Nat := Host.catalog.length

def hostDefs (m : Module) : List TypeDef := m.types.toList.take hostCount

/-- The types defined in the module, in order. -/
def definedDefs (m : Module) : List TypeDef := m.types.toList.drop hostCount

def hostTypes (m : Module) : List Ty := m.hostDefs.map TypeDef.type

/-- The type of a name; array types have none. -/
def type? (m : Module) (name : Text) : Option Ty :=
  (m.types.find? fun d => d.type.name = name).map TypeDef.type

/-- The definition of a type; array types and types of other modules have none. -/
def def? (m : Module) (t : Ty) : Option TypeDef :=
  match t with
  | .array _ => none
  | t => if t.module = m.id then m.types[t.declared.index]? else none

def routine? (m : Module) (r : Method) : Option Routine := (m.def? r.owner).bind fun d => d.routine? r

def isCreated (m : Module) (t : Ty) : Bool :=
  match m.def? t with
  | some d => d.isCreated
  | none => true

def modifyDef (m : Module) (t : Ty) (f : TypeDef → TypeDef) : Module :=
  { m with types := m.types.modify t.declared.index f }

def modifyRoutine (m : Module) (r : Method) (f : Routine → Routine) : Module :=
  m.modifyDef r.owner fun d => d.modifyRoutine r f

/-! ### Members -/

def fields (m : Module) (t : Ty) (sel : Binding) : List Field :=
  match m.def? t with
  | some d => d.fields.toList.filter fun f => sel.selects f.isStatic
  | none => []

def methods (m : Module) (t : Ty) (sel : Binding) : List Method :=
  match m.def? t with
  | some d => (d.methods.toList.map Routine.method).filter fun r => sel.selects r.isStatic
  | none => []

/-- Constructors count as members of instances. -/
def ctors (m : Module) (t : Ty) (sel : Binding) : List Method :=
  match m.def? t with
  | some d => if sel.selects false then d.ctors.toList.map Routine.method else []
  | none => []

/-- The one `Invoke` of a type's instances. -/
def invoke? (m : Module) (t : Ty) : Option Method :=
  match (m.methods t .instances).filter fun r => r.name = Method.invokeName with
  | [r] => some r
  | _ => none

/-- The base type that is shown: an array of a dynamic module derives from the root of all types. -/
def baseOf (m : Module) (t : Ty) : Option Ty :=
  match m.backend, t with
  | .dynamic, .array _ => m.type? TypeName.object
  | _, t => t.base?

/-! ### Definitions -/

/-- Adds a type without members. -/
def defineType (m : Module) (name : Text) (attrs : TypeAttributes) (base : Option Ty) : Except Fault (Ty × Module) :=
  if m.types.any fun d => d.type.name = name then .error (.shape (.moduleTypeDefined name))
  else
    let d : Declared := { module := m.id, index := m.types.size, assembly := m.name, name, isValue := false }
    let t := match base with
      | some b => Ty.derived d b
      | none => Ty.root d
    .ok (t, { m with types := m.types.push { type := t, attrs } })

/-- The definition of a type that is still open. -/
def open? (m : Module) (t : Ty) (what : Text) : Except Fault TypeDef :=
  match m.def? t with
  | some d => if d.isCreated then .error (.shape (.typeFinalized what t.name)) else .ok d
  | none => .error (.shape (.typeFinalized what t.name))

def defineField (m : Module) (t : Ty) (name : Text) (type : Option Ty) (attrs : FieldAttributes) :
    Except Fault (Field × Module) := do
  let d ← m.open? t ("field " ++ name)
  let slot := if attrs.isStatic then none else some d.slots
  let f : Field := { owner := t, index := d.fields.size, name, type, attrs, slot }
  return (f, m.modifyDef t fun d =>
    { d with fields := d.fields.push f, slots := if attrs.isStatic then d.slots else d.slots + 1 })

def defineMethod (m : Module) (t : Ty) (name : Text) (attrs : MethodAttributes) (ret : Option Ty)
    (params : List (Option Ty)) : Except Fault (Method × Module) := do
  let d ← m.open? t ("method " ++ name)
  let r : Method := { owner := t, isCtor := false, index := d.methods.size, name, attrs, params, ret }
  return (r, m.modifyDef t fun d =>
    { d with methods := d.methods.push { method := r, paramNames := params.map fun _ => .empty } })

def defineConstructor (m : Module) (t : Ty) (attrs : MethodAttributes) (params : List (Option Ty)) :
    Except Fault (Method × Module) := do
  let d ← m.open? t "constructor"
  let r : Method := { owner := t, isCtor := true, index := d.ctors.size, name := Method.ctorName,
                      attrs := attrs.forConstructor, params, ret := m.type? TypeName.void }
  return (r, m.modifyDef t fun d =>
    { d with ctors := d.ctors.push { method := r, paramNames := params.map fun _ => .empty } })

/-- Names the parameter at a position, counted from one. -/
def defineParameter (m : Module) (r : Method) (position : Int) (name : Text) : Except Fault Module :=
  if position < 1 ∨ r.params.length < position then .error (.backend (.noSuchParameter position r.name))
  else .ok (m.modifyRoutine r fun x => { x with paramNames := x.paramNames.set (position - 1).toNat name })

def setImplementation (m : Module) (r : Method) (impl : Implementation) : Except Fault Module := do
  let _ ← m.open? r.owner "implementation flags"
  return m.modifyRoutine r fun x => { x with impl }

/-- Makes a method the one a program starts with. -/
def setEntryPoint (m : Module) (r : Method) : Except Fault Module :=
  if r.owner.module ≠ m.id then .error (.backend (.foreign ("entry point " ++ r.name) m.name))
  else if m.backend = .textual ∧ m.isCreated r.owner then
    .error (.shape (.typeFinalized "entry point" r.owner.name))
  else
    match m.entry with
    | some e => if e = r then .ok m else .error (.shape (.entryAlreadySet e.owner.name e.name))
    | none => .ok { m with entry := some r }

/-! ### Bodies -/

def site (m : Module) (r : Method) : Site :=
  { backend := m.backend, moduleName := m.name, method := r, isSealed := m.isCreated r.owner }

def draft (m : Module) (r : Method) : Draft :=
  match m.routine? r with
  | some x => x.draft
  | none => {}

def setDraft (m : Module) (r : Method) (d : Draft) : Module := m.modifyRoutine r fun x => { x with draft := d }

def emit (m : Module) (r : Method) (e : Emission) : Except Fault Unit × Module :=
  let (result, d) := (m.draft r).emit (m.site r) e
  (result, m.setDraft r d)

def declareLocal (m : Module) (r : Method) (t : Option Ty) : Except Fault (LocalSlot × Module) := do
  let (l, d) ← (m.draft r).declareLocal (m.site r) t
  return (l, m.setDraft r d)

def defineLabel (m : Module) (r : Method) : Except Fault (Label × Module) := do
  let (l, d) ← (m.draft r).defineLabel (m.site r)
  return (l, m.setDraft r d)

def markLabel (m : Module) (r : Method) (l : Option Label) : Except Fault Module := do
  let d ← (m.draft r).mark (m.site r) l
  return m.setDraft r d

end Module
end CilCompiler
