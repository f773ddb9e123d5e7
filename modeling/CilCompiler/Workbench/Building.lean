import CilCompiler.Module.Finish
import CilCompiler.Workbench

/-!
Building on a workbench: each step takes references to what is there and a name for what it makes. A step
that meets an obstacle leaves the workbench as it was.
-/

namespace CilCompiler

/-- Why a step cannot be done. -/
inductive Obstacle where
  /-- A reference leads to nothing that the step is for. -/
  | unknown
  | fault (f : Fault)

/-- A step on a workbench. -/
abbrev Bench := StateT Workbench (Except Obstacle)

namespace Bench

variable {α : Type}

def unknown : Bench α := throw .unknown

def orUnknown : Option α → Bench α
  | some a => pure a
  | none => unknown

def orFault : Except Fault α → Bench α
  | .ok a => pure a
  | .error f => throw (.fault f)

/-! ### References -/

/-- A type, or the lack of one. -/
def typeRef (r : Text) : Bench (Option Ty) := do orUnknown ((← get).typeRef? r)

def typeRefs (rs : List Text) : Bench (List (Option Ty)) := rs.mapM typeRef

/-- A type that must be there. -/
def type (r : Text) : Bench Ty := do orUnknown (← typeRef r)

def method (r : Text) : Bench Method := do orUnknown ((← get).method? r)

def ctor (r : Text) : Bench Method := do orUnknown ((← get).ctor? r)

def field (r : Text) : Bench Field := do orUnknown ((← get).field? r)

/-- The method or constructor of a name. -/
def routine (name : Text) : Bench Method := do orUnknown ((← get).routine? name)

/-- A label, or the lack of one for the spelling of that. -/
def label (lack name : Text) : Bench (Option Label) := do
  if name = lack then return none else return some (← orUnknown ((← get).labels.lookup name))

def slot (name : Text) : Bench (Option LocalSlot) := do
  if name = "none" then return none else return some (← orUnknown ((← get).locals.lookup name))

/-! ### Definitions -/

/-- Keeps the module that a step leaves. -/
def change (x : Except Fault (α × Module)) : Bench α := do
  let (a, m) ← orFault x
  modify fun w => w.setModule m
  return a

/-- Keeps the module that a step without a result leaves. -/
def change' (x : Except Fault Module) : Bench Unit := change (x.map fun m => ((), m))

/-- Defines a type, in the module under construction or in the other one. -/
def defineType (as name : Text) (attrs : TypeAttributes) (base : Text) (isElsewhere : Bool) : Bench Unit := do
  let base ← typeRef base
  let t ← change (((← get).modules.getD (if isElsewhere then 1 else 0) default).defineType name attrs base)
  modify fun w => { w with types := (as, t) :: w.types }

def defineField (as on name type : Text) (attrs : FieldAttributes) : Bench Field := do
  let t ← Bench.type on
  let type ← typeRef type
  let f ← change (((← get).moduleOf t).defineField t name type attrs)
  modify fun w => { w with fields := (as, f) :: w.fields }
  return f

def defineMethod (as on name ret : Text) (params : List Text) (attrs : MethodAttributes) : Bench Method := do
  let t ← type on
  let ret ← typeRef ret
  let params ← typeRefs params
  let m ← change (((← get).moduleOf t).defineMethod t name attrs ret params)
  modify fun w => { w with methods := (as, m) :: w.methods }
  return m

def defineConstructor (as on : Text) (params : List Text) (attrs : MethodAttributes) : Bench Method := do
  let t ← type on
  let params ← typeRefs params
  let m ← change (((← get).moduleOf t).defineConstructor t attrs params)
  modify fun w => { w with ctors := (as, m) :: w.ctors }
  return m

def defineParameter (on : Text) (position : Int) (name : Text) : Bench Unit := do
  let r ← routine on
  change' (((← get).moduleOf r.owner).defineParameter r position name)

def setImplementation (on : Text) (impl : Implementation) : Bench Unit := do
  let r ← routine on
  change' (((← get).moduleOf r.owner).setImplementation r impl)

/-- Ends the work on a type. What is found out about its bodies is kept even where that fails. -/
def createType (on : Text) : Bench (Except Fault Unit) := do
  let t ← type on
  let (result, m) := ((← get).moduleOf t).createType t
  modify fun w => w.setModule m
  return result

def setEntryPoint (r : Text) : Bench Unit := do
  let m ← method r
  change' ((← get).main.setEntryPoint m)

/-- Writes a type into the listing of a textual module. -/
def writeType (on : Text) : Bench Unit := do
  if !(← get).isTextual then unknown
  let t ← type on
  change' ((← get).main.writeType t)

/-! ### Bodies -/

def declareLocal (as on type : Text) : Bench LocalSlot := do
  let r ← routine on
  let t ← typeRef type
  let l ← change (((← get).moduleOf r.owner).declareLocal r t)
  modify fun w => { w with locals := (as, l) :: w.locals }
  return l

def defineLabel (as on : Text) : Bench Label := do
  let r ← routine on
  let l ← change (((← get).moduleOf r.owner).defineLabel r)
  modify fun w => { w with labels := (as, l) :: w.labels }
  return l

def markLabel (on name : Text) : Bench Unit := do
  let r ← routine on
  let l ← label .empty name
  change' (((← get).moduleOf r.owner).markLabel r l)

/-- Emits an instruction. What the emission leaves of the body is kept even where it fails. -/
def emit (on : Text) (emission : Bench Emission) : Bench (Except Fault Unit) := do
  let r ← routine on
  let e ← emission
  let (result, m) := ((← get).moduleOf r.owner).emit r e
  modify fun w => w.setModule m
  return result

/-! ### Symbols -/

/-- Keeps the symbols that a step leaves. -/
def enter (f : Symbols → Except Fault Symbols) : Bench Unit := do
  let symbols ← orFault (f (← get).symbols)
  modify fun w => { w with symbols }

/-- Enters the types of the catalog that are named, or all of them. -/
def enterCatalog (types : Option (List Text)) : Bench Unit := do
  let ts ← match types with
    | some rs => typeRefs rs
    | none => pure ((← get).main.hostTypes.map some)
  let w ← get
  enter fun y => y.registerBuiltins ((ts.filterMap id).map fun t => (w.moduleOf t).membersOf t)

/-- Enters aliases up to the first that fails. -/
def enterAliases : List (Text × Text) → Bench (Except Fault Unit)
  | [] => return .ok ()
  | (spelling, target) :: rest => do
    match (← get).symbols.registerAlias spelling target with
    | .ok symbols =>
      modify fun w => { w with symbols }
      enterAliases rest
    | .error f => return .error f

/-- Looks names up until one fails. -/
def lookUp : List Text → Bench (Except Fault (List Ty))
  | [] => return .ok []
  | name :: rest => do
    match (← get).symbols.lookup name with
    | .ok (t, symbols) =>
      modify fun w => { w with symbols }
      return (← lookUp rest).map fun ts => t :: ts
    | .error f => return .error f

end Bench
end CilCompiler
