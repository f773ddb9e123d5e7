import CilCompiler.Machine.Step
import CilCompiler.Symbols

/-!
A workbench: modules under construction, the world their code runs in, and names for what has been made.
References to types and members are texts: a name that was given on the workbench, or the full name of
something in the catalog.
-/

namespace CilCompiler

structure Workbench where
  /-- The module under construction, and others that it may refer to. -/
  modules : Array Module
  world : World
  maxDepth : Nat := Machine.defaultMaxDepth
  isCanceled : Bool := false
  types : List (Text × Ty) := []
  fields : List (Text × Field) := []
  methods : List (Text × Method) := []
  ctors : List (Text × Method) := []
  locals : List (Text × LocalSlot) := []
  labels : List (Text × Label) := []
  values : List (Text × Value) := []
  symbols : Symbols := {}

namespace Workbench

/-- A workbench for modules. -/
def ofModules (modules : List Module) (input : List UInt8) (maxDepth : Int) (isCanceled : Bool) : Workbench :=
  { modules := modules.toArray, world := .initial modules.length input
    maxDepth := if maxDepth ≤ 0 then Machine.defaultMaxDepth else maxDepth.toNat, isCanceled }

/-- The module under construction. -/
def main (w : Workbench) : Module := w.modules.getD 0 default

/-- The module that something of a type belongs to. -/
def moduleOf (w : Workbench) (t : Ty) : Module := w.modules.getD t.module default

/-- Keeps what became of a module. -/
def setModule (w : Workbench) (m : Module) : Workbench := { w with modules := w.modules.setIfInBounds m.id m }

def isTextual (w : Workbench) : Bool := w.main.backend = .textual

/-- The machine that runs code of a module. -/
def machine (w : Workbench) (module : Nat) : Machine :=
  { modules := w.modules, module, maxDepth := w.maxDepth, isCanceled := w.isCanceled }

/-! ### References -/

/-- The type that a name stands for: one of `known`, an array, or one of the catalog. -/
def named? (known : List (Text × Ty)) (m : Module) (name : Text) : Option Ty :=
  match known.lookup name with
  | some t => some t
  | none =>
    match _h : TypeName.elem? name with
    | some e => (named? known m e).map Ty.array
    | none =>
      let full := (Host.aliases.lookup name).getD name
      m.hostTypes.find? fun t => t.name = full
termination_by name.size
decreasing_by exact TypeName.elem?_size _h

/-- A reference to a type, which may be the lack of one; none if it is unknown. -/
def typeRef? (w : Workbench) (r : Text) : Option (Option Ty) :=
  if r.isEmpty ∨ r = "none" then some none
  else
    match r.afterStart? "foreign:" with
    | some x => (named? [] (w.modules.getD 1 default) x).map some
    | none => (named? w.types w.main r).map some

/-- A member reference in its parts: the type, the name and the parameter types. -/
def memberParts? (w : Workbench) (r : Text) : Option (Ty × Text × List (Option Ty)) := do
  let (owner, rest) ← r.breakOn? "::"
  let t ← (← w.typeRef? owner)
  let (name, params) ← match rest.breakOn? "(" with
    | none => some (rest, [])
    | some (name, ps) => do
      let ps ← ps.beforeEnd? ")"
      if ps.isEmpty then some (name, []) else some (name, ps.splitOn ',')
  let params ← params.mapM w.typeRef?
  return (t, name, params)

def method? (w : Workbench) (r : Text) : Option Method :=
  (w.methods.lookup r).or do
    let (t, name, params) ← w.memberParts? r
    ((w.moduleOf t).methods t .all).find? fun m => m.name = name && Ty.sameList m.params params

def ctor? (w : Workbench) (r : Text) : Option Method :=
  (w.ctors.lookup r).or do
    let (t, _, params) ← w.memberParts? r
    ((w.moduleOf t).ctors t .all).find? fun m => Ty.sameList m.params params

def field? (w : Workbench) (r : Text) : Option Field :=
  (w.fields.lookup r).or do
    let (t, name, _) ← w.memberParts? r
    ((w.moduleOf t).fields t .all).find? fun f => f.name = name

/-- The method or constructor that was given a name, methods first. -/
def routine? (w : Workbench) (name : Text) : Option Method := (w.methods.lookup name).or (w.ctors.lookup name)

/-- The methods of a name among those of a type of the module, when there is such a type. -/
def overloads? (w : Workbench) (r : Text) : Option (List Method) := do
  let (owner, name) ← r.breakOn? "::"
  let t ← w.main.type? owner
  return (w.main.methods t .all).filter fun m => m.name = name

/-! ### Calls -/

/-- Takes the world a call leaves, and what was printed in it. -/
def takeWorld (w : Workbench) (left : World) : Text × Workbench :=
  (left.output, { w with world := { left with printed := [] } })

/-- Gives a value a name, unless the name is empty. -/
def keep (w : Workbench) (name : Text) (v : Value) : Workbench :=
  if name.isEmpty then w else { w with values := (name, v) :: w.values }

end Workbench
end CilCompiler
