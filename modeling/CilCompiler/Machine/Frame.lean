import CilCompiler.Machine.Native

/-!
Frames and the machine they run on. A frame is a call in progress: its body, the cells of its arguments and
locals, its stack, and where it stands. The machine is what stays fixed while code runs; it knows the types
of values at run time and so which method a virtual call reaches.
-/

namespace CilCompiler

/-- What is done with the result of a call. -/
inductive ResultUse where
  | push
  | drop
  /-- The call was of a constructor; what counts is the object. -/
  | object (v : Value)
deriving DecidableEq, Inhabited

/-- A call that is being run. -/
structure Frame where
  method : Method
  body : Body
  /-- The cell of the first argument. -/
  args : Nat
  argCount : Nat
  /-- The cell of the first local. -/
  locals : Nat
  /-- The values on the stack, top first. -/
  stack : List Value := []
  pc : Nat := 0
  /-- How deep calls below this one may go. -/
  levels : Nat
  use : ResultUse
deriving DecidableEq

/-- What stays fixed while code runs. -/
structure Machine where
  /-- The modules whose code there is. -/
  modules : Array Module
  /-- The module the run belongs to. -/
  module : Nat
  maxDepth : Nat
  isCanceled : Bool

namespace Machine

/-- The deepest calls may go when it is not said. -/
def defaultMaxDepth : Nat := 4096

def def? (m : Machine) (t : Ty) : Option TypeDef := m.modules[t.module]?.bind fun x => x.def? t

def routine? (m : Machine) (r : Method) : Option Routine := m.modules[r.owner.module]?.bind fun x => x.routine? r

/-- The type of a name in the catalog of a module. -/
def hostType (m : Machine) (module : Nat) (name : Text) : Ty :=
  ((m.modules[module]?.bind fun x => x.type? name)).getD default

/-- The type of a value at run time. -/
def typeOf (m : Machine) (h : Heap) (v : Value) : Ty :=
  match h.deref v with
  | .str _ => m.hostType m.module TypeName.string
  | .int _ => m.hostType m.module TypeName.int32
  | .func _ => m.hostType m.module TypeName.intPtr
  | .arr id => match h.arrays[id]? with
    | some a => .array a.elem
    | none => m.hostType m.module TypeName.object
  | .obj id => match h.objects[id]? with
    | some o => o.type
    | none => m.hostType m.module TypeName.object
  | .null | .addr _ => m.hostType m.module TypeName.object

/-- The method a call reaches: for a virtual method the nearest one of the same name and parameters on the
    type of the receiver and its bases. -/
def virtualTarget (m : Machine) (h : Heap) (recv : Value) (r : Method) : Method :=
  if !r.isVirtual then r
  else
    let t := m.typeOf h recv
    let found := (Ty.lineage (m.hostType t.module TypeName.object) t).findSome? fun c =>
      (m.def? c).bind fun d =>
        (d.methods.find? fun x =>
          x.method.name = r.name && x.method.isVirtual && Ty.sameList x.method.params r.params).map Routine.method
    found.getD r

end Machine

end CilCompiler
