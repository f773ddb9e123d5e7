import CilCompiler.Module

/-!
Values and the storage they live in. Arguments, locals, fields of objects and elements of arrays are cells
of one store that only grows; an address is the number of a cell or a static field. Objects and arrays are
numbered in the order they are made.
-/

namespace CilCompiler

/-- A place a value can be stored in. -/
inductive Address where
  | cell (n : Nat)
  | static (f : Field)
deriving DecidableEq, Inhabited

inductive Value where
  | null
  /-- A number or a boolean, which is one or zero. -/
  | int (v : Int32)
  | str (s : Text)
  | obj (id : Nat)
  | arr (id : Nat)
  /-- A method as a number; none is zero. -/
  | func (m : Option Method)
  | addr (a : Address)
deriving DecidableEq, Inhabited

namespace Value

def bool (b : Bool) : Value := .int (if b then 1 else 0)

def kindName : Value → Text
  | .null => "null"
  | .int _ => "int"
  | .str _ => "string"
  | .obj _ => "object"
  | .arr _ => "array"
  | .func _ => "func"
  | .addr _ => "addr"

def isNull : Value → Bool
  | .null => true
  | _ => false

/-- Whether a branch on the value is taken. -/
def isTrue : Value → Bool
  | .null => false
  | .int v => v != 0
  | .func m => m.isSome
  | _ => true

/-- The number of a number, and zero for anything else. -/
def number : Value → Int32
  | .int v => v
  | _ => 0

/-- The text of a string, and no text for anything else. -/
def text : Value → Text
  | .str s => s
  | _ => .empty

/-- The method of a method pointer. -/
def method? : Value → Option Method
  | .func m => m
  | _ => none

/-- What a location of a type holds at first. -/
def zero : Option Ty → Value
  | none => .null
  | some t =>
    if t.name = TypeName.int32 ∨ t.name = TypeName.boolean then .int 0
    else if t.name = TypeName.intPtr then .func none
    else .null

end Value

/-- An object: an instance with its fields, a boxed value, or a delegate. -/
structure Obj where
  type : Ty
  /-- The cell of the first field. -/
  first : Nat
  /-- The number of fields. -/
  count : Nat
  /-- The number the object was given when it was made. -/
  tag : Nat
  boxed : Option Value := none
  /-- The receiver of a delegate's calls. -/
  target : Value := .null
  /-- The method a delegate calls. -/
  method : Option Method := none
  /-- The text collected by a string builder. -/
  buffer : Option Text := none
deriving DecidableEq, Inhabited

structure Arr where
  elem : Ty
  /-- The cell of the first element. -/
  first : Nat
  /-- The number of elements. -/
  count : Nat
deriving DecidableEq, Inhabited

structure Heap where
  cells : Array Value := #[]
  objects : Array Obj := #[]
  arrays : Array Arr := #[]
  /-- Static fields that have been stored to. -/
  statics : List (Field × Value) := []
deriving DecidableEq, Inhabited

namespace Heap

/-- What a static field holds before it is stored to. The one of the catalog is the empty string. -/
def initial (f : Field) : Value :=
  if f.owner.name = TypeName.string ∧ f.owner.declared.index < Module.hostCount then .str .empty
  else .zero f.type

def load (h : Heap) : Address → Value
  | .cell n => h.cells.getD n .null
  | .static f =>
    match h.statics.find? fun s => s.1 = f with
    | some s => s.2
    | none => initial f

def store (h : Heap) (a : Address) (v : Value) : Heap :=
  match a with
  | .cell n => { h with cells := h.cells.setIfInBounds n v }
  | .static f => { h with statics := (f, v) :: h.statics.filter fun s => s.1 ≠ f }

/-- Follows an address, once. -/
def deref (h : Heap) : Value → Value
  | .addr a => h.load a
  | v => v

/-- Adds cells, and gives the number of the first. -/
def allocate (h : Heap) (vs : List Value) : Nat × Heap :=
  (h.cells.size, { h with cells := vs.foldl Array.push h.cells })

def addObject (h : Heap) (o : Obj) : Nat × Heap := (h.objects.size, { h with objects := h.objects.push o })

def addArray (h : Heap) (elem : Ty) (count : Nat) : Nat × Heap :=
  let (first, h) := h.allocate (List.replicate count (.zero (some elem)))
  (h.arrays.size, { h with arrays := h.arrays.push { elem, first, count } })

def modifyObject (h : Heap) (id : Nat) (f : Obj → Obj) : Heap := { h with objects := h.objects.modify id f }

/-- Whether two values are the same; objects and arrays are the same as themselves only. -/
def same (h : Heap) (a b : Value) : Bool := h.deref a = h.deref b

/-- The value in a box, or the value itself. -/
def unboxed (h : Heap) (v : Value) : Value :=
  match h.deref v with
  | .obj id =>
    match h.objects[id]?.bind Obj.boxed with
    | some b => b
    | none => .obj id
  | v => v

/-- A value as text. `isBool` says that a number stands for a boolean. Boxes are opened, `fuel` of them at
    most; behind more of them there is no text. -/
def textFrom (h : Heap) : (fuel : Nat) → (isBool : Bool) → Value → Option Text
  | fuel, isBool, v =>
    match h.deref v with
    | .null => some .empty
    | .int n => some (if isBool then (if n != 0 then "True" else "False") else Text.ofInt n.toInt)
    | .str s => some s
    | .arr id => match h.arrays[id]? with
      | some a => some (TypeName.array a.elem.name)
      | none => some .empty
    | .func none => some "0"
    | .func (some m) => some (Text.join [m.owner.name, "::", m.name])
    | .addr _ => some .empty
    | .obj id =>
      match h.objects[id]? with
      | none => some .empty
      | some o =>
        match o.boxed, fuel with
        | some b, fuel + 1 => h.textFrom fuel (o.type.name = TypeName.boolean) b
        | some _, 0 => none
        | none, _ => some (o.buffer.getD o.type.name)

/-- A value as it is printed. A box can come to hold itself through an address, and has no text then: where more
    boxes are opened than there are objects, one is opened again and there is no end. -/
def textOf (h : Heap) (isBool : Bool) (v : Value) : Option Text := h.textFrom h.objects.size isBool v

end Heap
end CilCompiler
