import CilCompiler.Text

/-!
Types. A type is declared in a module, with or without a base type, or is the array of a type. A type is a
plain value: its name, base and element type are read off it, and two references to one declared type are
equal. What can change while a type is being built, its members and whether it is finished, is kept by its
module. Two types count as the same in a program when they have the same name.
-/

namespace CilCompiler

/-- The place and the fixed properties of a declared type. -/
structure Declared where
  /-- The module that holds the type. -/
  module : Nat
  /-- The position among the module's types. -/
  index : Nat
  /-- The name of the assembly the type is shown with. -/
  assembly : Text
  name : Text
  isValue : Bool
deriving DecidableEq, Inhabited

inductive Ty where
  | root (d : Declared)
  | derived (d : Declared) (base : Ty)
  | array (elem : Ty)
deriving DecidableEq, Inhabited

namespace TypeName

def object : Text := "System.Object"

def void : Text := "System.Void"

def int32 : Text := "System.Int32"

def boolean : Text := "System.Boolean"

def string : Text := "System.String"

def intPtr : Text := "System.IntPtr"

def delegate : Text := "System.Delegate"

def multicastDelegate : Text := "System.MulticastDelegate"

def console : Text := "System.Console"

def math : Text := "System.Math"

def stringBuilder : Text := "System.Text.StringBuilder"

/-- The ending of an array type's name. -/
def arrayEnding : Text := "[]"

/-- The name of the array of a type. -/
def array (elem : Text) : Text := elem ++ arrayEnding

/-- The element type's name in an array type's name; the ending alone is no array. -/
def elem? (name : Text) : Option Text :=
  match name.beforeEnd? arrayEnding with
  | some e => if e.isEmpty then none else some e
  | none => none

/-- An element type's name is shorter than the array's. -/
theorem elem?_size {name e : Text} (h : elem? name = some e) : e.size < name.size := by
  by_cases hs : name.endsWith arrayEnding = true
  · have hle := (List.isSuffixOf_iff_suffix.1 hs).length_le
    have two : arrayEnding.bytes.length = 2 := by decide
    simp only [elem?, Text.beforeEnd?, hs, if_true] at h
    split at h
    · cases h
    · injection h with h
      subst h
      simp only [Text.size, List.length_take]
      omega
  · simp [elem?, Text.beforeEnd?, hs] at h

end TypeName

namespace Ty

/-- The declaration at the bottom of a type. -/
def declared : Ty → Declared
  | .root d | .derived d _ => d
  | .array e => e.declared

def name : Ty → Text
  | .root d | .derived d _ => d.name
  | .array e => TypeName.array e.name

def module (t : Ty) : Nat := t.declared.module

def assembly (t : Ty) : Text := t.declared.assembly

def isValue : Ty → Bool
  | .root d | .derived d _ => d.isValue
  | .array _ => false

def isArray : Ty → Bool
  | .array _ => true
  | _ => false

def elem? : Ty → Option Ty
  | .array e => some e
  | _ => none

/-- The declared base type. -/
def base? : Ty → Option Ty
  | .derived _ b => some b
  | _ => none

/-- The type and its bases, nearest first. -/
def chain : Ty → List Ty
  | .derived d b => .derived d b :: b.chain
  | t => [t]

/-- The chain, which ends at `object` for every type. -/
def lineage (object t : Ty) : List Ty :=
  if t.chain.any fun c => c.name = TypeName.object then t.chain else t.chain ++ [object]

def isVoid (t : Ty) : Bool := t.name = TypeName.void

/-- Whether the type's base is the base of all delegates. -/
def isDelegate (t : Ty) : Bool :=
  match t.base? with
  | some b => b.name = TypeName.multicastDelegate
  | none => false

/-- Whether a value of type `src`, or null, can be stored in a location of type `dst`. -/
def isAssignableFrom (dst : Ty) (src : Option Ty) : Bool :=
  match src with
  | none => !dst.isValue
  | some s => dst.name = TypeName.object || s.chain.any fun c => c.name = dst.name

/-- Whether two types, or the lack of one, count as the same. -/
def same (a b : Option Ty) : Bool := a.map name = b.map name

/-- Whether two lists of types agree position by position. -/
def sameList : List (Option Ty) → List (Option Ty) → Bool
  | [], [] => true
  | a :: as, b :: bs => same a b && sameList as bs
  | _, _ => false

/-- Whether a value of type `src` may be stored in a location of type `dst` without conversion: the same
    type, or null in a reference. -/
def accepts (dst src : Option Ty) : Bool :=
  match src with
  | none => dst.any fun t => !t.isValue
  | some s => same dst (some s)

/-- Whether a type, where there is one, is void. -/
def isVoidOpt (t : Option Ty) : Bool := t.any isVoid

/-- The name of a type, or of the lack of one, in messages. -/
def shown : Option Ty → Text
  | some t => t.name
  | none => "<none>"

end Ty

/-- A name with a parameter list. -/
def signature (name : Text) (params : List (Option Ty)) : Text :=
  Text.join [name, "(", Text.sepBy ", " (params.map Ty.shown), ")"]

end CilCompiler
