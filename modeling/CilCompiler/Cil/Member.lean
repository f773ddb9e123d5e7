import CilCompiler.Text
import CilCompiler.Cil.Type

/-!
Attributes of types, members and method bodies as sets of bits, and the words a listing shows for them.

Members of types, as references that carry everything about the member that never changes. Two references
are equal exactly when they name the same member.
-/

namespace CilCompiler

/-- Whether bit `i` is set. -/
def hasBit (bits i : Nat) : Bool := bits.testBit i

/-- The words whose conditions hold, with blanks between. -/
def attributeWords (ws : List (Bool × Text)) : Text := Text.sepBy " " ((ws.filter Prod.fst).map Prod.snd)

/-- Which members a query selects: by visibility, and whether they belong to an instance or to the type. -/
structure Binding where
  bits : Nat
deriving DecidableEq, Inhabited

namespace Binding

def all : Binding := ⟨7⟩

/-- Public members of instances. -/
def instances : Binding := ⟨3⟩

/-- Whether a public member is selected. -/
def selects (b : Binding) (isStatic : Bool) : Bool :=
  hasBit b.bits 0 && (if isStatic then hasBit b.bits 2 else hasBit b.bits 1)

end Binding

structure TypeAttributes where
  bits : Nat
deriving DecidableEq, Inhabited

namespace TypeAttributes

/-- A public class whose initializer may run early. -/
def classes : TypeAttributes := ⟨9⟩

/-- A public sealed type. -/
def delegates : TypeAttributes := ⟨3⟩

def words (a : TypeAttributes) : Text :=
  attributeWords [(hasBit a.bits 0, "public"), (!hasBit a.bits 0, "private"), (true, "auto"), (true, "ansi"),
    (hasBit a.bits 2, "abstract"), (hasBit a.bits 1, "sealed"), (hasBit a.bits 3, "beforefieldinit")]

end TypeAttributes

structure MethodAttributes where
  bits : Nat
deriving DecidableEq, Inhabited

namespace MethodAttributes

def isStatic (a : MethodAttributes) : Bool := hasBit a.bits 1

def isVirtual (a : MethodAttributes) : Bool := hasBit a.bits 2

/-- A public method that hides by signature. -/
def methods : MethodAttributes := ⟨9⟩

/-- The same, belonging to its type. -/
def statics : MethodAttributes := ⟨11⟩

/-- The same, called by its slot: the shape of a delegate's `Invoke`. -/
def invocations : MethodAttributes := ⟨29⟩

/-- With the marks every constructor has. -/
def forConstructor (a : MethodAttributes) : MethodAttributes := ⟨a.bits ||| 96⟩

def words (a : MethodAttributes) : Text :=
  attributeWords [(hasBit a.bits 0, "public"), (!hasBit a.bits 0, "private"), (hasBit a.bits 3, "hidebysig"),
    (hasBit a.bits 4, "newslot"), (hasBit a.bits 5, "specialname"), (hasBit a.bits 6, "rtspecialname"),
    (a.isVirtual, "virtual"), (a.isStatic, "static")]

end MethodAttributes

structure FieldAttributes where
  bits : Nat
deriving DecidableEq, Inhabited

namespace FieldAttributes

def isStatic (a : FieldAttributes) : Bool := hasBit a.bits 1

def publics : FieldAttributes := ⟨1⟩

def publicStatics : FieldAttributes := ⟨3⟩

def words (a : FieldAttributes) : Text :=
  attributeWords [(hasBit a.bits 0, "public"), (!hasBit a.bits 0, "private"), (a.isStatic, "static")]

end FieldAttributes

/-- Who supplies a method's body: number one is the runtime, any other number the recorded
    instructions. -/
structure Implementation where
  number : Nat
deriving DecidableEq, Inhabited

namespace Implementation

def recorded : Implementation := ⟨0⟩

def runtime : Implementation := ⟨1⟩

def words (i : Implementation) : Text := if i = runtime then "runtime managed" else "cil managed"

end Implementation

structure Field where
  owner : Ty
  /-- The position among the fields of the owner. -/
  index : Nat
  name : Text
  type : Option Ty
  attrs : FieldAttributes
  /-- The place in an instance; a static field has none. -/
  slot : Option Nat
deriving DecidableEq, Inhabited

def Field.isStatic (f : Field) : Bool := f.attrs.isStatic

/-- A method or a constructor. -/
structure Method where
  owner : Ty
  isCtor : Bool
  /-- The position among the methods, or constructors, of the owner. -/
  index : Nat
  name : Text
  attrs : MethodAttributes
  params : List (Option Ty)
  ret : Option Ty
deriving DecidableEq, Inhabited

namespace Method

/-- The name of every constructor. -/
def ctorName : Text := ".ctor"

/-- The name of the method that calls a delegate. -/
def invokeName : Text := "Invoke"

def isStatic (m : Method) : Bool := m.attrs.isStatic

def isVirtual (m : Method) : Bool := m.attrs.isVirtual

/-- Whether a call pushes nothing. -/
def returnsVoid (m : Method) : Bool :=
  match m.ret with
  | some t => t.isVoid
  | none => false

/-- The number of arguments of a call, the receiver included. -/
def argCount (m : Method) : Nat := if m.isStatic then m.params.length else m.params.length + 1

/-- The member with its owner, as messages and answers show it. -/
def qualified (m : Method) : Text := Text.join [m.owner.name, "::", signature m.name m.params]

end Method

/-- The member as a reference, its field type first. -/
def Field.describe (f : Field) : Text :=
  Text.join [if f.isStatic then "static " else "", Ty.shown f.type, " ", f.owner.name, "::", f.name]

/-- The member as a reference, its return type first. -/
def Method.describe (m : Method) : Text :=
  Text.join [if m.isStatic then "static " else "", if m.isVirtual then "virtual " else "", Ty.shown m.ret, " ", m.qualified]

end CilCompiler
