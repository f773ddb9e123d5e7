import CilCompiler.Symbols
import CilCompiler.Tree

/-!
The setting in which a body is lowered: the member it belongs to, the names in scope, and the instructions
recorded so far. Lowering reads the setting, changes the work and may fail.
-/

namespace CilCompiler

/-- The types lowering refers to by their role. -/
structure Roles where
  object : Ty
  void : Ty
  int32 : Ty
  boolean : Ty
  string : Ty
  intPtr : Ty
  multicastDelegate : Ty
deriving DecidableEq, Inhabited

/-- What stays fixed while a body is lowered. -/
structure Scope where
  site : Site
  roles : Roles
  /-- The return type of the member. -/
  ret : Ty
  /-- The parameters with their argument numbers. -/
  params : List (Text × Nat × Ty)
  /-- The constructors a type has so far. -/
  ctorsOf : Ty → List Method

namespace Scope

/-- The type whose member is lowered. -/
def owner (c : Scope) : Ty := c.site.method.owner

/-- The name of the member. -/
def memberName (c : Scope) : Text := c.site.method.name

def isStatic (c : Scope) : Bool := c.site.method.isStatic

def param? (c : Scope) (name : Text) : Option (Nat × Ty) := (c.params.find? fun p => p.1 = name).map Prod.snd

end Scope

/-- What changes while a body is lowered. -/
structure Work where
  symbols : Symbols
  draft : Draft := {}
  locals : List (Text × LocalSlot) := []

def Work.local? (w : Work) (name : Text) : Option LocalSlot := (w.locals.find? fun l => l.1 = name).map Prod.snd

abbrev Lower := ReaderT Scope (StateT Work (Except Fault))

/-- What an expression leaves on the stack: its type, none for null, and whether it is the address of such a
    value. -/
structure Pushed where
  type : Option Ty
  isAddress : Bool := false
deriving DecidableEq, Inhabited

namespace Lower

variable {α : Type}

def fail (f : Fault) : Lower α := fun _ _ => .error f

def ofExcept (x : Except Fault α) : Lower α := fun _ w => x.map fun a => (a, w)

def symbols : Lower Symbols := fun _ w => .ok (w.symbols, w)

def emit (e : Emission) : Lower Unit := fun c w =>
  match w.draft.emit c.site e with
  | (.ok _, d) => .ok ((), { w with draft := d })
  | (.error f, _) => .error f

/-- Loads the receiver. -/
def emitThis : Lower Unit := emit (.arg .ldarg 0)

def lookupType (name : Text) : Lower Ty := fun _ w =>
  (w.symbols.lookup name).map fun (t, symbols) => (t, { w with symbols })

/-- The local of a name. -/
def local? (name : Text) : Lower (Option LocalSlot) := fun _ w => .ok (w.local? name, w)

/-- Adds a local; one without a name is temporary. -/
def declareLocal (name : Text) (t : Ty) : Lower LocalSlot := fun c w =>
  (w.draft.declareLocal c.site (some t)).map fun (l, draft) =>
    (l, { w with draft, locals := if name.isEmpty then w.locals else (name, l) :: w.locals })

def defineLabel : Lower Label := fun c w =>
  (w.draft.defineLabel c.site).map fun (l, draft) => (l, { w with draft })

def markLabel (l : Label) : Lower Unit := fun c w =>
  (w.draft.mark c.site (some l)).map fun draft => ((), { w with draft })

/-- Fails in a static method. -/
def requireInstance (what : Text) : Lower Unit := fun c w =>
  if c.isStatic then .error (.shape (.instanceInStatic what c.memberName)) else .ok ((), w)

/-- Replaces the value on top of the stack by the address of a temporary that holds it. -/
def spillAddress (t : Ty) : Lower Unit := do
  let l ← declareLocal .empty t
  emit (.local .stloc (some l))
  emit (.local .ldloca (some l))

end Lower

/-- Fails unless a value of type `src` may be stored in a location of type `dst`. -/
def Lower.expect (dst src : Option Ty) (what : Text) : Lower Unit :=
  if Ty.isVoidOpt src then .fail (.typing (.voidUsed what))
  else if Ty.accepts dst src then pure ()
  else .fail (.typing (.cannotUse what (Ty.shown src) (Ty.shown dst)))

end CilCompiler
