import CilCompiler.Module
import CilCompiler.Text.Composed

/-!
The symbols of one compilation: which type a name stands for, and which members a type has. Names that
compose to the same characters are one name. Symbols are entered in two phases, the catalog first and the
program's declarations second, and only read after that.
-/

namespace CilCompiler

/-- A map from texts; the entry made last counts. -/
structure Table (α : Type) where
  entries : List (Text × α) := []
deriving Inhabited

namespace Table

variable {α : Type}

def get? (t : Table α) (k : Text) : Option α := (t.entries.find? fun e => e.1 = k).map Prod.snd

def has (t : Table α) (k : Text) : Bool := t.entries.any fun e => e.1 = k

def put (t : Table α) (k : Text) (v : α) : Table α := ⟨(k, v) :: t.entries⟩

end Table

/-- What the symbols still accept. -/
inductive Phase where
  | builtins
  | declare
  | generate
deriving DecidableEq, Inhabited

def Phase.name : Phase → Text
  | .builtins => "builtins"
  | .declare => "declare"
  | .generate => "generate"

/-- A delegate type: the signature of the methods its values stand for, and the constructor that takes an
    object and a method. -/
structure Delegate where
  type : Ty
  ret : Option Ty
  params : List (Option Ty)
  ctor : Method
deriving DecidableEq, Inhabited

/-- A type with its public members. -/
structure TypeMembers where
  type : Ty
  fields : List Field
  methods : List Method
  ctors : List Method

def Module.membersOf (m : Module) (t : Ty) : TypeMembers :=
  { type := t, fields := m.fields t .all, methods := m.methods t .all, ctors := m.ctors t .instances }

structure Symbols where
  phase : Phase := .builtins
  types : Table Ty := {}
  /-- From a spelling to the key of a type. -/
  aliases : Table Text := {}
  /-- The declared types in order. -/
  declared : List Ty := []
  fields : Table (List Field) := {}
  methods : Table (List Method) := {}
  ctors : Table (List Method) := {}
  delegates : Table Delegate := {}
deriving Inhabited

namespace Symbols

/-- The form under which a name is entered. -/
def key (name : Text) : Text := name.composed

/-- Fails outside a phase. -/
def requirePhase (s : Symbols) (p : Phase) (what : Text) : Except Fault Unit :=
  if s.phase = p then .ok () else .error (.shape (.wrongPhase what s.phase.name))

/-! ### Entering symbols -/

def enterMembers (s : Symbols) (x : TypeMembers) : Symbols :=
  let k := key x.type.name
  { s with types := s.types.put k x.type, fields := s.fields.put k x.fields,
           methods := s.methods.put k x.methods, ctors := s.ctors.put k x.ctors }

/-- Enters types of the catalog with the members they have now. -/
def registerBuiltins (s : Symbols) (xs : List TypeMembers) : Except Fault Symbols := do
  s.requirePhase .builtins "builtin registration"
  return xs.foldl enterMembers s

/-- Enters another spelling of a type. -/
def registerAlias (s : Symbols) (spelling target : Text) : Except Fault Symbols := do
  s.requirePhase .builtins "alias registration"
  if s.types.has (key target) then return { s with aliases := s.aliases.put (key spelling) (key target) }
  else .error (.lookup (.aliasTarget spelling target))

/-- Ends the phase of the catalog. -/
def beginDeclarations (s : Symbols) : Except Fault Symbols := do
  s.requirePhase .builtins "starting declarations"
  return { s with phase := .declare }

/-- Ends the phase of declarations. -/
def freeze (s : Symbols) : Except Fault Symbols := do
  s.requirePhase .declare "freezing"
  return { s with phase := .generate }

/-- Whether a name stands for a type that has been entered. -/
def hasType (s : Symbols) (name : Text) : Bool := s.types.has (key name) || s.aliases.has (key name)

def registerType (s : Symbols) (t : Ty) : Except Fault Symbols := do
  s.requirePhase .declare "type registration"
  if s.hasType t.name then .error (.shape (.typeDefined t.name))
  else return { s with types := s.types.put (key t.name) t, declared := s.declared ++ [t] }

/-- The fields of a type. -/
def fieldsOf (s : Symbols) (t : Ty) : List Field := (s.fields.get? (key t.name)).getD []

/-- The methods of a type. -/
def allMethods (s : Symbols) (t : Ty) : List Method := (s.methods.get? (key t.name)).getD []

/-- The constructors of a type. -/
def ctorsOf (s : Symbols) (t : Ty) : List Method := (s.ctors.get? (key t.name)).getD []

def registerField (s : Symbols) (f : Field) : Except Fault Symbols := do
  s.requirePhase .declare "field registration"
  let known := s.fieldsOf f.owner
  if known.any fun g => g.name = f.name then .error (.shape (.fieldDefined f.owner.name f.name))
  else return { s with fields := s.fields.put (key f.owner.name) (known ++ [f]) }

/-- Enters a method; methods of one name differ in their parameters or in whether they are static. -/
def registerMethod (s : Symbols) (m : Method) : Except Fault Symbols := do
  s.requirePhase .declare "method registration"
  let known := s.allMethods m.owner
  if known.any fun g => g.name = m.name && g.isStatic == m.isStatic && Ty.sameList g.params m.params then
    .error (.shape (.methodDefined m.owner.name (signature m.name m.params)))
  else return { s with methods := s.methods.put (key m.owner.name) (known ++ [m]) }

def registerConstructor (s : Symbols) (c : Method) : Except Fault Symbols := do
  s.requirePhase .declare "constructor registration"
  let known := s.ctorsOf c.owner
  if known.any fun g => Ty.sameList g.params c.params then
    .error (.shape (.constructorDefined c.owner.name (signature Method.ctorName c.params)))
  else return { s with ctors := s.ctors.put (key c.owner.name) (known ++ [c]) }

def registerDelegate (s : Symbols) (d : Delegate) : Except Fault Symbols := do
  s.requirePhase .declare "delegate registration"
  if s.delegates.has (key d.type.name) then .error (.shape (.delegateDescribed d.type.name))
  else return { s with delegates := s.delegates.put (key d.type.name) d }

/-! ### Looking symbols up -/

/-- The type entered under a name or its alias. -/
def entered? (s : Symbols) (name : Text) : Option Ty :=
  let k := key name
  s.types.get? ((s.aliases.get? k).getD k)

/-- The type a name stands for. The name of an array type makes it from its element type, and it is entered
    for the next time. -/
def lookup (s : Symbols) (name : Text) : Except Fault (Ty × Symbols) :=
  match s.entered? name with
  | some t => .ok (t, s)
  | none =>
    match _h : TypeName.elem? name with
    | some e => do
      let (t, s) ← s.lookup e
      let k := key name
      return (.array t, { s with types := s.types.put ((s.aliases.get? k).getD k) (.array t) })
    | none => .error (.lookup (.missingType name))
termination_by name.size
decreasing_by exact TypeName.elem?_size _h

/-- The type entered under a full name. -/
def builtin? (s : Symbols) (name : Text) : Option Ty := s.types.get? (key name)

/-- Whether a type was declared by the program. -/
def isDeclared (s : Symbols) (t : Ty) : Bool := s.declared.any fun d => key d.name = key t.name

def findField (s : Symbols) (t : Ty) (name : Text) : Except Fault Field :=
  match (s.fieldsOf t).find? fun f => f.name = name with
  | some f => .ok f
  | none => .error (.lookup (.missingField t.name name))

/-- The methods of a type that have a name. -/
def methodsOf (s : Symbols) (t : Ty) (name : Text) : List Method :=
  (s.allMethods t).filter fun m => m.name = name

/-- The first method with exactly these parameters. -/
def findMethod (s : Symbols) (t : Ty) (name : Text) (args : List (Option Ty)) (isStatic : Bool) : Except Fault Method :=
  match s.methodsOf t name with
  | [] => .error (.lookup (.missingMethod t.name name))
  | candidates =>
    match candidates.find? fun m => m.isStatic == isStatic && Ty.sameList m.params args with
    | some m => .ok m
    | none => .error (.lookup (.noMethodOverload isStatic t.name (signature name args)))

/-- The first constructor with exactly these parameters. -/
def findConstructor (s : Symbols) (t : Ty) (args : List (Option Ty)) : Except Fault Method :=
  match s.ctorsOf t with
  | [] => .error (.lookup (.noConstructors t.name))
  | candidates =>
    match candidates.find? fun c => Ty.sameList c.params args with
    | some c => .ok c
    | none => .error (.lookup (.noConstructorOverload t.name (signature Method.ctorName args)))

def delegate? (s : Symbols) (t : Option Ty) : Option Delegate :=
  match t with
  | some t => s.delegates.get? (key t.name)
  | none => none

end Symbols
end CilCompiler
