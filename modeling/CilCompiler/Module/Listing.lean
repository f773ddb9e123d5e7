import CilCompiler.Module

/-!
Listings. A textual module is written as assembler text: a header, then a class block for each finished
type, with its fields, constructors and methods. References name types by keyword where there is one, and
put the assembly in front of a type that lives in another.
-/

namespace CilCompiler

namespace Module

/-- The words for types that have one. -/
def keyword? (name : Text) : Option Text :=
  if name = TypeName.object then some "object"
  else if name = TypeName.void then some "void"
  else if name = TypeName.int32 then some "int32"
  else if name = TypeName.string then some "string"
  else if name = TypeName.intPtr then some "native int"
  else if name = TypeName.boolean then some "bool"
  else none

/-- Names that need quotes as the name of a parameter. -/
def reservedNames : List Text :=
  ["object", "method", "string", "int32", "bool", "void", "native", "class", "valuetype", "instance", "static", "value"]

/-- A type's name, with its assembly when that is another. -/
def qualified (m : Module) (t : Ty) : Text :=
  if t.assembly.isEmpty ∨ t.assembly = m.name then t.name else Text.join ["[", t.assembly, "]", t.name]

/-- A type in a signature. -/
def typeRef (m : Module) : Ty → Text
  | .array e => typeRef m e ++ TypeName.arrayEnding
  | t =>
    match keyword? t.name with
    | some k => k
    | none => (if t.isValue then "valuetype " else "class ") ++ m.qualified t

/-- A type in a signature; the lack of one shows as the root of all types. -/
def optTypeRef (m : Module) : Option Ty → Text
  | some t => m.typeRef t
  | none => "object"

/-- A type as an operand. -/
def typeSpec (m : Module) (t : Ty) : Text :=
  match keyword? t.name with
  | some k => k
  | none => if t.isArray then m.typeRef t else m.qualified t

/-- A type in front of a member's name. -/
def ownerRef (m : Module) (t : Ty) : Text := if t.isArray then m.typeRef t else m.qualified t

def paramName (name : Text) : Text := if reservedNames.contains name then Text.join ["'", name, "'"] else name

def namedParam (m : Module) (t : Option Ty) (name : Text) : Text :=
  if name.isEmpty then m.optTypeRef t else Text.join [m.optTypeRef t, " ", paramName name]

/-- The parameter types of a reference. -/
def paramTypes (m : Module) (params : List (Option Ty)) : Text := Text.sepBy ", " (params.map m.optTypeRef)

def methodRef (m : Module) (r : Method) : Text :=
  Text.join [if r.isStatic then "" else "instance ", m.optTypeRef r.ret, " ", m.ownerRef r.owner, "::", r.name, "(",
    m.paramTypes r.params, ")"]

def ctorRef (m : Module) (c : Method) : Text :=
  Text.join ["instance void ", m.ownerRef c.owner, "::", Method.ctorName, "(", m.paramTypes c.params, ")"]

def fieldRef (m : Module) (f : Field) : Text :=
  Text.join [m.optTypeRef f.type, " ", m.ownerRef f.owner, "::", f.name]

/-- One character of a string literal: control characters are written in base eight. -/
def literalChar (c : Char) : Text :=
  if c = '"' then "\\\""
  else if c = '\\' then "\\\\"
  else if c = '\n' then "\\n"
  else if c = '\r' then "\\r"
  else if c = '\t' then "\\t"
  else if c.toNat < 32 then "\\" ++ Text.ofChars (Nat.toDigits 8 c.toNat)
  else Text.ofChar c

/-- A string literal. -/
def literal (s : Text) : Text := Text.join ["\"", Text.join (s.chars.map literalChar), "\""]

/-- The operand of an instruction, if it has one. -/
def operandText? (m : Module) : Operand → Option Text
  | .none | .label _ | .offset _ => none
  | .int v => some (Text.ofInt v.toInt)
  | .str s => some (literal s)
  | .type t => some (m.typeSpec t)
  | .field f => some (m.fieldRef f)
  | .method r => some (m.methodRef r)
  | .ctor c => some (m.ctorRef c)

/-- An instruction with its operand; a type without a name leaves no trace. -/
def instrLine (m : Module) (i : Instr) : Text :=
  match m.operandText? i.operand with
  | some x => if x.isEmpty then i.op.mnemonic else Text.join [i.op.mnemonic, " ", x]
  | none => i.op.mnemonic

/-- A member's line without its body. -/
def methodLine (m : Module) (x : Routine) : Text :=
  let r := x.method
  Text.join ["    .method ", r.attrs.words, " ", if r.isStatic then "" else "instance ", m.optTypeRef r.ret, " ", r.name,
    "(", Text.sepBy ", " ((r.params.zip x.paramNames).map fun (t, n) => m.namedParam t n), ") ", x.impl.words]

/-- The lines inside the braces of a method. -/
def bodyLines (m : Module) (r : Method) (b : Body) : List Text :=
  (if m.entry = some r then [("        .entrypoint" : Text)] else []) ++
  [Text.join ["        .maxstack ", Text.ofNat b.maxStack]] ++
  (if b.locals.isEmpty then []
    else [Text.join ["        .locals init (",
      Text.sepBy ", " (b.locals.toList.zipIdx.map fun (t, i) => Text.join [m.typeRef t, " V_", Text.ofNat i]), ")"]]) ++
  b.code.toList.map fun i => Text.join ["        ", m.instrLine i]

/-- A member: one that the runtime implements has no lines inside its braces. -/
def routineLines (m : Module) (x : Routine) : Except Fault (List Text) :=
  let r := x.method
  if x.impl = .runtime then .ok [m.methodLine x, "    \x7b", "    \x7d"]
  else
    match x.draft.settle with
    | .ok b => .ok (m.methodLine x :: "    \x7b" :: (m.bodyLines r b ++ [("    \x7d" : Text)]))
    | .error f => .error (.within (Text.join [r.owner.name, "::", r.name]) f)

/-- The class block of a type. Only delegates have a base. -/
def classLines (m : Module) (d : TypeDef) : Except Fault (List Text) := do
  let t := d.type
  let heading : List Text := [Text.join [".class ", d.attrs.words, " ", t.name]]
  let extend : List Text ← match t.base? with
    | none => pure []
    | some b =>
      if b.name = TypeName.multicastDelegate then pure ["       extends " ++ m.qualified b]
      else .error (.backend (.unsupportedBase t.name b.name))
  let fields := d.fields.toList.map fun f =>
    Text.join ["    .field ", f.attrs.words, " ", m.optTypeRef f.type, " ", f.name]
  let routines ← d.routines.mapM m.routineLines
  return heading ++ extend ++ [("\x7b" : Text)] ++ fields ++ routines.flatten ++ [("\x7d" : Text)]

/-- Appends the class block of a type to the listing; an array type has no members. -/
def writeType (m : Module) (t : Ty) : Except Fault Module :=
  if t.module ≠ m.id then .error (.backend (.foreign ("type " ++ t.name) m.name))
  else do
    let block ← m.classLines ((m.def? t).getD { type := t })
    return { m with lines := m.lines ++ block.toArray }

/-- The listing as one text. -/
def listing (m : Module) : Text := Text.join (m.lines.toList.map fun l => l ++ "\n")

end Module
end CilCompiler
