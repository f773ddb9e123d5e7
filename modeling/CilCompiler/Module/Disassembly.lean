import CilCompiler.Module

/-!
Disassembly: the finished types of a module, with the checked bodies of their members.
-/

namespace CilCompiler

/-- An instruction with its operand. -/
def Instr.text (i : Instr) : Text :=
  let op := i.op.mnemonic
  match i.operand with
  | .none => op
  | .int v => Text.join [op, " ", Text.ofInt v.toInt]
  | .str s => Text.join [op, " ", s.quoted]
  | .type t => Text.join [op, " ", t.name]
  | .field f => Text.join [op, " ", f.owner.name, "::", f.name]
  | .method m => Text.join [op, " ", m.qualified]
  | .ctor c => Text.join [op, " ", c.qualified]
  | .label n | .offset n => Text.join [op, " ", offsetText n]

namespace Module

def disassembleBody (b : Body) : List Text :=
  (if b.locals.isEmpty then []
    else [Text.join ["    .locals (", Text.sepBy ", " (b.locals.toList.map Ty.name), ")"]]) ++
  [Text.join ["    .maxstack ", Text.ofNat b.maxStack]] ++
  b.code.toList.zipIdx.map fun (i, pc) => Text.join ["    ", offsetText pc, ": ", i.text]

def disassembleRoutine (x : Routine) : List Text :=
  let r := x.method
  let heading := Text.join ["  .method ", r.attrs.words, " ", Ty.shown r.ret, " ", signature r.name r.params]
  if x.impl = .runtime then [Text.join [heading, " ", x.impl.words]]
  else
    match x.body with
    | some b => heading :: disassembleBody b
    | none => [Text.join [heading, " ", x.impl.words]]

def disassembleDef (d : TypeDef) : List Text :=
  let base : Text := match d.type.base? with
    | some b => " : " ++ b.name
    | none => .empty
  [Text.join [".class ", d.type.name, base]] ++
  (d.fields.toList.map fun f => Text.join ["  .field ", f.attrs.words, " ", Ty.shown f.type, " ", f.name]) ++
  d.routines.flatMap disassembleRoutine

/-- The finished types in the order of their definition. -/
def disassemble (m : Module) : List Text := (m.definedDefs.filter TypeDef.isCreated).flatMap disassembleDef

end Module
end CilCompiler
