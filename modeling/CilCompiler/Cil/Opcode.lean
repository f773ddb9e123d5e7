import CilCompiler.Text

/-!
The instructions of the stack machine. Every opcode has a number, an assembler spelling, the kind of
operand it takes, and how many values it pops and pushes where that does not depend on the operand.
-/

namespace CilCompiler

/-- The kinds of operand. -/
inductive OperandKind where
  | none | int8 | int32 | string | type | field | method | ctor | local | arg | label
deriving DecidableEq, Inhabited

namespace OperandKind

/-- The kinds in the order of their numbers. -/
def all : List OperandKind := [.none, .int8, .int32, .string, .type, .field, .method, .ctor, .local, .arg, .label]

def name : OperandKind → Text
  | .none => "none"
  | .int8 => "int8"
  | .int32 => "int32"
  | .string => "string"
  | .type => "type"
  | .field => "field"
  | .method => "method"
  | .ctor => "ctor"
  | .local => "local"
  | .arg => "arg"
  | .label => "label"

/-- The name of the kind with a number. -/
def nameOfNumber (n : Nat) : Text :=
  match all[n]? with
  | some k => k.name
  | _ => Text.join ["OperandKind(", Text.ofNat n, ")"]

end OperandKind

inductive Opcode where
  | nop | ldnull | ldcM1 | ldc0 | ldc1 | ldc2 | ldc3 | ldc4 | ldc5 | ldc6 | ldc7 | ldc8 | ldcS | ldc | ldstr
  | ldarg0 | ldarg1 | ldarg2 | ldarg3 | ldargS | ldarg | ldargaS | ldarga | stargS | starg | ldloc0 | ldloc1
  | ldloc2 | ldloc3 | ldloc | ldloca | stloc0 | stloc1 | stloc2 | stloc3 | stloc | dup | pop | ret | br
  | brtrue | brfalse | add | sub | mul | div | rem | and | or | xor | neg | not | ceq | cgt | clt | call
  | callvirt | newobj | ldftn | ldvirtftn | ldfld | ldflda | stfld | ldsfld | ldsflda | stsfld | newarr
  | ldlen | ldelem | ldelema | stelem | box | convI4
  /-- A number without an instruction. -/
  | unassigned (number : Nat)
deriving DecidableEq, Inhabited

namespace Opcode

/-- The opcodes in the order of their numbers. -/
def all : List Opcode := [
  .nop, .ldnull, .ldcM1, .ldc0, .ldc1, .ldc2, .ldc3, .ldc4, .ldc5, .ldc6, .ldc7, .ldc8, .ldcS, .ldc, .ldstr,
  .ldarg0, .ldarg1, .ldarg2, .ldarg3, .ldargS, .ldarg, .ldargaS, .ldarga, .stargS, .starg, .ldloc0, .ldloc1,
  .ldloc2, .ldloc3, .ldloc, .ldloca, .stloc0, .stloc1, .stloc2, .stloc3, .stloc, .dup, .pop, .ret, .br,
  .brtrue, .brfalse, .add, .sub, .mul, .div, .rem, .and, .or, .xor, .neg, .not, .ceq, .cgt, .clt, .call,
  .callvirt, .newobj, .ldftn, .ldvirtftn, .ldfld, .ldflda, .stfld, .ldsfld, .ldsflda, .stsfld, .newarr,
  .ldlen, .ldelem, .ldelema, .stelem, .box, .convI4]

/-- The opcode of a number. -/
def ofNumber (n : Nat) : Opcode := all.getD n (.unassigned n)

def isAssigned : Opcode → Bool
  | .unassigned _ => false
  | _ => true

/-- What is fixed about an opcode. -/
structure Row where
  mnemonic : Text
  operand : OperandKind
  pops : Nat
  pushes : Nat

/-- The table of opcodes. What `ret`, `call`, `callvirt` and `newobj` pop, and what the calls push, depends
    on their operand. -/
def row : Opcode → Row
  | .nop => ⟨"nop", .none, 0, 0⟩
  | .ldnull => ⟨"ldnull", .none, 0, 1⟩
  | .ldcM1 => ⟨"ldc.i4.m1", .none, 0, 1⟩
  | .ldc0 => ⟨"ldc.i4.0", .none, 0, 1⟩
  | .ldc1 => ⟨"ldc.i4.1", .none, 0, 1⟩
  | .ldc2 => ⟨"ldc.i4.2", .none, 0, 1⟩
  | .ldc3 => ⟨"ldc.i4.3", .none, 0, 1⟩
  | .ldc4 => ⟨"ldc.i4.4", .none, 0, 1⟩
  | .ldc5 => ⟨"ldc.i4.5", .none, 0, 1⟩
  | .ldc6 => ⟨"ldc.i4.6", .none, 0, 1⟩
  | .ldc7 => ⟨"ldc.i4.7", .none, 0, 1⟩
  | .ldc8 => ⟨"ldc.i4.8", .none, 0, 1⟩
  | .ldcS => ⟨"ldc.i4.s", .int8, 0, 1⟩
  | .ldc => ⟨"ldc.i4", .int32, 0, 1⟩
  | .ldstr => ⟨"ldstr", .string, 0, 1⟩
  | .ldarg0 => ⟨"ldarg.0", .none, 0, 1⟩
  | .ldarg1 => ⟨"ldarg.1", .none, 0, 1⟩
  | .ldarg2 => ⟨"ldarg.2", .none, 0, 1⟩
  | .ldarg3 => ⟨"ldarg.3", .none, 0, 1⟩
  | .ldargS => ⟨"ldarg.s", .arg, 0, 1⟩
  | .ldarg => ⟨"ldarg", .arg, 0, 1⟩
  | .ldargaS => ⟨"ldarga.s", .arg, 0, 1⟩
  | .ldarga => ⟨"ldarga", .arg, 0, 1⟩
  | .stargS => ⟨"starg.s", .arg, 1, 0⟩
  | .starg => ⟨"starg", .arg, 1, 0⟩
  | .ldloc0 => ⟨"ldloc.0", .none, 0, 1⟩
  | .ldloc1 => ⟨"ldloc.1", .none, 0, 1⟩
  | .ldloc2 => ⟨"ldloc.2", .none, 0, 1⟩
  | .ldloc3 => ⟨"ldloc.3", .none, 0, 1⟩
  | .ldloc => ⟨"ldloc", .local, 0, 1⟩
  | .ldloca => ⟨"ldloca", .local, 0, 1⟩
  | .stloc0 => ⟨"stloc.0", .none, 1, 0⟩
  | .stloc1 => ⟨"stloc.1", .none, 1, 0⟩
  | .stloc2 => ⟨"stloc.2", .none, 1, 0⟩
  | .stloc3 => ⟨"stloc.3", .none, 1, 0⟩
  | .stloc => ⟨"stloc", .local, 1, 0⟩
  | .dup => ⟨"dup", .none, 1, 2⟩
  | .pop => ⟨"pop", .none, 1, 0⟩
  | .ret => ⟨"ret", .none, 0, 0⟩
  | .br => ⟨"br", .label, 0, 0⟩
  | .brtrue => ⟨"brtrue", .label, 1, 0⟩
  | .brfalse => ⟨"brfalse", .label, 1, 0⟩
  | .add => ⟨"add", .none, 2, 1⟩
  | .sub => ⟨"sub", .none, 2, 1⟩
  | .mul => ⟨"mul", .none, 2, 1⟩
  | .div => ⟨"div", .none, 2, 1⟩
  | .rem => ⟨"rem", .none, 2, 1⟩
  | .and => ⟨"and", .none, 2, 1⟩
  | .or => ⟨"or", .none, 2, 1⟩
  | .xor => ⟨"xor", .none, 2, 1⟩
  | .neg => ⟨"neg", .none, 1, 1⟩
  | .not => ⟨"not", .none, 1, 1⟩
  | .ceq => ⟨"ceq", .none, 2, 1⟩
  | .cgt => ⟨"cgt", .none, 2, 1⟩
  | .clt => ⟨"clt", .none, 2, 1⟩
  | .call => ⟨"call", .method, 0, 0⟩
  | .callvirt => ⟨"callvirt", .method, 0, 0⟩
  | .newobj => ⟨"newobj", .ctor, 0, 1⟩
  | .ldftn => ⟨"ldftn", .method, 0, 1⟩
  | .ldvirtftn => ⟨"ldvirtftn", .method, 1, 1⟩
  | .ldfld => ⟨"ldfld", .field, 1, 1⟩
  | .ldflda => ⟨"ldflda", .field, 1, 1⟩
  | .stfld => ⟨"stfld", .field, 2, 0⟩
  | .ldsfld => ⟨"ldsfld", .field, 0, 1⟩
  | .ldsflda => ⟨"ldsflda", .field, 0, 1⟩
  | .stsfld => ⟨"stsfld", .field, 1, 0⟩
  | .newarr => ⟨"newarr", .type, 1, 1⟩
  | .ldlen => ⟨"ldlen", .none, 1, 1⟩
  | .ldelem => ⟨"ldelem", .type, 2, 1⟩
  | .ldelema => ⟨"ldelema", .type, 2, 1⟩
  | .stelem => ⟨"stelem", .type, 3, 0⟩
  | .box => ⟨"box", .type, 1, 1⟩
  | .convI4 => ⟨"conv.i4", .none, 1, 1⟩
  | .unassigned n => ⟨Text.join ["OpCode(", Text.ofNat n, ")"], .none, 0, 0⟩

/-- The assembler spelling. -/
def mnemonic (op : Opcode) : Text := op.row.mnemonic

/-- The kind of operand the opcode is written with. -/
def operand (op : Opcode) : OperandKind := op.row.operand

/-- The opcode of a spelling. -/
def ofMnemonic? (t : Text) : Option Opcode := all.find? fun op => op.mnemonic = t

def number : Opcode → Nat
  | .unassigned n => n
  | op => all.idxOf op

/-- Whether the opcode transfers control to a label. -/
def isBranch : Opcode → Bool
  | .br | .brtrue | .brfalse => true
  | _ => false

/-- Whether a branch may fall through. -/
def isConditional : Opcode → Bool
  | .brtrue | .brfalse => true
  | _ => false

/-- Whether control never goes on behind the opcode. -/
def terminates : Opcode → Bool
  | .ret | .br => true
  | _ => false

/-- Whether the opcode may be recorded with an operand of a kind: its own, a full integer for the short
    constant form, and a constructor for `call`, which chains to a base constructor. -/
def accepts (op : Opcode) (k : OperandKind) : Bool :=
  op.isAssigned && ((k = .int32 && op = .ldcS) || (k = .ctor && op = .call) || op.operand = k)

end Opcode
end CilCompiler
