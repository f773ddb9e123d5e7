import CilCompiler.Cil.Member
import CilCompiler.Cil.Opcode

/-!
Instructions and their effect on the evaluation stack.
-/

namespace CilCompiler

inductive Operand where
  | none
  | int (v : Int32)
  | str (s : Text)
  | type (t : Ty)
  | field (f : Field)
  | method (m : Method)
  | ctor (c : Method)
  /-- A branch target that is still to be marked. -/
  | label (id : Nat)
  /-- A branch target as a position in the code. -/
  | offset (pc : Nat)
deriving DecidableEq, Inhabited

structure Instr where
  op : Opcode
  operand : Operand := .none
deriving DecidableEq, Inhabited

/-- How many values an opcode pops and pushes with an operand. For `ret` the operand is the return type of
    the method. -/
def stackEffect (op : Opcode) (x : Operand) : Nat × Nat :=
  match op with
  | .call | .callvirt =>
    match x with
    | .method m => (m.argCount, if m.returnsVoid then 0 else 1)
    | .ctor c => if op = .call then (c.params.length + 1, 0) else (0, 0)
    | _ => (0, 0)
  | .newobj =>
    match x with
    | .ctor c => (c.params.length, 1)
    | _ => (0, 1)
  | .ret =>
    match x with
    | .type t => if t.isVoid then (0, 0) else (1, 0)
    | _ => (0, 0)
  | _ => (op.row.pops, op.row.pushes)

/-- The effect of an instruction in a method that returns `ret`. -/
def Instr.effect (ret : Option Ty) (i : Instr) : Nat × Nat :=
  match i.op with
  | .ret => stackEffect .ret (match ret with | some t => .type t | _ => .none)
  | op => stackEffect op i.operand

end CilCompiler
