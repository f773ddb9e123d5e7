import CilCompiler.Cil.Instr
import CilCompiler.Fault

/-!
Short forms. Integer constants and the numbers of locals and arguments are written in the shortest
instruction that holds them: one without an operand for the smallest, one with a byte where there is one,
else the general form. `shortInt?`, `shortLocal?` and `shortArg?` say what a form without operand
addresses.
-/

namespace CilCompiler

namespace ShortForm

/-- The instruction that pushes a constant. -/
def ofInt (v : Int32) : Instr :=
  if v = -1 then { op := .ldcM1 }
  else if v = 0 then { op := .ldc0 }
  else if v = 1 then { op := .ldc1 }
  else if v = 2 then { op := .ldc2 }
  else if v = 3 then { op := .ldc3 }
  else if v = 4 then { op := .ldc4 }
  else if v = 5 then { op := .ldc5 }
  else if v = 6 then { op := .ldc6 }
  else if v = 7 then { op := .ldc7 }
  else if v = 8 then { op := .ldc8 }
  else if -128 ≤ v ∧ v ≤ 127 then { op := .ldcS, operand := .int v }
  else { op := .ldc, operand := .int v }

/-- The largest number of a local or an argument. -/
def maxIndex : Int := 65534

/-- The instruction that loads, stores or takes the address of a local. -/
def ofLocal (op : Opcode) (index : Int) : Except Fault Instr :=
  if index < 0 ∨ maxIndex < index then .error (.backend (.localRange index))
  else
    let general : Instr := { op, operand := .int (Int32.ofInt index) }
    match op with
    | .ldloc =>
      .ok (if index = 0 then { op := .ldloc0 } else if index = 1 then { op := .ldloc1 }
        else if index = 2 then { op := .ldloc2 } else if index = 3 then { op := .ldloc3 } else general)
    | .stloc =>
      .ok (if index = 0 then { op := .stloc0 } else if index = 1 then { op := .stloc1 }
        else if index = 2 then { op := .stloc2 } else if index = 3 then { op := .stloc3 } else general)
    | .ldloca => .ok general
    | op => .error (.backend (.notLocalOp op.mnemonic))

/-- The instruction that loads, stores or takes the address of an argument. -/
def ofArg (op : Opcode) (index : Int) : Except Fault Instr :=
  if index < 0 ∨ maxIndex < index then .error (.backend (.argumentRange index))
  else
    let operand : Operand := .int (Int32.ofInt index)
    let isByte : Bool := index ≤ 255
    match op with
    | .ldarg =>
      .ok (if index = 0 then { op := .ldarg0 } else if index = 1 then { op := .ldarg1 }
        else if index = 2 then { op := .ldarg2 } else if index = 3 then { op := .ldarg3 }
        else { op := if isByte then .ldargS else .ldarg, operand })
    | .starg => .ok { op := if isByte then .stargS else .starg, operand }
    | .ldarga => .ok { op := if isByte then .ldargaS else .ldarga, operand }
    | op => .error (.backend (.notArgumentOp op.mnemonic))

end ShortForm

namespace Opcode

/-- The constant a form without operand pushes. -/
def shortInt? : Opcode → Option Int32
  | .ldcM1 => some (-1)
  | .ldc0 => some 0
  | .ldc1 => some 1
  | .ldc2 => some 2
  | .ldc3 => some 3
  | .ldc4 => some 4
  | .ldc5 => some 5
  | .ldc6 => some 6
  | .ldc7 => some 7
  | .ldc8 => some 8
  | _ => none

/-- The local a form without operand addresses. -/
def shortLocal? : Opcode → Option Nat
  | .ldloc0 | .stloc0 => some 0
  | .ldloc1 | .stloc1 => some 1
  | .ldloc2 | .stloc2 => some 2
  | .ldloc3 | .stloc3 => some 3
  | _ => none

/-- The argument a form without operand loads. -/
def shortArg? : Opcode → Option Nat
  | .ldarg0 => some 0
  | .ldarg1 => some 1
  | .ldarg2 => some 2
  | .ldarg3 => some 3
  | _ => none

end Opcode
end CilCompiler
