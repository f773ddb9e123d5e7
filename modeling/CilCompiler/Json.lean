import CilCompiler.Text

/-!
JSON values. Numbers keep their spelling and objects keep their members in order, repeated keys
included: what a repeated key or a fractional number means is for the reader of the value to say.
-/

namespace CilCompiler

inductive Json where
  | null
  | bool (b : Bool)
  | number (literal : Text)
  | string (s : Text)
  | array (items : List Json)
  | object (members : List (Text × Json))
deriving Inhabited

namespace Json

/-- The number an integer literal denotes. -/
def digitsValue (ds : List UInt8) : Nat := ds.foldl (fun n d => n * 10 + (d.toNat - 48)) 0

/-- The value of a number without fraction and exponent. -/
def int? : Json → Option Int
  | .number t =>
    match t.bytes with
    | 45 :: ds => if ds.all (fun b => 48 ≤ b && b ≤ 57) then some (-(digitsValue ds : Int)) else none
    | ds => if ds.all (fun b => 48 ≤ b && b ≤ 57) then some (digitsValue ds) else none
  | _ => none

/-- The value of a number without sign, fraction and exponent. -/
def nat? : Json → Option Nat
  | .number t => if t.bytes.all (fun b => 48 ≤ b && b ≤ 57) then some (digitsValue t.bytes) else none
  | _ => none

/-- The last member of that name. -/
def member? : Json → Text → Option Json
  | .object ms, k => (ms.reverse.find? fun m => m.1 = k).map Prod.snd
  | _, _ => none

def ofInt (i : Int) : Json := .number (Text.ofInt i)

/-- A text that may be missing. -/
def ofText? : Option Text → Json
  | some t => .string t
  | none => .null

end Json
end CilCompiler
