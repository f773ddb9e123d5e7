import CilCompiler.Text

/-!
Digits in base sixteen, and bytes as text: two digits for each byte.
-/

namespace CilCompiler.Text

/-- The value of a base sixteen digit in either case. -/
def hexDigit? (c : Char) : Option Nat :=
  if '0' ≤ c ∧ c ≤ '9' then some (c.toNat - 48)
  else if 'a' ≤ c ∧ c ≤ 'f' then some (c.toNat - 87)
  else if 'A' ≤ c ∧ c ≤ 'F' then some (c.toNat - 55)
  else none

/-- The byte that two digits stand for. -/
def hexByte? (a b : UInt8) : Option UInt8 := do
  return UInt8.ofNat ((← hexDigit? (Char.ofNat a.toNat)) * 16 + (← hexDigit? (Char.ofNat b.toNat)))

/-- The bytes that pairs of digits stand for. -/
def unhexBytes? : List UInt8 → Option (List UInt8)
  | [] => some []
  | [_] => none
  | a :: b :: rest => do return (← hexByte? a b) :: (← unhexBytes? rest)

/-- The bytes a text stands for. -/
def unhex? (t : Text) : Option (List UInt8) := unhexBytes? t.bytes

/-- Bytes as a text in lower case. -/
def hexOfBytes (bs : List UInt8) : Text := join (bs.map fun b => hex 2 b.toNat)

end CilCompiler.Text
