import CilCompiler.Text

/-!
MessagePack values and their bytes. Integers of every width are one kind of value here, and so are the
two spellings of a byte string; floating point numbers and extensions are read as `other`, since no
program holds one. Reading takes the first value and leaves the rest.
-/

namespace CilCompiler.Msgpack

inductive Value where
  | nil
  | bool (b : Bool)
  | int (i : Int)
  | str (t : Text)
  | array (items : List Value)
  | map (entries : List (Value × Value))
  /-- A value of a kind that no program uses. -/
  | other
deriving Inhabited

/-! ### Reading -/

/-- The number that bytes spell, most significant byte first. -/
def number (bs : List UInt8) : Nat := bs.foldl (fun n b => n * 256 + b.toNat) 0

/-- The same as a two's complement number. -/
def signed (bs : List UInt8) : Int :=
  let n := number bs
  if 2 * n < Nat.pow 256 bs.length then n else n - Nat.pow 256 bs.length

/-- The first `n` bytes and the rest, if there are so many. -/
def take? (n : Nat) (bs : List UInt8) : Option (List UInt8 × List UInt8) :=
  let head := bs.take n
  if head.length = n then some (head, bs.drop n) else none

/-- A byte string whose length takes `width` bytes. -/
def readStr (width : Nat) (bs : List UInt8) : Option (Value × List UInt8) := do
  let (len, bs) ← take? width bs
  let (body, bs) ← take? (number len) bs
  return (.str ⟨body⟩, bs)

/-- `n` bytes of a value that is not kept. -/
def skip (n : Nat) (bs : List UInt8) : Option (Value × List UInt8) := (take? n bs).map fun (_, bs) => (.other, bs)

/-- An extension whose length takes `width` bytes; its type takes one more. -/
def skipExtension (width : Nat) (bs : List UInt8) : Option (Value × List UInt8) := do
  let (len, bs) ← take? width bs
  skip (number len + 1) bs

/-- How the bytes after a first byte are to be read. -/
inductive Form where
  | whole (v : Value)
  | unsigned (width : Nat)
  | twos (width : Nat)
  | text (width : Nat)
  | shortText (length : Nat)
  | skipped (length : Nat)
  | extension (width : Nat)
  | items (count : Nat)
  | longItems (width : Nat)
  | entries (count : Nat)
  | longEntries (width : Nat)

/-- The form a first byte announces. -/
def form? (b : UInt8) : Option Form :=
  let n := b.toNat
  if n < 0x80 then some (.whole (.int n))
  else if n < 0x90 then some (.entries (n - 0x80))
  else if n < 0xA0 then some (.items (n - 0x90))
  else if n < 0xC0 then some (.shortText (n - 0xA0))
  else match n with
    | 0xC0 => some (.whole .nil)
    | 0xC2 => some (.whole (.bool false))
    | 0xC3 => some (.whole (.bool true))
    | 0xC4 | 0xD9 => some (.text 1)
    | 0xC5 | 0xDA => some (.text 2)
    | 0xC6 | 0xDB => some (.text 4)
    | 0xC7 => some (.extension 1)
    | 0xC8 => some (.extension 2)
    | 0xC9 => some (.extension 4)
    | 0xCA => some (.skipped 4)
    | 0xCB => some (.skipped 8)
    | 0xCC => some (.unsigned 1)
    | 0xCD => some (.unsigned 2)
    | 0xCE => some (.unsigned 4)
    | 0xCF => some (.unsigned 8)
    | 0xD0 => some (.twos 1)
    | 0xD1 => some (.twos 2)
    | 0xD2 => some (.twos 4)
    | 0xD3 => some (.twos 8)
    | 0xD4 => some (.skipped 2)
    | 0xD5 => some (.skipped 3)
    | 0xD6 => some (.skipped 5)
    | 0xD7 => some (.skipped 9)
    | 0xD8 => some (.skipped 17)
    | 0xDC => some (.longItems 2)
    | 0xDD => some (.longItems 4)
    | 0xDE => some (.longEntries 2)
    | 0xDF => some (.longEntries 4)
    | _ => if 0xE0 ≤ n then some (.whole (.int (n - 256))) else none

mutual

/-- The first value of the bytes. Each nested value and each list position uses one unit of `fuel`. -/
def read (fuel : Nat) (bs : List UInt8) : Option (Value × List UInt8) :=
  match fuel, bs with
  | 0, _ | _, [] => none
  | fuel + 1, b :: bs =>
    match form? b with
    | none => none
    | some (.whole v) => some (v, bs)
    | some (.unsigned w) => (take? w bs).map fun (n, bs) => (.int (number n), bs)
    | some (.twos w) => (take? w bs).map fun (n, bs) => (.int (signed n), bs)
    | some (.text w) => readStr w bs
    | some (.shortText n) => (take? n bs).map fun (body, bs) => (.str ⟨body⟩, bs)
    | some (.skipped n) => skip n bs
    | some (.extension w) => skipExtension w bs
    | some (.items n) => (readItems fuel n bs).map fun (vs, bs) => (.array vs, bs)
    | some (.longItems w) =>
      (take? w bs).bind fun (n, bs) => (readItems fuel (number n) bs).map fun (vs, bs) => (.array vs, bs)
    | some (.entries n) => (readEntries fuel n bs).map fun (es, bs) => (.map es, bs)
    | some (.longEntries w) =>
      (take? w bs).bind fun (n, bs) => (readEntries fuel (number n) bs).map fun (es, bs) => (.map es, bs)

def readItems (fuel count : Nat) (bs : List UInt8) : Option (List Value × List UInt8) :=
  match fuel, count with
  | _, 0 => some ([], bs)
  | 0, _ + 1 => none
  | fuel + 1, count + 1 =>
    (read fuel bs).bind fun (v, bs) => (readItems fuel count bs).map fun (vs, bs) => (v :: vs, bs)

def readEntries (fuel count : Nat) (bs : List UInt8) : Option (List (Value × Value) × List UInt8) :=
  match fuel, count with
  | _, 0 => some ([], bs)
  | 0, _ + 1 => none
  | fuel + 1, count + 1 =>
    (read fuel bs).bind fun (k, bs) => (read fuel bs).bind fun (v, bs) =>
      (readEntries fuel count bs).map fun (es, bs) => ((k, v) :: es, bs)

end

/-- The first value of the bytes and what follows it: every nested value takes at least one byte, so
    twice the number of bytes is enough fuel. -/
def decode? (bs : List UInt8) : Option (Value × List UInt8) := read (2 * bs.length + 1) bs

/-! ### Writing -/

/-- A number in `width` bytes, most significant first. -/
def bigEndian : (width : Nat) → Nat → List UInt8
  | 0, _ => []
  | w + 1, n => (n / Nat.pow 256 w).toUInt8 :: bigEndian w n

/-- The header of a byte string, in its shortest form. -/
def strHeader (n : Nat) : List UInt8 :=
  if n < 32 then [(0xA0 + n).toUInt8]
  else if n < 256 then 0xD9 :: bigEndian 1 n
  else if n < 65536 then 0xDA :: bigEndian 2 n
  else 0xDB :: bigEndian 4 n

def writeStr (t : Text) : List UInt8 := strHeader t.size ++ t.bytes

/-- The header of a list of `n` values. -/
def arrayHeader (n : Nat) : List UInt8 :=
  if n < 16 then [(0x90 + n).toUInt8]
  else if n < 65536 then 0xDC :: bigEndian 2 n
  else 0xDD :: bigEndian 4 n

/-- The header of a map of `n` entries. -/
def mapHeader (n : Nat) : List UInt8 :=
  if n < 16 then [(0x80 + n).toUInt8]
  else if n < 65536 then 0xDE :: bigEndian 2 n
  else 0xDF :: bigEndian 4 n

def writeBool (b : Bool) : List UInt8 := if b then [0xC3] else [0xC2]

/-- A 16-bit number, always in full. -/
def writeNat16 (n : Nat) : List UInt8 := 0xCD :: bigEndian 2 n

/-- A 32-bit number, always in full. -/
def writeInt32 (i : Int32) : List UInt8 := 0xD2 :: bigEndian 4 i.toUInt32.toNat

end CilCompiler.Msgpack
