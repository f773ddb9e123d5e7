import CilCompiler.Text
import CilCompiler.Text.Printable
import CilCompiler.Fault
import CilCompiler.Text.Case

/-!
Values of flags: texts, switches, whole numbers and lengths of time. A number may be written in base two,
eight, ten or sixteen with underscores between its digits, and a length of time is a sum of numbers
with units. A setting that is switched on or off, or left to the tool, is a text with three values.
-/

namespace CilCompiler

inductive FlagKind where
  | text
  | switch
  | integer
  | duration
deriving DecidableEq, Inhabited

inductive FlagValue where
  | text (t : Text)
  | switch (isOn : Bool)
  | integer (i : Int)
  /-- A length of time in nanoseconds. -/
  | duration (ns : Int)
deriving DecidableEq, Inhabited

namespace FlagValue

/-! ### Switches -/

def trueWords : List Text := ["1", "t", "T", "TRUE", "true", "True"]

def falseWords : List Text := ["0", "f", "F", "FALSE", "false", "False"]

def readSwitch (t : Text) : Except Text FlagValue :=
  if trueWords.contains t then .ok (.switch true)
  else if falseWords.contains t then .ok (.switch false)
  else .error (Text.join ["strconv.ParseBool: parsing ", t.quoted, ": invalid syntax"])

/-! ### Whole numbers -/

/-- Why a text is no number. -/
inductive NumberFlaw where
  | malformed
  | outOfRange
deriving DecidableEq, Inhabited

def NumberFlaw.message : NumberFlaw → Text
  | .malformed => "invalid syntax"
  | .outOfRange => "value out of range"

/-- A letter in lower case; other bytes stay. -/
def lower (b : UInt8) : UInt8 := if 65 ≤ b ∧ b ≤ 90 then b + 32 else b

/-- The value of a digit or of a letter behind the digits. -/
def digit? (b : UInt8) : Option Nat :=
  if 48 ≤ b ∧ b ≤ 57 then some (b.toNat - 48)
  else if 97 ≤ lower b ∧ lower b ≤ 122 then some ((lower b).toNat - 87)
  else none

/-- Reads digits behind a number that is known so far. Underscores are skipped, and what comes behind a
    number that is too large is not looked at. -/
def readDigits (base n : Nat) : List UInt8 → Except NumberFlaw Nat
  | [] => .ok n
  | b :: rest =>
    if b = 95 then readDigits base n rest
    else match digit? b with
      | none => .error .malformed
      | some d =>
        if base ≤ d then .error .malformed
        else if UInt64.size ≤ n * base + d then .error .outOfRange
        else readDigits base (n * base + d) rest

/-- The base of a number and its digits. -/
def splitBase : List UInt8 → Nat × List UInt8
  | 48 :: mark :: d :: rest =>
    if lower mark = 98 then (2, d :: rest)
    else if lower mark = 111 then (8, d :: rest)
    else if lower mark = 120 then (16, d :: rest)
    else (8, mark :: d :: rest)
  | 48 :: rest => (8, rest)
  | bs => (10, bs)

/-- Whether every underscore stands between digits. The mark of the base counts as a digit. -/
def underscoresOk (isHex : Bool) : (afterDigit afterUnderscore : Bool) → List UInt8 → Bool
  | _, afterUnderscore, [] => !afterUnderscore
  | afterDigit, afterUnderscore, b :: rest =>
    if (48 ≤ b ∧ b ≤ 57) ∨ (isHex ∧ 97 ≤ lower b ∧ lower b ≤ 102) then underscoresOk isHex true false rest
    else if b = 95 then afterDigit && underscoresOk isHex false true rest
    else !afterUnderscore && underscoresOk isHex false false rest

def hasGoodUnderscores (bs : List UInt8) : Bool :=
  match bs with
  | 48 :: mark :: rest =>
    if [98, 111, 120].contains (lower mark) then underscoresOk (lower mark = 120) true false rest
    else underscoresOk false false false bs
  | _ => underscoresOk false false false bs

/-- The number without a sign. -/
def readMagnitude (bs : List UInt8) : Except NumberFlaw Nat := do
  if bs.isEmpty then throw .malformed
  let (base, digits) := splitBase bs
  let n ← readDigits base 0 digits
  if bs.contains 95 && !hasGoodUnderscores bs then throw .malformed
  return n

/-- A number of 64 bits with an optional sign. -/
def integerOf (t : Text) : Except NumberFlaw Int := do
  let (isNegative, bs) := match t.bytes with
    | 43 :: bs => (false, bs)
    | 45 :: bs => (true, bs)
    | bs => (false, bs)
  let n ← readMagnitude bs
  let i : Int := if isNegative then -(n : Int) else n
  if Int64.minValue.toInt ≤ i ∧ i ≤ Int64.maxValue.toInt then return i else throw .outOfRange

def readInteger (t : Text) : Except Text FlagValue :=
  match integerOf t with
  | .ok i => .ok (.integer i)
  | .error e => .error (Text.join ["strconv.ParseInt: parsing ", t.quoted, ": ", e.message])

/-! ### Lengths of time -/

/-- The text between quotes with every byte that is no plain character written by its number. -/
def plainQuoted (t : Text) : Text :=
  Text.join ["\"", Text.join (t.bytes.map fun b =>
    if b < 32 ∨ 128 ≤ b then "\\x" ++ Text.hex 2 b.toNat
    else if b = 34 ∨ b = 92 then ⟨[92, b]⟩
    else ⟨[b]⟩), "\""]

/-- The units of time in nanoseconds. -/
def units : List (Text × Nat) :=
  [("ns", 1), ("us", 1000), ("µs", 1000), ("μs", 1000), ("ms", 1000000), ("s", 1000000000), ("m", 60000000000),
    ("h", 3600000000000)]

/-- Why a text is no length of time. -/
inductive DurationFlaw where
  | malformed
  | missingUnit
  | unknownUnit (unit : Text)
deriving DecidableEq, Inhabited

def DurationFlaw.message (given : Text) : DurationFlaw → Text
  | .malformed => "time: invalid duration " ++ plainQuoted given
  | .missingUnit => "time: missing unit in duration " ++ plainQuoted given
  | .unknownUnit u => Text.join ["time: unknown unit ", plainQuoted u, " in duration ", plainQuoted given]

def isDigit (b : UInt8) : Bool := 48 ≤ b && b ≤ 57

def digitsValue (ds : List UInt8) : Nat := ds.foldl (fun n d => n * 10 + (d.toNat - 48)) 0

/-- The shortest time that is too long to count, in nanoseconds. -/
def durationBound : Nat := 9223372036854775808

/-- One number with its unit, in nanoseconds, and what is behind it. -/
def durationPart (bs : List UInt8) : Except DurationFlaw (Nat × List UInt8) := do
  let whole := bs.takeWhile isDigit
  let rest := bs.dropWhile isDigit
  if durationBound < digitsValue whole then throw .malformed
  let (fraction, rest) := match rest with
    | 46 :: r => (r.takeWhile isDigit, r.dropWhile isDigit)
    | r => ([], r)
  if whole.isEmpty && fraction.isEmpty then throw .malformed
  let isUnit (b : UInt8) : Bool := b ≠ 46 && !isDigit b
  let unit : Text := ⟨rest.takeWhile isUnit⟩
  if unit.isEmpty then throw .missingUnit
  match units.lookup unit with
  | none => throw (.unknownUnit unit)
  | some ns =>
    let total := digitsValue whole * ns + digitsValue fraction * ns / Nat.pow 10 fraction.length
    if durationBound < total then throw .malformed
    return (total, rest.dropWhile isUnit)

/-- The sum of numbers with units; `fuel` bounds their number. -/
def durationSum (total : Nat) : (fuel : Nat) → List UInt8 → Except DurationFlaw Nat
  | _, [] => .ok total
  | 0, _ => .error .malformed
  | fuel + 1, bs => do
    let (n, rest) ← durationPart bs
    if durationBound < total + n then throw .malformed
    durationSum (total + n) fuel rest

def durationOf (t : Text) : Except DurationFlaw Int := do
  let (isNegative, bs) := match t.bytes with
    | 43 :: bs => (false, bs)
    | 45 :: bs => (true, bs)
    | bs => (false, bs)
  if bs = [48] then return 0
  if bs.isEmpty then throw .malformed
  let n ← durationSum 0 bs.length bs
  if isNegative then return -n
  if durationBound ≤ n then throw .malformed
  return n

def readDuration (t : Text) : Except Text FlagValue :=
  match durationOf t with
  | .ok ns => .ok (.duration ns)
  | .error e => .error (e.message t)

/-- Reads a value of a kind. -/
def read : FlagKind → Text → Except Text FlagValue
  | .text, t => .ok (.text t)
  | .switch, t => readSwitch t
  | .integer, t => readInteger t
  | .duration, t => readDuration t

end FlagValue

/-! ### Settings that may be left to the tool -/

inductive Toggle where
  | auto
  | on
  | off
deriving DecidableEq, Inhabited

namespace Toggle

def name : Toggle → Text
  | .auto => "auto"
  | .on => "on"
  | .off => "off"

/-- Reads the value of a flag; capitals and blanks around it do not matter, and no value leaves the choice
    to the tool. -/
def parse (flag value : Text) : Except Fault Toggle :=
  let t := value.trim.toLower
  if t.isEmpty then .ok .auto
  else match [Toggle.auto, .on, .off].find? fun c => c.name = t with
    | some c => .ok c
    | none => .error (.plain (Text.join ["invalid --", flag, " value ", value.quoted, " (expected auto|on|off)"]))

end Toggle
end CilCompiler
