import CilCompiler.Text

/-!
Numbers and times of TOML. A literal is first cut off by the characters it may hold and then checked as a
whole: underscores stand between digits, a whole number has no zeros in front, a fraction has digits on
both sides of its point, and a number is not too large to be held.
-/

namespace CilCompiler
namespace Toml

def isDigit (c : Char) : Bool := '0' ≤ c && c ≤ '9'

def isHexDigit (c : Char) : Bool := isDigit c || ('a' ≤ c && c ≤ 'f') || ('A' ≤ c && c ≤ 'F')

def digitValue (c : Char) : Nat :=
  if isDigit c then c.toNat - 48 else if 'a' ≤ c && c ≤ 'f' then c.toNat - 87 else c.toNat - 55

/-- The number of digits in a base. -/
def ofDigits (base : Nat) (ds : List Char) : Nat := ds.foldl (fun n d => n * base + digitValue d) 0

/-- Whether every underscore stands behind a digit and the last character is one. -/
def underscoresOk : Bool → List Char → Bool
  | accept, [] => accept
  | accept, c :: rest => (c ≠ '_' || accept) && underscoresOk (isHexDigit c) rest

/-- Whether a literal has a zero in front of other digits. -/
def hasLeadingZero : List Char → Bool
  | '0' :: c :: _ => c ≠ 'b' && c ≠ 'o' && c ≠ 'x'
  | '-' :: '0' :: _ :: _ => true
  | '+' :: '0' :: _ :: _ => true
  | _ => false

def withoutUnderscores (cs : List Char) : List Char := cs.filter fun c => c ≠ '_'

/-- A signed number of 64 bits. -/
def inRange? (i : Int) : Option Int := 
  if Int64.minValue.toInt ≤ i ∧ i ≤ Int64.maxValue.toInt then some i else none

/-- The value of a whole number. -/
def integer? (cs : List Char) : Option Int :=
  if !underscoresOk false cs || hasLeadingZero cs then none
  else match withoutUnderscores cs with
    | '0' :: 'x' :: ds => inRange? (ofDigits 16 ds)
    | '0' :: 'o' :: ds => inRange? (ofDigits 8 ds)
    | '0' :: 'b' :: ds => inRange? (ofDigits 2 ds)
    | '-' :: ds => inRange? (-(ofDigits 10 ds : Int))
    | '+' :: ds => inRange? (ofDigits 10 ds)
    | ds => inRange? (ofDigits 10 ds)

/-! ### Fractions -/

/-- Whether every point has a digit behind it. -/
def pointsOk : Bool → List Char → Bool
  | afterPoint, [] => !afterPoint
  | afterPoint, c :: rest => (!afterPoint || isDigit c) && pointsOk (c = '.') rest

/-- The parts of a literal between points and exponent marks, empty ones left out. -/
def floatParts (cs : List Char) : List (List Char) :=
  (cs.foldr (fun c parts =>
    if c = '.' || c = 'e' || c = 'E' then [] :: parts
    else match parts with
      | p :: rest => (c :: p) :: rest
      | [] => [[c]]) [[]]).filter fun p => !p.isEmpty

def withoutSign : List Char → List Char
  | '-' :: cs => cs
  | '+' :: cs => cs
  | cs => cs

/-- The least number that is too large for a double, even after rounding. -/
def doubleBound : Nat := Nat.pow 2 1024 - Nat.pow 2 970

/-- Whether `m · 10^e` is too large for a double. -/
def isTooLarge (m : Nat) (e : Int) : Bool :=
  if m = 0 then false
  else
    let size : Int := (Nat.toDigits 10 m).length + e
    if size < 300 then false
    else if 320 < size then true
    else if 0 ≤ e then decide (doubleBound ≤ m * Nat.pow 10 e.toNat)
    else decide (doubleBound * Nat.pow 10 (-e).toNat ≤ m)

/-- Whether characters are a decimal number with a fraction or an exponent that a double can hold. -/
def isDecimal (cs : List Char) : Bool :=
  let body := withoutSign cs
  let whole := body.takeWhile isDigit
  let rest := body.dropWhile isDigit
  let (fraction, rest) := match rest with
    | '.' :: r => (r.takeWhile isDigit, r.dropWhile isDigit)
    | r => ([], r)
  let exponent : Option Int := match rest with
    | [] => some 0
    | c :: r =>
      if c ≠ 'e' && c ≠ 'E' then none
      else if (withoutSign r).isEmpty || !(withoutSign r).all isDigit then none
      else
        let n : Int := ofDigits 10 (withoutSign r)
        some (if r.head? = some '-' then -n else n)
  match exponent with
  | some e => !(whole.isEmpty && fraction.isEmpty) && !isTooLarge (ofDigits 10 (whole ++ fraction)) (e - fraction.length)
  | none => false

/-- The words for what is no number and for what is larger than every number. -/
def isFloatWord (cs : List Char) : Bool :=
  let body := withoutSign cs
  body = ['i', 'n', 'f'] || body = ['n', 'a', 'n']

def isFloat (cs : List Char) : Bool :=
  isFloatWord cs ||
    ((floatParts cs).all (underscoresOk false) && !((floatParts cs).head?.any hasLeadingZero) && pointsOk false cs &&
      isDecimal (withoutUnderscores cs))

/-! ### Times -/

/-- Cuts two digits off. -/
def twoDigits? : List Char → Option (Nat × List Char)
  | a :: b :: rest => if isDigit a && isDigit b then some (ofDigits 10 [a, b], rest) else none
  | _ => none

/-- Cuts an hour off, which may have one digit. -/
def hour? (cs : List Char) : Option (Nat × List Char) :=
  (twoDigits? cs).or (match cs with
    | a :: rest => if isDigit a then some (digitValue a, rest) else none
    | [] => none)

def expect? (c : Char) : List Char → Option (List Char)
  | d :: rest => if d = c then some rest else none
  | [] => none

def isLeapYear (y : Nat) : Bool := (y % 4 = 0 && y % 100 ≠ 0) || y % 400 = 0

def daysIn (y m : Nat) : Nat :=
  if m = 2 then if isLeapYear y then 29 else 28
  else if m = 4 || m = 6 || m = 9 || m = 11 then 30 else 31

/-- Cuts a date off: year, month and day. -/
def date? (cs : List Char) : Option (List Char) := do
  let (y₁, r) ← twoDigits? cs
  let (y₂, r) ← twoDigits? r
  let r ← expect? '-' r
  let (m, r) ← twoDigits? r
  let r ← expect? '-' r
  let (d, r) ← twoDigits? r
  if 1 ≤ m ∧ m ≤ 12 ∧ 1 ≤ d ∧ d ≤ daysIn (y₁ * 100 + y₂) m then some r else none

/-- Cuts a time of day off: hour, minute, second and perhaps a fraction. -/
def clock? (cs : List Char) : Option (List Char) := do
  let (h, r) ← hour? cs
  let r ← expect? ':' r
  let (m, r) ← twoDigits? r
  let r ← expect? ':' r
  let (s, r) ← twoDigits? r
  if h < 24 ∧ m < 60 ∧ s < 60 then
    match r with
    | '.' :: c :: rest => if isDigit c then some (rest.dropWhile isDigit) else some r
    | _ => some r
  else none

/-- Whether characters are a distance from universal time, or its mark. -/
def isZone (cs : List Char) : Bool :=
  cs = ['Z'] || (match cs with
    | sign :: rest =>
      (sign = '+' || sign = '-') && (match twoDigits? rest with
        | some (h, r) => match (expect? ':' r).bind twoDigits? with
          | some (m, []) => decide (h ≤ 24) && decide (m ≤ 60)
          | _ => false
        | none => false)
    | [] => false)

/-- Whether characters are a date, a time of day, or both, the last perhaps with a zone. -/
def isDatetime (cs : List Char) : Bool :=
  let cs := cs.map fun c => if c = 'z' then 'Z' else if c = 't' || c = ' ' then 'T' else c
  clock? cs = some [] || (match date? cs with
    | some [] => true
    | some ('T' :: rest) => match clock? rest with
      | some zone => zone.isEmpty || isZone zone
      | none => false
    | _ => false)

end Toml
end CilCompiler
