import CilCompiler.Text.CodeTable
import CilCompiler.Toml.Number

/-!
The grammar of TOML. A text is a list of statements, one a line: a key with a value, the header of a table,
or the header of an element of an array of tables. What the statements mean together is said by the
document they build.
-/

namespace CilCompiler
namespace Toml

/-- The names of a dotted key. -/
abbrev Key := List Text

/-- A value as it is written. -/
inductive Term where
  | string (s : Text)
  | integer (i : Int)
  | float (literal : Text)
  | boolean (b : Bool)
  | datetime (literal : Text)
  | array (items : List Term)
  | inline (entries : List (Key × Term))
deriving Inhabited

inductive Statement where
  | assign (key : Key) (term : Term)
  | table (key : Key)
  /-- An element of an array of tables. -/
  | element (key : Key)
deriving Inhabited

/-! ### Blanks -/

def isBlank (c : Char) : Bool := c = ' ' || c = '\t'

def isBreak (c : Char) : Bool := c = '\n' || c = '\r'

def skipBlanks (cs : List Char) : List Char := cs.dropWhile isBlank

/-- Skips blanks, line breaks and comments. -/
def skipGapsFrom : (inComment : Bool) → List Char → List Char
  | _, [] => []
  | true, c :: rest => skipGapsFrom (!isBreak c) rest
  | false, c :: rest =>
    if isBlank c || isBreak c then skipGapsFrom false rest
    else if c = '#' then skipGapsFrom true rest
    else c :: rest

def skipGaps (cs : List Char) : List Char := skipGapsFrom false cs

/-- Skips the rest of a line, on which only a comment may stand. -/
def endLine? (cs : List Char) : Option (List Char) :=
  match skipBlanks cs with
  | [] => some []
  | c :: rest =>
    if c = '#' then some (rest.dropWhile fun d => !isBreak d)
    else if isBreak c then some rest
    else none

/-! ### Strings -/

/-- The character of an escape by one letter. -/
def escape? (c : Char) : Option Char :=
  if c = 'b' then some '\x08' else if c = 't' then some '\t' else if c = 'n' then some '\n'
  else if c = 'f' then some '\x0c' else if c = 'r' then some '\r' else if c = '"' then some '"'
  else if c = '\\' then some '\\' else none

/-- The character of an escape by number; half of a surrogate pair is none. -/
def unicode? (ds : List Char) : Option Char := do
  let n ← ds.foldlM (fun n d => (Text.hexDigit? d).map fun v => n * 16 + v) 0
  if n < 0xD800 ∨ (0xE000 ≤ n ∧ n ≤ 0x10FFFF) then some (Char.ofNat n) else none

/-- Puts a character in front of what is read behind it. -/
def before (c : Option Char) (r : Option (List Char × List Char)) : Option (List Char × List Char) := do
  let c ← c
  let (cs, rest) ← r
  return (c :: cs, rest)

/-- The characters up to a closing quotation mark, on one line. -/
def basic : List Char → Option (List Char × List Char)
  | [] => none
  | '"' :: rest => some ([], rest)
  | '\\' :: 'u' :: a :: b :: c :: d :: rest => before (unicode? [a, b, c, d]) (basic rest)
  | '\\' :: 'U' :: a :: b :: c :: d :: e :: f :: g :: h :: rest => before (unicode? [a, b, c, d, e, f, g, h]) (basic rest)
  | '\\' :: c :: rest => before (escape? c) (basic rest)
  | c :: rest => if isBreak c || c = '\\' then none else before (some c) (basic rest)

/-- The characters up to a closing apostrophe, on one line. -/
def literal : List Char → Option (List Char × List Char)
  | [] => none
  | c :: rest => if c = '\x27' then some ([], rest) else if isBreak c then none else before (some c) (literal rest)

/-- Whether a text over several lines ends where `cs` begins with the mark: with three to five marks, of
    which the last three close it. -/
def closes (mark : Char) (cs : List Char) : Option Bool :=
  let n := (cs.takeWhile fun c => c = mark).length
  if n < 3 then some false else if n = 3 then some true else if n < 6 then some false else none

/-- Whether characters begin with white space that reaches over the end of a line. -/
def bridgesLines (cs : List Char) : Bool := (cs.takeWhile fun c => isBlank c || isBreak c).contains '\n'

/-- The characters up to three quotation marks, over several lines. A backslash at the end of a line joins
    it to the next character that is no white space. -/
def multiline : (joining : Bool) → List Char → Option (List Char × List Char)
  | _, [] => none
  | joining, c :: rest =>
    if joining && (isBlank c || isBreak c) then multiline true rest
    else if c = '"' then
      match closes '"' (c :: rest) with
      | some true => some ([], rest.drop 2)
      | some false => before (some c) (multiline false rest)
      | none => none
    else if c = '\\' then
      match rest with
      | 'u' :: a :: b :: d :: e :: rest => before (unicode? [a, b, d, e]) (multiline false rest)
      | 'U' :: a :: b :: d :: e :: f :: g :: h :: i :: rest =>
        before (unicode? [a, b, d, e, f, g, h, i]) (multiline false rest)
      | d :: after =>
        if bridgesLines (d :: after) then multiline true after else before (escape? d) (multiline false after)
      | [] => none
    else before (some c) (multiline false rest)

/-- The characters up to three apostrophes, over several lines. -/
def multilineLiteral : List Char → Option (List Char × List Char)
  | [] => none
  | c :: rest =>
    if c = '\x27' then
      match closes '\x27' (c :: rest) with
      | some true => some ([], rest.drop 2)
      | some false => before (some c) (multilineLiteral rest)
      | none => none
    else before (some c) (multilineLiteral rest)

/-- The text without a line break at its beginning. -/
def dropBreak : List Char → List Char
  | '\n' :: cs => cs
  | '\r' :: '\n' :: cs => cs
  | cs => cs

def stringTerm (r : Option (List Char × List Char)) : Option (Term × List Char) :=
  r.map fun (cs, rest) => (.string (Text.ofChars cs), rest)

/-! ### Keys -/

def isBareChar (c : Char) : Bool := isDigit c || ('a' ≤ c && c ≤ 'z') || ('A' ≤ c && c ≤ 'Z') || c = '_' || c = '-'

/-- One name of a key, in quotes or without. -/
def name? (cs : List Char) : Option (Text × List Char) :=
  match cs with
  | '"' :: rest => (basic rest).map fun (n, rest) => (Text.ofChars n, rest)
  | '\x27' :: rest => (literal rest).map fun (n, rest) => (Text.ofChars n, rest)
  | cs =>
    let n := cs.takeWhile isBareChar
    if n.isEmpty then none else some (Text.ofChars n, cs.dropWhile isBareChar)

/-- The names of a key with points between, at most as many as `fuel` says, and what follows behind
    blanks. -/
def key? : (fuel : Nat) → List Char → Option (Key × List Char)
  | 0, _ => none
  | fuel + 1, cs => do
    let (n, rest) ← name? (skipBlanks cs)
    match skipBlanks rest with
    | '.' :: rest => do
      let (ns, rest) ← key? fuel rest
      return (n :: ns, rest)
    | rest => return ([n], rest)

/-! ### Values -/

def isFloatChar (c : Char) : Bool := isDigit c || c = '_' || c = '.' || c = '-' || c = '+' || c = 'e' || c = 'E'

def isTimeChar (c : Char) : Bool :=
  isDigit c || c = '-' || c = ':' || c = 'T' || c = 't' || c = ' ' || c = '.' || c = 'Z' || c = 'z' || c = '+'

/-- Cuts a literal off and checks it. -/
def integerTerm (head : List Char) (isRest : Char → Bool) (cs : List Char) : Option (Term × List Char) :=
  (integer? (head ++ cs.takeWhile isRest)).map fun i => (.integer i, cs.dropWhile isRest)

def floatTerm (head cs : List Char) : Option (Term × List Char) :=
  let l := head ++ cs.takeWhile isFloatChar
  if isFloat l then some (.float (Text.ofChars l), cs.dropWhile isFloatChar) else none

def datetimeTerm (head cs : List Char) : Option (Term × List Char) :=
  let l := ((head ++ cs.takeWhile isTimeChar).reverse.dropWhile isBlank).reverse
  if isDatetime l then some (.datetime (Text.ofChars l), cs.dropWhile isTimeChar) else none

def isExponentOrPoint (c : Char) : Bool := c = '.' || c = 'e' || c = 'E'

/-- A number in base ten behind the characters `head`. -/
def decimalTerm (head cs : List Char) : Option (Term × List Char) :=
  let isRest (c : Char) : Bool := isDigit c || c = '_'
  let ds := cs.takeWhile isRest
  let rest := cs.dropWhile isRest
  if rest.head?.any isExponentOrPoint then floatTerm (head ++ ds) rest
  else (integer? (head ++ ds)).map fun i => (.integer i, rest)

/-- A number or a time that starts with a digit. -/
def numberTerm (cs : List Char) : Option (Term × List Char) :=
  let based (letter : Char) (isRest : Char → Bool) (rest : List Char) : Option (Term × List Char) :=
    if rest.head?.any isRest then integerTerm ['0', letter] (fun c => isRest c || c = '_') rest else none
  let ds := cs.takeWhile isDigit
  match ds, cs.dropWhile isDigit with
  | ['0'], 'x' :: rest => based 'x' isHexDigit rest
  | ['0'], 'o' :: rest => based 'o' (fun c => '0' ≤ c && c ≤ '7') rest
  | ['0'], 'b' :: rest => based 'b' (fun c => c = '0' || c = '1') rest
  | ds, rest =>
    if (rest.head?.any fun c => c = '-' || c = ':') && ds ≠ ['0'] then datetimeTerm ds rest
    else decimalTerm ds rest

/-- A number that starts with a sign, which has base ten. -/
def signedTerm (sign : Char) (cs : List Char) : Option (Term × List Char) :=
  match cs with
  | 'i' :: 'n' :: 'f' :: rest => some (.float (Text.ofChars [sign, 'i', 'n', 'f']), rest)
  | 'n' :: 'a' :: 'n' :: rest => some (.float (Text.ofChars [sign, 'n', 'a', 'n']), rest)
  | '0' :: c :: rest => if c = 'b' || c = 'o' || c = 'x' then none else decimalTerm [sign] ('0' :: c :: rest)
  | c :: rest => if isDigit c then decimalTerm [sign] (c :: rest) else none
  | [] => none

mutual

/-- A value. Every value and every list of values needs one unit of `fuel`. -/
def term? : (fuel : Nat) → List Char → Option (Term × List Char)
  | 0, _ => none
  | fuel + 1, cs =>
    match cs with
    | '[' :: rest => (items? fuel (skipGaps rest)).map fun (ts, rest) => (.array ts, rest)
    | '\x7b' :: rest => (entries? fuel (skipBlanks rest)).map fun (es, rest) => (.inline es, rest)
    | '"' :: '"' :: '"' :: rest => stringTerm (multiline false (dropBreak rest))
    | '"' :: rest => stringTerm (basic rest)
    | '\x27' :: '\x27' :: '\x27' :: rest => stringTerm (multilineLiteral (dropBreak rest))
    | '\x27' :: rest => stringTerm (literal rest)
    | 't' :: 'r' :: 'u' :: 'e' :: rest => some (.boolean true, rest)
    | 'f' :: 'a' :: 'l' :: 's' :: 'e' :: rest => some (.boolean false, rest)
    | 'i' :: 'n' :: 'f' :: rest => some (.float "inf", rest)
    | 'n' :: 'a' :: 'n' :: rest => some (.float "nan", rest)
    | '-' :: rest => signedTerm '-' rest
    | '+' :: rest => signedTerm '+' rest
    | c :: _ => if isDigit c then numberTerm cs else none
    | [] => none

/-- The items of an array up to its end; a comma may stand behind the last. -/
def items? : (fuel : Nat) → List Char → Option (List Term × List Char)
  | 0, _ => none
  | fuel + 1, cs =>
    match cs with
    | ']' :: rest => some ([], rest)
    | cs => do
      let (t, rest) ← term? fuel cs
      match skipGaps rest with
      | ',' :: rest => do
        let (ts, rest) ← items? fuel (skipGaps rest)
        return (t :: ts, rest)
      | ']' :: rest => return ([t], rest)
      | _ => none

/-- The entries of a table on one line up to its end. -/
def entries? : (fuel : Nat) → List Char → Option (List (Key × Term) × List Char)
  | 0, _ => none
  | fuel + 1, cs =>
    match cs with
    | '\x7d' :: rest => some ([], rest)
    | cs => do
      let (k, rest) ← key? fuel cs
      let rest ← expect? '=' rest
      let (t, rest) ← term? fuel (skipBlanks rest)
      match skipBlanks rest with
      | ',' :: rest =>
        match skipBlanks rest with
        | '\x7d' :: _ => none
        | rest => do
          let (es, rest) ← entries? fuel rest
          return ((k, t) :: es, rest)
      | '\x7d' :: rest => return ([(k, t)], rest)
      | _ => none

end

/-! ### Statements -/

/-- A statement at the beginning of a line, and the lines behind it. -/
def statement? (fuel : Nat) (cs : List Char) : Option (Statement × List Char) :=
  match cs with
  | '[' :: '[' :: rest => do
    let (k, rest) ← key? fuel rest
    let rest ← expect? ']' rest
    let rest ← expect? ']' rest
    return (.element k, ← endLine? rest)
  | '[' :: rest => do
    let (k, rest) ← key? fuel rest
    let rest ← expect? ']' rest
    return (.table k, ← endLine? rest)
  | cs => do
    let (k, rest) ← key? fuel cs
    let rest ← expect? '=' rest
    let (t, rest) ← term? fuel (skipBlanks rest)
    return (.assign k t, ← endLine? rest)

def statements? : (fuel : Nat) → List Char → Option (List Statement)
  | 0, _ => none
  | fuel + 1, cs =>
    match skipGaps cs with
    | [] => some []
    | c :: rest => do
      let (s, rest) ← statement? fuel (c :: rest)
      return s :: (← statements? fuel rest)

/-- Whether characters may stand in a text: control characters may not, except tabs and the ends of
    lines. -/
def isAllowed : List Char → Bool
  | [] => true
  | '\r' :: rest => rest.head? = some '\n' && isAllowed rest
  | c :: rest => (c = '\t' || c = '\n' || (0x20 ≤ c.toNat && c.toNat ≠ 0x7F)) && c ≠ '\uFFFD' && isAllowed rest

/-- The text without a mark of its byte order. -/
def dropMark (t : Text) : Text :=
  match t.bytes with
  | 0xFF :: 0xFE :: bs => ⟨bs⟩
  | 0xFE :: 0xFF :: bs => ⟨bs⟩
  | 0xEF :: 0xBB :: 0xBF :: bs => ⟨bs⟩
  | bs => ⟨bs⟩

/-- The statements of a text. -/
def parse? (t : Text) : Option (List Statement) :=
  let cs := (dropMark t).chars
  if isAllowed cs then statements? (2 * cs.length + 2) cs else none

end Toml
end CilCompiler
