import CilCompiler.Json
import CilCompiler.Text.CodeTable

/-!
Reading JSON. The reader looks at one character at a time and keeps the containers that are still open
on a stack, so it is a plain fold over the text: no recursion on nesting, and what follows the first
value is left unread. An escape for half of a surrogate pair reads as U+FFFD.
-/

namespace CilCompiler.Json

/-- A container that is still open. -/
inductive Open where
  | array (items : List Json)
  | object (members : List (Text × Json)) (key : Option Text)

/-- Where in a number the reader is. -/
inductive Digits where
  | sign | zero | whole | point | fraction | mark | markSign | power
deriving DecidableEq

/-- What the reader expects next. Characters and digits read so far stand last first. -/
inductive Mode where
  | value
  | firstItem
  | firstKey
  | key
  | colon
  | after
  | string (acc : List Char) (high : Option Nat)
  | escape (acc : List Char) (high : Option Nat)
  | unicode (acc : List Char) (high : Option Nat) (left : Nat) (code : Nat)
  | number (acc : List Char) (part : Digits)
  | word (rest : List Char) (value : Json)

structure Reader where
  mode : Mode := .value
  stack : List Open := []

/-- What one character does to a reader. -/
inductive Progress where
  | more (r : Reader)
  /-- The value ends with this character. -/
  | done (v : Json)
  /-- The value ended before this character. -/
  | ended (v : Json)
  | bad

def isSpace (c : Char) : Bool := c = ' ' || c = '\t' || c = '\n' || c = '\r'

def isDigit (c : Char) : Bool := '0' ≤ c && c ≤ '9'

/-- Whether a number may end here. -/
def Digits.isComplete : Digits → Bool
  | .zero | .whole | .fraction | .power => true
  | _ => false

/-- The part of the number that `c` continues. -/
def Digits.next? (part : Digits) (c : Char) : Option Digits :=
  match part with
  | .sign => if c = '0' then some .zero else if isDigit c then some .whole else none
  | .zero => if c = '.' then some .point else if c = 'e' || c = 'E' then some .mark else none
  | .whole =>
    if isDigit c then some .whole else if c = '.' then some .point
    else if c = 'e' || c = 'E' then some .mark else none
  | .point => if isDigit c then some .fraction else none
  | .fraction => if isDigit c then some .fraction else if c = 'e' || c = 'E' then some .mark else none
  | .mark => if c = '+' || c = '-' then some .markSign else if isDigit c then some .power else none
  | .markSign => if isDigit c then some .power else none
  | .power => if isDigit c then some .power else none

namespace Reader

/-- The most containers that may be open at once. -/
def nestingLimit : Nat := 10000

/-- The reader after a whole value: it goes into the innermost open container. -/
def complete (stack : List Open) (v : Json) : Progress :=
  match stack with
  | [] => .done v
  | .array items :: rest => .more { mode := .after, stack := .array (v :: items) :: rest }
  | .object ms (some k) :: rest => .more { mode := .after, stack := .object ((k, v) :: ms) none :: rest }
  | .object _ none :: _ => .bad

/-- Opens a container. -/
def push (stack : List Open) (o : Open) (mode : Mode) : Progress :=
  if stack.length < nestingLimit then .more { mode, stack := o :: stack } else .bad

/-- The start of a value. -/
def start (stack : List Open) (c : Char) : Progress :=
  if c = '[' then push stack (.array []) .firstItem
  else if c = '\x7b' then push stack (.object [] none) .firstKey
  else if c = '"' then .more { mode := .string [] none, stack }
  else if c = '-' then .more { mode := .number ['-'] .sign, stack }
  else if c = '0' then .more { mode := .number ['0'] .zero, stack }
  else if isDigit c then .more { mode := .number [c] .whole, stack }
  else if c = 't' then .more { mode := .word ['r', 'u', 'e'] (.bool true), stack }
  else if c = 'f' then .more { mode := .word ['a', 'l', 's', 'e'] (.bool false), stack }
  else if c = 'n' then .more { mode := .word ['u', 'l', 'l'] .null, stack }
  else .bad

/-- What may follow a value inside a container. -/
def separator (stack : List Open) (c : Char) : Progress :=
  if isSpace c then .more { mode := .after, stack }
  else match stack with
    | .array items :: rest =>
      if c = ',' then .more { mode := .value, stack }
      else if c = ']' then complete rest (.array items.reverse) else .bad
    | .object ms _ :: rest =>
      if c = ',' then .more { mode := .key, stack }
      else if c = '\x7d' then complete rest (.object ms.reverse) else .bad
    | [] => .bad

/-- A character that ends a number: the value is complete, and the character separates it from what
    follows. -/
def endNumber (stack : List Open) (v : Json) (c : Char) : Progress :=
  match complete stack v with
  | .more r => separator r.stack c
  | .done v => .ended v
  | p => p

/-- The characters read so far with a pending half of a surrogate pair shown as U+FFFD. -/
def settle (acc : List Char) (high : Option Nat) : List Char :=
  match high with
  | some _ => '\uFFFD' :: acc
  | none => acc

/-- The end of a string: a key where the container expects one, else a value. -/
def endString (stack : List Open) (s : Text) : Progress :=
  match stack with
  | .object ms none :: rest => .more { mode := .colon, stack := .object ms (some s) :: rest }
  | _ => complete stack (.string s)

/-- The characters read so far after an escape by number. -/
def addCode (acc : List Char) (high : Option Nat) (code : Nat) : List Char × Option Nat :=
  if 0xD800 ≤ code ∧ code < 0xDC00 then (settle acc high, some code)
  else if 0xDC00 ≤ code ∧ code < 0xE000 then
    match high with
    | some h => (Char.ofNat (0x10000 + (h - 0xD800) * 1024 + (code - 0xDC00)) :: acc, none)
    | none => ('\uFFFD' :: acc, none)
  else (Char.ofNat code :: settle acc high, none)

/-- The character a one-letter escape stands for. -/
def shortEscape? (c : Char) : Option Char :=
  if c = '"' then some '"' else if c = '\\' then some '\\' else if c = '/' then some '/'
  else if c = 'b' then some '\x08' else if c = 'f' then some '\x0c' else if c = 'n' then some '\n'
  else if c = 'r' then some '\r' else if c = 't' then some '\t' else none

def step (r : Reader) (c : Char) : Progress :=
  let stay (mode : Mode) : Progress := .more { r with mode }
  match r.mode with
  | .value => if isSpace c then .more r else start r.stack c
  | .firstItem =>
    if isSpace c then .more r
    else if c = ']' then complete r.stack.tail (.array []) else start r.stack c
  | .firstKey =>
    if isSpace c then .more r
    else if c = '\x7d' then complete r.stack.tail (.object [])
    else if c = '"' then stay (.string [] none) else .bad
  | .key => if isSpace c then .more r else if c = '"' then stay (.string [] none) else .bad
  | .colon => if isSpace c then .more r else if c = ':' then stay .value else .bad
  | .after => separator r.stack c
  | .string acc high =>
    if c = '"' then endString r.stack (Text.ofChars (settle acc high).reverse)
    else if c = '\\' then stay (.escape acc high)
    else if c.toNat < 0x20 then .bad
    else stay (.string (c :: settle acc high) none)
  | .escape acc high =>
    if c = 'u' then stay (.unicode acc high 4 0)
    else match shortEscape? c with
      | some d => stay (.string (d :: settle acc high) none)
      | none => .bad
  | .unicode acc high left code =>
    match Text.hexDigit? c with
    | none => .bad
    | some d =>
      if left ≤ 1 then
        let (acc, high) := addCode acc high (code * 16 + d)
        stay (.string acc high)
      else stay (.unicode acc high (left - 1) (code * 16 + d))
  | .number acc part =>
    match part.next? c with
    | some part => stay (.number (c :: acc) part)
    | none =>
      if part.isComplete then endNumber r.stack (.number (Text.ofChars acc.reverse)) c else .bad
  | .word rest v =>
    match rest with
    | [] => .bad
    | [d] => if c = d then complete r.stack v else .bad
    | d :: rest => if c = d then stay (.word rest v) else .bad

/-- The value when the text ends here: only a number outside every container can end that way. -/
def atEnd? (r : Reader) : Option Json :=
  match r.mode, r.stack with
  | .number acc part, [] => if part.isComplete then some (.number (Text.ofChars acc.reverse)) else none
  | _, _ => none

/-- Reads up to the end of the first value. -/
def run (r : Reader) : List Char → Option (Json × List Char)
  | [] => r.atEnd?.map (·, [])
  | c :: rest =>
    match r.step c with
    | .more r => run r rest
    | .done v => some (v, rest)
    | .ended v => some (v, c :: rest)
    | .bad => none

end Reader

/-- The first value of a text and what follows it. -/
def readFirst? (cs : List Char) : Option (Json × List Char) := Reader.run {} cs

/-- The value a whole text holds. -/
def parse? (cs : List Char) : Option Json :=
  match readFirst? cs with
  | some (v, rest) => if rest.all isSpace then some v else none
  | none => none

end CilCompiler.Json
