/-!
Texts. Names, literals, listing lines and messages are sequences of bytes: usually the UTF-8 form of
characters, but a program read from a binary file may hold any bytes, and they are kept as they are.
A text is looked at in three ways: as bytes, as runes (`Text.runes`), and as the characters a reader
sees (`Text.chars`), where every stray byte shows as U+FFFD.
-/

namespace CilCompiler

/-- A sequence of bytes, usually UTF-8. -/
structure Text where
  bytes : List UInt8
deriving DecidableEq, Inhabited

/-- One step of reading a text: a character, or a byte that starts none. -/
inductive Rune where
  | scalar (c : Char)
  | stray (b : UInt8)
deriving DecidableEq, Inhabited

namespace Text

/-- The UTF-8 form of a string. -/
def ofString (s : String) : Text := ⟨s.toUTF8.data.toList⟩

instance : Coe String Text := ⟨ofString⟩

/-- The text without bytes. -/
def empty : Text := ⟨[]⟩

def isEmpty (t : Text) : Bool := t.bytes.isEmpty

/-- The number of bytes. -/
def size (t : Text) : Nat := t.bytes.length

def append (a b : Text) : Text := ⟨a.bytes ++ b.bytes⟩

instance : Append Text := ⟨append⟩

/-- The texts one after another. -/
def join (ts : List Text) : Text := ⟨ts.flatMap Text.bytes⟩

/-- The texts one after another with `sep` between neighbours. -/
def sepBy (sep : Text) (ts : List Text) : Text := join (ts.intersperse sep)

/-- `n` copies of a text. -/
def times (n : Nat) (t : Text) : Text := join (List.replicate n t)

/-! ### Characters and bytes -/

def ofChars (cs : List Char) : Text := ⟨cs.flatMap String.utf8EncodeChar⟩

def ofChar (c : Char) : Text := ⟨String.utf8EncodeChar c⟩

/-- Whether `b` is a byte of the second or a later place of a character. -/
def isTrail (b : UInt8) : Bool := 0x80 ≤ b && b ≤ 0xBF

/-- Whether two bytes are the UTF-8 form of a character. -/
def isPair (b₀ b₁ : UInt8) : Bool := 0xC2 ≤ b₀ && b₀ ≤ 0xDF && isTrail b₁

/-- Whether three bytes are the UTF-8 form of a character: overlong forms and surrogates are not. -/
def isTriple (b₀ b₁ b₂ : UInt8) : Bool :=
  0xE0 ≤ b₀ && b₀ ≤ 0xEF && isTrail b₁ && isTrail b₂ && (b₀ != 0xE0 || 0xA0 ≤ b₁) && (b₀ != 0xED || b₁ ≤ 0x9F)

/-- Whether four bytes are the UTF-8 form of a character: overlong forms and numbers above U+10FFFF
    are not. -/
def isQuad (b₀ b₁ b₂ b₃ : UInt8) : Bool :=
  0xF0 ≤ b₀ && b₀ ≤ 0xF4 && isTrail b₁ && isTrail b₂ && isTrail b₃ && (b₀ != 0xF0 || 0x90 ≤ b₁) && (b₀ != 0xF4 || b₁ ≤ 0x8F)

/-- The rune that starts with `b₀`, and how many bytes after `b₀` belong to it. -/
def headRune (b₀ : UInt8) (rest : List UInt8) : Rune × Nat :=
  if b₀ < 0x80 then (.scalar (Char.ofNat b₀.toNat), 0)
  else match rest with
    | b₁ :: r₁ =>
      if isPair b₀ b₁ then (.scalar (Char.ofNat (b₀.toNat % 32 * 64 + b₁.toNat % 64)), 1)
      else match r₁ with
        | b₂ :: r₂ =>
          if isTriple b₀ b₁ b₂ then
            (.scalar (Char.ofNat (b₀.toNat % 16 * 4096 + b₁.toNat % 64 * 64 + b₂.toNat % 64)), 2)
          else match r₂ with
            | b₃ :: _ =>
              if isQuad b₀ b₁ b₂ b₃ then
                (.scalar (Char.ofNat
                  (b₀.toNat % 8 * 262144 + b₁.toNat % 64 * 4096 + b₂.toNat % 64 * 64 + b₃.toNat % 64)), 3)
              else (.stray b₀, 0)
            | [] => (.stray b₀, 0)
        | [] => (.stray b₀, 0)
    | [] => (.stray b₀, 0)

/-- Reads bytes as UTF-8 after `skip` bytes that belong to the rune before them. A byte that starts no
    character stands alone. -/
def runesFrom : (skip : Nat) → List UInt8 → List Rune
  | _, [] => []
  | skip + 1, _ :: rest => runesFrom skip rest
  | 0, b :: rest => (headRune b rest).1 :: runesFrom (headRune b rest).2 rest

/-- The runes of a text, in order. -/
def runes (t : Text) : List Rune := runesFrom 0 t.bytes

/-- The bytes of runes. -/
def ofRunes (rs : List Rune) : Text :=
  ⟨rs.flatMap fun
    | .scalar c => String.utf8EncodeChar c
    | .stray b => [b]⟩

/-- What a reader sees of a rune. -/
def shown : Rune → Char
  | .scalar c => c
  | .stray _ => '\uFFFD'

/-- The characters a reader sees; a stray byte shows as U+FFFD. -/
def chars (t : Text) : List Char := t.runes.map shown

/-- The string a reader sees. -/
def toString (t : Text) : String := String.ofList t.chars

/-- Whether every byte belongs to a character. -/
def isValid (t : Text) : Bool := t.runes.all fun
  | .scalar _ => true
  | .stray _ => false

/-! ### Parts -/

def startsWith (t p : Text) : Bool := p.bytes.isPrefixOf t.bytes

def endsWith (t p : Text) : Bool := p.bytes.isSuffixOf t.bytes

/-- The text before `p`, when it ends in `p`. -/
def beforeEnd? (t p : Text) : Option Text :=
  if t.endsWith p then some ⟨t.bytes.take (t.size - p.size)⟩ else none

/-- The text after `p`, when it starts with `p`. -/
def afterStart? (t p : Text) : Option Text :=
  if t.startsWith p then some ⟨t.bytes.drop p.size⟩ else none

/-- The text without a final `p`. -/
def dropEnd (t p : Text) : Text := (t.beforeEnd? p).getD t

/-- Splits a text at every byte `sep`: one part more than there are such bytes. -/
def splitBytes (sep : UInt8) : List UInt8 → List (List UInt8)
  | [] => [[]]
  | b :: rest =>
    if b = sep then [] :: splitBytes sep rest
    else match splitBytes sep rest with
      | [] => [[b]]
      | part :: parts => (b :: part) :: parts

/-- The parts of a text between line feeds. -/
def lines (t : Text) : List Text := (splitBytes 10 t.bytes).map Text.mk

/-- The parts of a text between the bytes of an ASCII character. -/
def splitOn (t : Text) (sep : Char) : List Text := (splitBytes sep.toNat.toUInt8 t.bytes).map Text.mk

/-- What stands before and after the first occurrence of `p`. -/
def breakOnBytes (p : List UInt8) : List UInt8 → Option (List UInt8 × List UInt8)
  | [] => if p.isEmpty then some ([], []) else none
  | b :: rest =>
    if p.isPrefixOf (b :: rest) then some ([], (b :: rest).drop p.length)
    else (breakOnBytes p rest).map fun (before, after) => (b :: before, after)

def breakOn? (t p : Text) : Option (Text × Text) :=
  (breakOnBytes p.bytes t.bytes).map fun (before, after) => (⟨before⟩, ⟨after⟩)

/-- Whether `p` occurs in the text. -/
def contains (t p : Text) : Bool := (breakOnBytes p.bytes t.bytes).isSome

/-! ### Order -/

/-- The order of bytes, shorter first among texts that agree. -/
def leBytes : List UInt8 → List UInt8 → Bool
  | [], _ => true
  | _ :: _, [] => false
  | a :: as, b :: bs => a < b || (a == b && leBytes as bs)

def le (a b : Text) : Bool := leBytes a.bytes b.bytes

/-- Texts in byte order. -/
def sorted (ts : List Text) : List Text := ts.mergeSort le

/-! ### Numbers -/

def ofNat (n : Nat) : Text := ofChars (Nat.toDigits 10 n)

def ofInt (i : Int) : Text := if i < 0 then "-" ++ ofNat i.natAbs else ofNat i.natAbs

/-- A number in lower-case base sixteen, at least `width` digits. -/
def hex (width n : Nat) : Text :=
  let ds := Nat.toDigits 16 n
  ofChars (List.replicate (width - ds.length) '0' ++ ds)

/-- A number in base ten, at least `width` digits. -/
def padded (width n : Nat) : Text :=
  let ds := Nat.toDigits 10 n
  ofChars (List.replicate (width - ds.length) '0' ++ ds)

/-- Blanks before a text, up to `width` characters. -/
def padLeft (width : Nat) (t : Text) : Text := times (width - t.runes.length) " " ++ t

/-- Blanks after a text, up to `width` characters. -/
def padRight (width : Nat) (t : Text) : Text := t ++ times (width - t.runes.length) " "

/-! ### White space -/

/-- The characters with the white space property of Unicode. -/
def isBlank (c : Char) : Bool :=
  let n := c.toNat
  (9 ≤ n && n ≤ 13) || n == 0x20 || n == 0x85 || n == 0xA0 || n == 0x1680 || (0x2000 ≤ n && n ≤ 0x200A) ||
    n == 0x2028 || n == 0x2029 || n == 0x202F || n == 0x205F || n == 0x3000

def isBlankRune : Rune → Bool
  | .scalar c => isBlank c
  | .stray _ => false

/-- The text without white space at its ends. -/
def trim (t : Text) : Text :=
  ofRunes ((t.runes.dropWhile isBlankRune).reverse.dropWhile isBlankRune).reverse

/-! ### Letter case -/

/-- A letter without its case. The long s and the Kelvin sign count as `s` and `k`. -/
def foldLetter (c : Char) : Char :=
  if c = '\u017F' then 's' else if c = '\u212A' then 'k' else c.toLower

/-- The text without regard to the case of plain letters. -/
def folded (t : Text) : Text := ofChars (t.chars.map foldLetter)

end Text
end CilCompiler
