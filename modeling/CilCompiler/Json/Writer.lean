import CilCompiler.Json

/-!
Writing JSON, on one line or indented by two blanks a level. Besides quotes, backslashes and control
characters, `<`, `>`, `&`, U+2028 and U+2029 are escaped, so the text can stand inside a page; a stray
byte is written as U+FFFD. Every writer takes the bytes that follow.
-/

namespace CilCompiler.Json

/-- A rune inside a JSON string. -/
def escapeRune : Rune → Text
  | .stray _ => Text.ofChar '\ufffd'
  | .scalar c =>
    let n := c.toNat
    if c = '"' then "\\\"" else if c = '\\' then "\\\\"
    else if n = 8 then "\\b" else if n = 12 then "\\f" else if n = 10 then "\\n"
    else if n = 13 then "\\r" else if n = 9 then "\\t"
    else if n < 0x20 ∨ c = '<' ∨ c = '>' ∨ c = '&' ∨ n = 0x2028 ∨ n = 0x2029 then "\\u" ++ Text.hex 4 n
    else Text.ofChar c

def writeString (t : Text) (tail : List UInt8) : List UInt8 :=
  34 :: t.runes.foldr (fun r tail => (escapeRune r).bytes ++ tail) (34 :: tail)

/-- The words for `null`, `true` and `false`. -/
def writeWord (s : String) (tail : List UInt8) : List UInt8 := (Text.ofString s).bytes ++ tail

mutual

/-- A value on one line. -/
def write : Json → List UInt8 → List UInt8
  | .null, tail => writeWord "null" tail
  | .bool b, tail => writeWord (if b then "true" else "false") tail
  | .number n, tail => n.bytes ++ tail
  | .string s, tail => writeString s tail
  | .array [], tail => 91 :: 93 :: tail
  | .array (v :: vs), tail => 91 :: write v (writeItems vs (93 :: tail))
  | .object [], tail => 123 :: 125 :: tail
  | .object ((k, v) :: ms), tail => 123 :: writeString k (58 :: write v (writeMembers ms (125 :: tail)))

def writeItems : List Json → List UInt8 → List UInt8
  | [], tail => tail
  | v :: vs, tail => 44 :: write v (writeItems vs tail)

def writeMembers : List (Text × Json) → List UInt8 → List UInt8
  | [], tail => tail
  | (k, v) :: ms, tail => 44 :: writeString k (58 :: write v (writeMembers ms tail))

end

/-- A line feed and the blanks of an indentation level. -/
def newline (level : Nat) (tail : List UInt8) : List UInt8 := 10 :: (List.replicate (2 * level) 32 ++ tail)

mutual

/-- A value over several lines, where `level` is the indentation of the line it starts on. -/
def writeIndented (level : Nat) : Json → List UInt8 → List UInt8
  | .null, tail => writeWord "null" tail
  | .bool b, tail => writeWord (if b then "true" else "false") tail
  | .number n, tail => n.bytes ++ tail
  | .string s, tail => writeString s tail
  | .array [], tail => 91 :: 93 :: tail
  | .array (v :: vs), tail =>
    91 :: newline (level + 1) (writeIndented (level + 1) v (writeIndentedItems level vs (newline level (93 :: tail))))
  | .object [], tail => 123 :: 125 :: tail
  | .object ((k, v) :: ms), tail =>
    123 :: newline (level + 1) (writeString k (58 :: 32 :: writeIndented (level + 1) v
      (writeIndentedMembers level ms (newline level (125 :: tail)))))

def writeIndentedItems (level : Nat) : List Json → List UInt8 → List UInt8
  | [], tail => tail
  | v :: vs, tail => 44 :: newline (level + 1) (writeIndented (level + 1) v (writeIndentedItems level vs tail))

def writeIndentedMembers (level : Nat) : List (Text × Json) → List UInt8 → List UInt8
  | [], tail => tail
  | (k, v) :: ms, tail =>
    44 :: newline (level + 1) (writeString k (58 :: 32 :: writeIndented (level + 1) v (writeIndentedMembers level ms tail)))

end

/-- The value on one line. -/
def compact (v : Json) : Text := ⟨write v []⟩

/-- The value over several lines, with a final line feed. -/
def pretty (v : Json) : Text := ⟨writeIndented 0 v [10]⟩

end CilCompiler.Json
