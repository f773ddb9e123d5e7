import CilCompiler.Cli.FlagValue
import CilCompiler.Fault

/-!
Flags on a command line. Words that start with a dash are flags, other words are arguments, and the two may
be mixed up to the word of two dashes, behind which all are arguments. The value of a flag stands behind
an equals sign or is the next word; a switch needs none. Short names of switches may share a dash.
-/

namespace CilCompiler

structure Flag where
  name : Text
  kind : FlagKind
  /-- The byte of the short name. -/
  short : Option UInt8 := none
deriving DecidableEq, Inhabited

namespace Flag

/-- The name in messages. -/
def shown (f : Flag) : Text :=
  match f.short with
  | some b => Text.join ["-", ⟨[b]⟩, ", --", f.name]
  | none => "--" ++ f.name

def isSwitch (f : Flag) : Bool := f.kind = .switch

end Flag

def findFlag? (flags : List Flag) (name : Text) : Option Flag := flags.find? fun f => f.name = name

def findShort? (flags : List Flag) (b : UInt8) : Option Flag := flags.find? fun f => f.short = some b

/-- What a command line says: the values of flags, last first, and the arguments. -/
structure Arguments where
  values : List (Text × FlagValue) := []
  positional : List Text := []
deriving DecidableEq, Inhabited

namespace Arguments

/-- Whether a flag was given. -/
def has (a : Arguments) (name : Text) : Bool := (a.values.lookup name).isSome

/-- The text a flag was given, if it was. -/
def text? (a : Arguments) (name : Text) : Option Text :=
  match a.values.lookup name with
  | some (.text t) => some t
  | _ => none

/-- The text of a flag, or what counts without it. -/
def text (a : Arguments) (name default : Text) : Text := (a.text? name).getD default

/-- Whether a switch is on. -/
def isOn (a : Arguments) (name : Text) : Bool := a.values.lookup name = some (.switch true)

/-- The number a flag was given, if it was. -/
def integer? (a : Arguments) (name : Text) : Option Int :=
  match a.values.lookup name with
  | some (.integer i) => some i
  | _ => none

/-- Takes a value for a flag. -/
def set (a : Arguments) (f : Flag) (value : Text) : Except Fault Arguments :=
  match FlagValue.read f.kind value with
  | .ok v => .ok { a with values := (f.name, v) :: a.values }
  | .error why =>
    .error (.plain (Text.join ["invalid argument ", value.quoted, " for ", f.shown.quoted, " flag: ", why]))

/-! ### Words -/

/-- Takes a flag with a long name and answers the words behind it. -/
def takeLong (flags : List Flag) (a : Arguments) (word : Text) (rest : List Text) : Except Fault (Arguments × List Text) :=
  let body : Text := ⟨word.bytes.drop 2⟩
  if body.startsWith "-" || body.startsWith "=" then .error (.plain ("bad flag syntax: " ++ word))
  else
    let (name, given) := match body.breakOn? "=" with
      | some (name, value) => (name, some value)
      | none => (body, none)
    match findFlag? flags name with
    | none => .error (.plain ("unknown flag: --" ++ name))
    | some f =>
      match given, rest with
      | some value, _ => do return (← a.set f value, rest)
      | none, _ =>
        if f.isSwitch then do return (← a.set f "true", rest)
        else match rest with
          | value :: rest => do return (← a.set f value, rest)
          | [] => .error (.plain ("flag needs an argument: --" ++ name))

/-- A byte as a character between single quotes. -/
def quotedByte (b : UInt8) : Text :=
  let c := Char.ofNat b.toNat
  let shown : Text :=
    if b = 39 then "\\'" else if b = 34 then "\"" else Text.quoteRune (.scalar c)
  Text.join ["'", shown, "'"]

/-- Takes the flags of short names that share a dash. -/
def takeShort (flags : List Flag) (a : Arguments) (rest : List Text) : List UInt8 → Except Fault (Arguments × List Text)
  | [] => .ok (a, rest)
  | b :: more =>
    match findShort? flags b with
    | none => .error (.plain (Text.join ["unknown shorthand flag: ", quotedByte b, " in -", ⟨b :: more⟩]))
    | some f =>
      match more with
      | 61 :: c :: value => do return (← a.set f ⟨c :: value⟩, rest)
      | _ =>
        if f.isSwitch then
          match a.set f "true" with
          | .ok a => takeShort flags a rest more
          | .error e => .error e
        else match more, rest with
          | c :: value, _ => do return (← a.set f ⟨c :: value⟩, rest)
          | [], value :: rest => do return (← a.set f value, rest)
          | [], [] => .error (.plain (Text.join ["flag needs an argument: ", quotedByte b, " in -", ⟨b :: more⟩]))

/-- Whether a word is an argument. -/
def isArgument (word : Text) : Bool := !word.startsWith "-" || word = "-"

/-- Reads words; `fuel` bounds their number. -/
def readFrom (flags : List Flag) (a : Arguments) : (fuel : Nat) → List Text → Except Fault Arguments
  | _, [] => .ok a
  | 0, _ => .ok a
  | fuel + 1, word :: rest =>
    if isArgument word then readFrom flags { a with positional := a.positional ++ [word] } fuel rest
    else if word = "--" then .ok { a with positional := a.positional ++ rest }
    else do
      let (a, rest) ← if word.startsWith "--" then takeLong flags a word rest
          else takeShort flags a rest (word.bytes.drop 1)
      readFrom flags a fuel rest

/-- Reads the words of a command line. -/
def read (flags : List Flag) (words : List Text) : Except Fault Arguments := readFrom flags {} words.length words

end Arguments
end CilCompiler
