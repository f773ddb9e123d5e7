import CilCompiler.Cli.Flag
import CilCompiler.Text.Case
import CilCompiler.Version

/-!
The commands of the tool, their flags, and which of them a command line names. The command is the first word
that is neither a flag nor the value of one.
-/

namespace CilCompiler

inductive Command where
  /-- The tool without a command. -/
  | root
  | build
  | run
  | dump
  | version
  | completion
  | help
deriving DecidableEq, Inhabited

namespace Command

def name : Command → Text
  | .root => Version.tool
  | .build => "build"
  | .run => "run"
  | .dump => "dump"
  | .version => "version"
  | .completion => "completion"
  | .help => "help"

/-- The commands below the tool. -/
def all : List Command := [.build, .run, .dump, .version, .completion, .help]

/-- The command with the tool in front. -/
def path (c : Command) : Text := if c = .root then c.name else Text.join [Version.tool, " ", c.name]

/-- The flags of every command. -/
def commonFlags : List Flag :=
  [⟨"color", .text, none⟩, ⟨"timings", .switch, none⟩, ⟨"trace", .text, none⟩, ⟨"trace-level", .text, none⟩,
    ⟨"trace-mode", .text, none⟩, ⟨"trace-format", .text, none⟩, ⟨"trace-ring-size", .integer, none⟩,
    ⟨"trace-heartbeat", .duration, none⟩, ⟨"cpu-profile", .text, none⟩, ⟨"mem-profile", .text, none⟩,
    ⟨"runtime-trace", .text, none⟩]

/-- The flags of a command of its own. -/
def ownFlags : Command → List Flag
  | .build =>
    [⟨"name", .text, none⟩, ⟨"runtime", .text, none⟩, ⟨"out-dir", .text, some 111⟩, ⟨"jobs", .integer, some 106⟩,
      ⟨"ui", .text, none⟩]
  | .run => [⟨"name", .text, none⟩]
  | .dump => [⟨"backend", .text, none⟩, ⟨"name", .text, none⟩, ⟨"runtime", .text, none⟩]
  | .version => [⟨"format", .text, none⟩, ⟨"full", .switch, none⟩]
  | .root | .completion | .help => []

/-- The flags by which a command line is divided. -/
def flags (c : Command) : List Flag := c.ownFlags ++ commonFlags

/-- The flags a command takes: those and the ones that ask for help or, without a command, for the
    version. -/
def allFlags (c : Command) : List Flag :=
  c.flags ++ [⟨"help", .switch, some 104⟩] ++ (if c = .root then [⟨"version", .switch, some 118⟩] else [])

/-! ### Finding the command -/

/-- Whether the word behind a flag is its value. A flag that is not known is taken to need one. -/
def takesNext (flags : List Flag) (word : Text) : Bool :=
  let isLong := word.startsWith "--" && !(findFlag? flags ⟨word.bytes.drop 2⟩).any Flag.isSwitch
  let isShort := match word.bytes with
    | [45, b] => !(findShort? flags b).any Flag.isSwitch
    | _ => false
  !word.contains "=" && (isLong || isShort)

/-- The words that are neither flags nor values of flags. -/
def bareWords (flags : List Flag) : List Text → List Text
  | [] => []
  | word :: rest =>
    if word = "--" then []
    else if takesNext flags word then
      match rest with
      | _ :: next :: more => bareWords flags (next :: more)
      | _ => []
    else if word.isEmpty || word.startsWith "-" then bareWords flags rest
    else word :: bareWords flags rest

/-- The words without the first bare one that is `x`. -/
def dropBare (flags : List Flag) (x : Text) : List Text → List Text
  | [] => []
  | word :: rest =>
    if word = "--" then word :: rest
    else if takesNext flags word then
      match rest with
      | value :: more => word :: value :: dropBare flags x more
      | [] => [word]
    else if word = x then rest
    else word :: dropBare flags x rest

/-! ### Suggestions -/

/-- The next row of the table of distances, for a further byte of one text. -/
def distanceRow (b : UInt8) : (left above : Nat) → List UInt8 → List Nat → List Nat
  | left, above, c :: cs, next :: row =>
    let d := if b = c then above else min (min next left) above + 1
    d :: distanceRow b d next cs row
  | _, _, _, _ => []

/-- How many bytes must be put in, left out or changed to make one text of the other. -/
def distance (a b : List UInt8) : Nat :=
  let rec go (n : Nat) (row : List Nat) : List UInt8 → List Nat
    | [] => row
    | c :: cs => go (n + 1) ((n + 1) :: distanceRow c (n + 1) (row.headD 0) b (row.drop 1)) cs
  (go 0 (List.range (b.length + 1)) a).getLastD 0

/-- The commands that may have been meant by a word. -/
def suggestions (word : Text) : List Command :=
  (all.filter fun c => c ≠ .help).filter fun c =>
    distance word.toLower.bytes c.name.bytes ≤ 2 || c.name.startsWith word.toLower

/-- The fault of a word that is no command. -/
def unknown (word : Text) : Fault :=
  let names := (suggestions word).map fun c => Text.join ["\t", c.name, "\n"]
  .plain (Text.join ["unknown command ", word.quoted, " for ", Version.tool.quoted,
    if names.isEmpty then .empty else "\n\nDid you mean this?\n" ++ Text.join names])

/-- The command of a command line and the words without it. -/
def find (words : List Text) : Except Fault (Command × List Text) :=
  match bareWords commonFlags words with
  | [] => .ok (.root, words)
  | word :: _ =>
    match all.find? fun c => c.name = word with
    | some c => .ok (c, dropBare commonFlags word words)
    | none => .error (unknown word)

/-- Refuses arguments that a command does not take. -/
def checkArguments (c : Command) (args : List Text) : Except Fault Unit :=
  match c, args with
  | .version, word :: _ => .error (.plain (Text.join ["unknown command ", word.quoted, " for ", c.path.quoted]))
  | .run, _ :: _ :: _ | .dump, _ :: _ :: _ =>
    .error (.plain (Text.join ["accepts at most 1 arg(s), received ", Text.ofNat args.length]))
  | _, _ => .ok ()

end Command
end CilCompiler
