import CilCompiler.Cli.Command
import CilCompiler.Cli.Settings
import CilCompiler.Cli.FlagValue
import CilCompiler.Timer

/-!
The command line. A command works on files that are given, and what comes of it is an exit code, texts and
files. Running a program may go on without end, so a command line stops short of that: it answers how
to go on once the program has ended.
-/

namespace CilCompiler

/-- What a command line works on. -/
structure Environment where
  files : Files
  /-- Whether colours are in use when it is not said. -/
  hasColors : Bool := false
  version : Version := {}
  /-- The time, in nanoseconds. -/
  now : Int := 0

/-- What comes of a command line. -/
structure CliOutcome where
  exit : Int
  stdout : Text := .empty
  stderr : Text := .empty
  /-- What was traced to the error output. -/
  traced : Text := .empty
  files : Files

/-- A command line that has been carried out, or as far as the run of a program. -/
inductive CliStep where
  | finished (o : CliOutcome)
  /-- The program to be run; `conclude` takes its result and what it has printed. -/
  | running (x : Execution) (conclude : Except Fault Value → Text → CliOutcome)

/-- What comes of a command before its trace is closed. -/
structure CommandReport where
  /-- The exit code. -/
  result : Except Fault Int
  stdout : Text := .empty
  stderr : Text := .empty
  journals : List Journal := []
  files : Files

namespace Cli

/-- A fault as it is shown: each of its lines behind a mark. -/
def errorLines (isColored : Bool) (f : Fault) : Text :=
  Text.join (f.message.trim.lines.map fun line => Text.join [Style.red.paint isColored "error:", " ", line, "\n"])

/-- What comes of a command line that fails before its command does anything. -/
def refused (env : Environment) (isColored : Bool) (f : Fault) : CliOutcome :=
  { exit := 1, stderr := errorLines isColored f, files := env.files }

/-- The exit code of a program that crashes. -/
def crashCode : Int := 2

/-- Closes the trace of a command. A command that crashes closes nothing: there is what has been written so far, and
    the complaint of the system is not told here. -/
def close (env : Environment) (isColored : Bool) (t : Tracing) (r : CommandReport) : CliOutcome :=
  let tracer := t.tracer env.now r.journals
  let files := match t.file? with
    | some path => (r.files.write path tracer.output.bytes).toOption.getD r.files
    | none => r.files
  let traced := if t.file?.isSome then .empty else tracer.output
  match r.result with
  | .ok exit => { exit, stdout := r.stdout, stderr := r.stderr, traced, files }
  | .error .crash => { exit := crashCode, stdout := r.stdout, stderr := r.stderr, traced, files }
  | .error f =>
    { exit := 1, stdout := r.stdout, stderr := Text.join [r.stderr, t.dump tracer, errorLines isColored f], traced, files }

/-! ### Commands -/

/-- The times of a unit that has been built. -/
def unitTimings (u : BuildUnit) : Text :=
  let part (s : Stage) : Text := Text.join [s.name, " ", Duration.millis (u.timings.duration s).toInt.toNat 1, " ms"]
  let stages := [Stage.load, .compile, .emit].filter u.timings.has
  let first : Text := if stages.isEmpty then .empty else Text.join ["  ", Text.sepBy ", " (stages.map part), "\n"]
  let table := u.journal.timer.summary.dropEnd "\n"
  first ++ Text.join (table.lines.map fun line => Text.join ["  ", line, "\n"])

def build (level : Trace.Level) (files : Files) (a : Arguments) : CommandReport :=
  let settings : Except Fault Settings := do
    let _ ← Toggle.parse "ui" (a.text "ui" "auto")
    Settings.resolve files a
  match settings with
  | .error f => { result := .error f, files }
  | .ok s =>
    match (s.buildRequest level).run files with
    | .crashed b => { result := .error .crash, journals := b.units.map BuildUnit.journal, files := b.files }
    | .answered o =>
      let lines := (o.units.filter fun u => u.failure.isNone).map fun u =>
        Text.join ["built ", Path.shownFrom s.baseDir u.output, "\n",
          if a.isOn "timings" then unitTimings u else .empty]
      { result := match o.fault with
          | some f => .error f
          | none => .ok 0
        stdout := Text.join lines
        journals := o.units.map BuildUnit.journal
        files := o.files }

/-- Compiles an input for a listing and answers its lines. -/
def dumpListing (level : Trace.Level) (files : Files) (s : Settings) (input : Text) : Except Fault (List Text) × Journal :=
  let journal : Journal := { level }
  match loadProgram files input with
  | .error f => (.error f, journal)
  | .ok p =>
    let name := if s.name.isEmpty then Path.stem input else s.name
    let (result, journal) := compile p .textual name s.runtime false journal
    ((result.map Compilation.lines).mapError (Fault.inside input), journal)

/-- The backend of a dump. -/
def dumpBackend (s : Settings) (a : Arguments) : Except Fault Backend :=
  match a.text? "backend" with
  | none => .ok s.backend
  | some value =>
    match Backend.ofName? value.toLower with
    | some b => .ok b
    | none => .error (Backend.unsupported value)

def dump (level : Trace.Level) (files : Files) (a : Arguments) : CommandReport :=
  let choice : Except Fault (Settings × Text × Backend) := do
    let s ← Settings.resolve files a
    let input ← s.onlyInput "dump"
    return (s, input, ← dumpBackend s a)
  match choice with
  | .error f => { result := .error f, files }
  | .ok (s, input, backend) =>
    let (lines, journal) := match backend with
      | .textual => dumpListing level files s input
      | .dynamic =>
        let (prepared, _, journal) := ({ input, name := s.name, level } : ExecutionRequest).prepare files
        (prepared.map Execution.lines, journal)
    match lines with
    | .ok ls => { result := .ok 0, stdout := Text.join (ls.map fun l => l ++ "\n"), journals := [journal], files }
    | .error f => { result := .error f, journals := [journal], files }

/-- Shows the version. -/
def version (env : Environment) (files : Files) (isColored : Bool) (a : Arguments) : CommandReport :=
  let format := a.text "format" "pretty"
  let isFull := a.isOn "full"
  if format.toLower = "pretty" then { result := .ok 0, stdout := env.version.pretty isColored isFull, files }
  else if format.toLower = "json" then { result := .ok 0, stdout := env.version.json isFull, files }
  else
    { result := .error (.plain (Text.join ["unsupported format ", format.quoted, " (must be pretty or json)"])), files }

/-- Runs a program as far as its first instruction; `close` closes the trace. -/
def run (level : Trace.Level) (files : Files) (a : Arguments) (close : CommandReport → CliOutcome) : CliStep :=
  let choice : Except Fault (Settings × Text) := do
    let s ← Settings.resolve files a
    return (s, ← s.onlyInput "run")
  match choice with
  | .error f => .finished (close { result := .error f, files })
  | .ok (s, input) =>
    let (prepared, _, journal) := ({ input, name := s.name, level } : ExecutionRequest).prepare files
    let stderr := if a.isOn "timings" then journal.timer.summary else .empty
    let journals := [journal]
    match prepared with
    | .error f => .finished (close { result := .error f, stderr, journals, files })
    | .ok x => .running x fun result stdout => close { result := (x.conclude result).1, stdout, stderr, journals, files }

/-- What the tool can do. -/
def usage : Text :=
  Text.join [Version.tool, " lowers syntax trees into CIL, either as an ILAsm listing or as live types it can execute.\n\n",
    "Usage:\n  ", Version.tool, " [command]\n\nAvailable Commands:\n",
    "  build       Write an ILAsm listing for each input\n",
    "  dump        Print the generated code of an input\n",
    "  run         Compile an input with the dynamic backend and execute Main\n",
    "  version     Show the ", Version.tool, " version\n"]

/-- Carries out a command. -/
def perform (env : Environment) (isColored : Bool) (c : Command) (a : Arguments) (t : Tracing) (files : Files) : CliStep :=
  let close := close env isColored t
  match c with
  | .build => .finished (close (build t.level files a))
  | .run => run t.level files a close
  | .dump => .finished (close (dump t.level files a))
  | .version => .finished (close (version env files isColored a))
  | .root | .completion | .help => .finished (close { result := .ok 0, stdout := usage, files })

/-- Carries out a command line whose words have been read: first come the questions for help and for the
    version, then the arguments, the colours and the trace are looked at. -/
def carryOut (env : Environment) (c : Command) (a : Arguments) : CliStep :=
  if a.isOn "help" then .finished { exit := 0, stdout := usage, files := env.files }
  else if c = .root ∧ a.isOn "version" then
    .finished { exit := 0, stdout := Text.join [Version.tool, " version ", env.version.current, "\n"], files := env.files }
  else if [Command.root, .completion, .help].contains c then .finished { exit := 0, stdout := usage, files := env.files }
  else
    let mode := do
      c.checkArguments a.positional
      Toggle.parse "color" (a.text "color" "auto")
    match mode with
    | .error f => .finished (refused env env.hasColors f)
    | .ok mode =>
      let isColored := match mode with
        | .on => true
        | .off => false
        | .auto => env.hasColors
      match Tracing.start env.files a with
      | .error f => .finished (refused env isColored f)
      | .ok (t, files) => perform env isColored c a t files

/-- Reads the words of a command line. -/
def parse (words : List Text) : Except Fault (Command × Arguments) := do
  let (c, rest) ← Command.find words
  return (c, ← Arguments.read c.allFlags rest)

/-- Carries out a command line. -/
def start (env : Environment) (words : List Text) : CliStep :=
  match parse words with
  | .error f => .finished (refused env env.hasColors f)
  | .ok (c, a) => carryOut env c a

end Cli
end CilCompiler
