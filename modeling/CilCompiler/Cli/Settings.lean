import CilCompiler.Build
import CilCompiler.Build.Execution
import CilCompiler.Cli.Flag
import CilCompiler.Manifest
import CilCompiler.Trace.Tracer

/-!
Settings of a command: what the manifest says, with flags and arguments of the command line in its place
where they are given.
-/

namespace CilCompiler

structure Settings where
  name : Text
  backend : Backend
  runtime : Text
  outDir : Text
  jobs : Int
  inputs : List Text
  /-- The directory that paths are shown from. -/
  baseDir : Text
deriving DecidableEq, Inhabited

namespace Settings

/-- What counts without flags and arguments. -/
def ofProject (fs : Files) (p : Option Project) : Settings :=
  let m := (p.map Project.manifest).getD {}
  { name := m.module.name
    backend := (Backend.ofName? m.module.backend).getD .textual
    runtime := m.module.runtime
    outDir := match p with
      | some p => p.outDir
      | none => m.build.outDir
    jobs := m.build.jobs
    inputs := (p.map Project.inputs).getD []
    baseDir := match p with
      | some p => p.root
      | none => fs.currentPath }

/-- The settings of a command line. Arguments take the place of the manifest's inputs, and the manifest's
    name is for a single input. -/
def resolve (fs : Files) (a : Arguments) : Except Fault Settings := do
  let p ← Project.load fs Path.here
  let s := ofProject fs p
  let inputs := if a.positional.isEmpty then s.inputs else a.positional
  if inputs.isEmpty then throw (.plain (Text.join ["no input given and no ", Manifest.fileName, " found"]))
  let name := if p.isSome ∧ inputs.length = 1 then s.name else .empty
  let jobs := (a.integer? "jobs").getD s.jobs
  if jobs < 0 then throw (.plain ("--jobs must not be negative, got " ++ Text.ofInt jobs))
  return { s with inputs, jobs, name := a.text "name" name, runtime := a.text "runtime" s.runtime
                  outDir := a.text "out-dir" s.outDir }

/-- The only input of a command that takes one. -/
def onlyInput (s : Settings) (command : Text) : Except Fault Text :=
  match s.inputs with
  | [input] => .ok input
  | inputs =>
    .error (.plain (Text.join [command, " takes one input, the manifest lists ", Text.ofNat inputs.length]))

def buildRequest (s : Settings) (level : Trace.Level) : BuildRequest :=
  { inputs := s.inputs, outDir := s.outDir, name := s.name, runtime := s.runtime, baseDir := s.baseDir, level }

end Settings

/-! ### Traces -/

/-- What is traced by a command, and where it goes. -/
structure Tracing where
  setup : Option Trace.Setup := none
deriving Inhabited

namespace Tracing

/-- The table of the manifest with flags in its place. A flag for the output alone asks for phases. -/
def table (p : Option Project) (a : Arguments) : TraceTable :=
  let t : TraceTable := (p.map fun p => p.manifest.trace).getD {}
  let level := a.text "trace-level" t.level
  { level := if a.has "trace" ∧ !a.has "trace-level" ∧ level = "off" then "phase" else level
    output := a.text "trace" t.output
    mode := a.text "trace-mode" t.mode
    format := a.text "trace-format" t.format }

/-- The setup of a table, if anything is to be traced. -/
def setupOf (t : TraceTable) (ringSize : Int) : Except Fault (Option Trace.Setup) := do
  let level ← (Trace.Level.parse t.level).mapError (Fault.within "invalid trace level")
  if level = .off then return none
  let mode ← (Trace.Mode.parse t.mode).mapError (Fault.within "invalid trace mode")
  let format ← Trace.Format.parse t.format
  return some { level, mode, format, path := t.output, ringSize }

/-- The file the events are written to, if it is one. -/
def file? (t : Tracing) : Option Text :=
  match t.setup with
  | some s => if s.mode = .ring ∨ s.path.isEmpty ∨ s.path = "-" then none else some s.path
  | none => none

/-- Sets up the trace of a command line, which makes its file. -/
def start (fs : Files) (a : Arguments) : Except Fault (Tracing × Files) := do
  let p ← Project.load fs Path.here
  let setup ← setupOf (table p a) ((a.integer? "trace-ring-size").getD 0)
  let t : Tracing := { setup }
  match t.file? with
  | none => return (t, fs)
  | some path =>
    match fs.write path [] with
    | .ok fs => return (t, fs)
    | .error e =>
      throw (.within "failed to create tracer" (.within "open trace output" (.plain (Text.join
        ["open ", path, ": ", e.message]))))

def level (t : Tracing) : Trace.Level :=
  match t.setup with
  | some s => s.level
  | none => .off

/-- The tracer behind journals. -/
def tracer (t : Tracing) (now : Int) (journals : List Journal) : Trace.Tracer :=
  match t.setup with
  | some s => journals.foldl Trace.Tracer.replay { Trace.Tracer.ofSetup s with now }
  | none => .none

/-- What a tracer that keeps events in memory only shows after a failure. -/
def dump (t : Tracing) (tracer : Trace.Tracer) : Text :=
  match t.setup, tracer.kept with
  | some s, some es => if s.mode = .ring then Text.join (es.map s.format.line) else .empty
  | _, _ => .empty

end Tracing
end CilCompiler
