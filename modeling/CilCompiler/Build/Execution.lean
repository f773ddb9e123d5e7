import CilCompiler.Build.Input
import CilCompiler.Build.Stage
import CilCompiler.Compiler
import CilCompiler.Machine.Step

/-!
Executions: an input is loaded and compiled for the machine, and then run from its entry point or
disassembled.
-/

namespace CilCompiler

structure ExecutionRequest where
  input : Text
  /-- The name of the module; none is that of the input. -/
  name : Text := .empty
  isCanceled : Bool := false
  /-- How much of the compilation is traced. -/
  level : Trace.Level := .off
deriving DecidableEq, Inhabited

/-- A compiled input. -/
structure Execution where
  request : ExecutionRequest
  compilation : Compilation

namespace ExecutionRequest

/-- A report on the input. -/
def report (r : ExecutionRequest) (stage : Stage) (status : Status) (f : Option Fault) : BuildEvent :=
  { file := r.input, stage, status, failure := f.map Fault.message }

def moduleName (r : ExecutionRequest) : Text := if r.name.isEmpty then Path.stem r.input else r.name

/-- Loads and compiles the input, with the reports on it and the journal of the compilation. -/
def prepare (r : ExecutionRequest) (fs : Files) : Except Fault Execution × List BuildEvent × Journal :=
  let journal : Journal := { level := r.level }
  if r.input.isEmpty then (.error (.plain "no input to run"), [], journal)
  else
    let loading := r.report .load .working none
    match loadProgram fs r.input with
    | .error f => (.error f, [loading, r.report .load .error (some f)], journal)
    | .ok p =>
      let compiling := r.report .compile .working none
      match compile p .dynamic r.moduleName .empty r.isCanceled journal with
      | (.ok c, journal) => (.ok { request := r, compilation := c }, [loading, compiling], journal)
      | (.error .crash, journal) => (.error .crash, [loading, compiling], journal)
      | (.error f, journal) =>
        (.error (.within r.input f), [loading, compiling, r.report .compile .error (some f)], journal)

end ExecutionRequest

namespace Execution

/-- The code of every body. -/
def lines (x : Execution) : List Text := x.compilation.lines

def machine (x : Execution) : Machine :=
  { modules := #[x.compilation.module], module := 0, maxDepth := Machine.defaultMaxDepth,
    isCanceled := x.request.isCanceled }

/-- The beginning of a run that reads what is given as input. -/
def start (x : Execution) (input : List UInt8) : Progress := x.machine.start (.initial 1 input)

/-- The report at the beginning of a run. -/
def running (x : Execution) : BuildEvent := x.request.report .run .working none

/-- What came of a run with a result: the exit code, and the report at its end. -/
def conclude (x : Execution) : Except Fault Value → Except Fault Int × BuildEvent
  | .ok v => (.ok (Machine.exitCode v), x.request.report .run .done none)
  | .error f => (.error (.within x.request.input f), x.request.report .run .error (some f))

end Execution
end CilCompiler
