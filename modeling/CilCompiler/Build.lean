import CilCompiler.Build.Input
import CilCompiler.Build.Stage
import CilCompiler.Compiler

/-!
Builds: a listing for each of several inputs. An input with its output is a unit. A unit goes through the
stages load, compile and emit, and a stage that fails ends the work on its unit but not the others'.
A build lets its units do their stages in any order; the order in use is one unit after the other.
Units are independent, but share the cancellation of the build: a unit whose turn comes behind it does no stage.

A compilation that crashes takes the whole build with it: no unit does a stage behind it, and nobody is answered.
-/

namespace CilCompiler

/-! ### Units -/

/-- How far the work on a unit is. -/
inductive UnitWork where
  | waiting
  | loaded (p : Program)
  | compiled (listing : Text)
  | ended
  | crashed

structure BuildUnit where
  input : Text
  /-- The input as it is shown. -/
  display : Text
  output : Text
  /-- The name of the module that is built. -/
  module : Text
  /-- How many types were built. -/
  types : Nat := 0
  timings : Timings := {}
  journal : Journal := {}
  /-- The span of the work on the unit. -/
  span : Trace.Span := {}
  failure : Option Fault := none
  work : UnitWork := .waiting

namespace BuildUnit

/-- A report on a unit. -/
def report (u : BuildUnit) (stage : Stage) (status : Status) (f : Option Fault) : BuildEvent :=
  { file := u.display, stage, status, failure := f.map Fault.message }

def queued (u : BuildUnit) : BuildEvent := u.report .load .queued none

/-- Whether the work on a unit has taken the build with it. -/
def hasCrashed (u : BuildUnit) : Bool :=
  match u.work with
  | .crashed => true
  | _ => false

/-- Ends the work on a unit, and its span. -/
def close (u : BuildUnit) (work : UnitWork) : BuildUnit := { u with journal := u.journal.finish u.span u.module, work }

/-- Notes that a stage has been gone through; times are not measured here. -/
def through (u : BuildUnit) (stage : Stage) : BuildUnit := { u with timings := u.timings.set stage 0 }

/-- A stage that fails, with the reports on it. -/
def fail (u : BuildUnit) (stage : Stage) (f : Fault) : BuildUnit × List BuildEvent :=
  ({ u.close .ended with failure := some f }, [u.report stage .working none, u.report stage .error (some f)])

/-- A stage that succeeds, with the report on it. -/
def succeed (u : BuildUnit) (stage : Stage) (work : UnitWork) : BuildUnit × List BuildEvent :=
  ({ u with work }, [u.report stage .working none])

/-- Begins the span of the work on a unit. -/
def begin (u : BuildUnit) : BuildUnit :=
  let (s, journal) := u.journal.start .driver "build" u.journal.context.span
  { u with journal := { journal with context := journal.context.below s }, span := s.withExtra "input" u.display }

/-- Loads the program of a unit. -/
def load (u : BuildUnit) (fs : Files) : BuildUnit × List BuildEvent :=
  let u := u.begin.through .load
  match loadProgram fs u.input with
  | .ok p => u.succeed .load (.loaded p)
  | .error f => u.fail .load f

/-- Compiles the program of a unit. Where the compilation crashes, the span of the unit is ended on the way out. -/
def compile (u : BuildUnit) (runtime : Text) (isCanceled : Bool) (p : Program) : BuildUnit × List BuildEvent :=
  let (result, journal) := CilCompiler.compile p .textual u.module runtime isCanceled u.journal
  let u := { u with journal }
  match result with
  | .ok c => { u.through .compile with types := c.types.length }.succeed .compile (.compiled c.module.listing)
  | .error .crash => (u.close .crashed, [u.report .compile .working none])
  | .error f => (u.through .compile).fail .compile (.within u.display f)

/-- Writes the listing of a unit. -/
def emit (u : BuildUnit) (listing : Text) (fs : Files) : BuildUnit × List BuildEvent × Files :=
  let u := u.through .emit
  match fs.write u.output listing.bytes with
  | .ok fs => (u.close .ended, [u.report .emit .working none, u.report .emit .done none], fs)
  | .error e =>
    let f : Fault := .plain (Text.join ["failed to write ", u.output, ": open ", u.output, ": ", e.message])
    let (u, events) := u.fail .emit f
    (u, events, fs)

/-- A unit that is not begun because the build is canceled. -/
def cancel (u : BuildUnit) : BuildUnit := { u with failure := some .canceled, work := .ended }

/-- Does the next stage of a unit, with the reports on it. -/
def advance (u : BuildUnit) (runtime : Text) (isCanceled : Bool) (fs : Files) : BuildUnit × List BuildEvent × Files :=
  match u.work with
  | .waiting =>
    if isCanceled then (u.cancel, [], fs)
    else
      let (u, events) := u.load fs
      (u, events, fs)
  | .loaded p =>
    let (u, events) := u.compile runtime isCanceled p
    (u, events, fs)
  | .compiled listing => u.emit listing fs
  | .ended | .crashed => (u, [], fs)

/-- What a unit gives back to the build, which cancels the build: the cancellation it has met. A fault of its own
    stays with the unit. -/
def givesBack (u : BuildUnit) (isCanceled : Bool) : Option Fault :=
  if u.failure.isSome && isCanceled then some .canceled else none

/-- The phases of a unit's compilation with a remark on each. -/
def phases (u : BuildUnit) : List (Text × Text) := u.journal.phases

end BuildUnit

/-! ### Builds -/

/-- A build in progress. -/
structure Build where
  runtime : Text
  units : List BuildUnit
  files : Files
  events : List BuildEvent
  isCanceled : Bool := false
  /-- The first fault that a unit has given back. -/
  stopped : Option Fault := none

namespace Build

/-- The ending of a listing's name. -/
def listingEnding : Text := ".il"

/-- Whether the work on a unit has taken the build with it. -/
def hasCrashed (b : Build) : Bool := b.units.any BuildUnit.hasCrashed

/-- Lets the unit of a number do its next stage, unless the build has crashed. -/
def step (b : Build) (i : Nat) : Build :=
  if b.hasCrashed then b
  else
    match b.units[i]? with
    | none => b
    | some u =>
      let (u, events, files) := u.advance b.runtime b.isCanceled b.files
      let stopped := b.stopped.or (u.givesBack b.isCanceled)
      { b with units := b.units.set i u, events := b.events ++ events, files, stopped,
               isCanceled := b.isCanceled || stopped.isSome }

/-- Lets units do their stages in the order of a list of their numbers. -/
def follow (b : Build) (schedule : List Nat) : Build := schedule.foldl step b

/-- One unit after the other, each with all of its stages. -/
def oneByOne (count : Nat) : List Nat := (List.range count).flatMap (List.replicate 3)

/-- The fault of a build: what has stopped it, or else the faults of the units together, if there are any. -/
def fault? (b : Build) : Option Fault := b.stopped.or (Fault.joined? (b.units.filterMap BuildUnit.failure))

end Build

/-- What came of a build. -/
structure BuildOutcome where
  units : List BuildUnit
  events : List BuildEvent
  files : Files
  fault : Option Fault

/-- How a build comes to an end: it answers, or it crashes, and then there is only what it has done so far. -/
inductive BuildEnd where
  | answered (o : BuildOutcome)
  | crashed (b : Build)

/-- The end of a build that does no more stages. -/
def Build.conclude (b : Build) : BuildEnd :=
  if b.hasCrashed then .crashed b
  else .answered { units := b.units, events := b.events, files := b.files, fault := b.fault? }

/-! ### Requests -/

structure BuildRequest where
  inputs : List Text
  /-- Where the listings go; none is the working directory. -/
  outDir : Text := .empty
  /-- The name of the module, for one input only. -/
  name : Text := .empty
  runtime : Text := .empty
  /-- The directory that names of inputs are shown from. -/
  baseDir : Text := .empty
  isCanceled : Bool := false
  /-- How much of the work on the units is traced. -/
  level : Trace.Level := .off
deriving DecidableEq, Inhabited

namespace BuildRequest

/-- The directory of the listings. -/
def target (r : BuildRequest) : Text := if r.outDir.isEmpty then Path.here else r.outDir

/-- The unit of an input that is shown in a way. -/
def unitOf (r : BuildRequest) (input display : Text) : BuildUnit :=
  let module := if r.name.isEmpty then Path.stem input else r.name
  { input, display, module, output := Path.join r.target (module ++ Build.listingEnding), journal := { level := r.level } }

/-- Plans units behind those planned before. Planning ends at a unit that would write what another one
    writes. -/
def planFrom (planned : List BuildUnit) : List BuildUnit → List BuildUnit × Option Fault
  | [] => (planned, none)
  | u :: rest =>
    match planned.find? fun v => v.output = u.output with
    | some v => (planned, some (.plain (Text.join ["inputs ", v.input, " and ", u.input, " both write ", u.output])))
    | none => planFrom (planned ++ [u]) rest

/-- The units of a request, as far as they can be planned. -/
def plan (r : BuildRequest) (current : Text) : List BuildUnit × Option Fault :=
  planFrom [] ((r.inputs.zip (Path.displayNames current r.baseDir r.inputs)).map fun (input, display) =>
    r.unitOf input display)

/-- Why a request is refused before anything is planned. -/
def refusal? (r : BuildRequest) : Option Fault :=
  if r.inputs.isEmpty then some (.plain "no inputs to build")
  else if !r.name.isEmpty ∧ 1 < r.inputs.length then
    some (.plain (Text.join ["module name ", r.name.quoted, " given for ", Text.ofNat r.inputs.length, " inputs"]))
  else none

/-- A build that ends before any unit does a stage. -/
def refused (fs : Files) (events : List BuildEvent) (f : Fault) : BuildEnd :=
  .answered { units := [], events, files := fs, fault := some f }

/-- Builds the inputs one after the other. -/
def run (r : BuildRequest) (fs : Files) : BuildEnd :=
  match r.refusal? with
  | some f => refused fs [] f
  | none =>
    let (units, conflict) := r.plan fs.currentPath
    let events := units.map BuildUnit.queued
    match conflict with
    | some f => refused fs events f
    | none =>
      match fs.makeDirectories r.target with
      | .error (path, e) =>
        refused fs events (.plain (Text.join ["failed to create output directory: mkdir ", path, ": ", e.message]))
      | .ok files =>
        let b : Build := { runtime := r.runtime, units, files, events, isCanceled := r.isCanceled }
        (b.follow (Build.oneByOne units.length)).conclude

end BuildRequest
end CilCompiler
