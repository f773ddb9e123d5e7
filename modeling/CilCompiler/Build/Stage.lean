import CilCompiler.Fault

/-!
The stages an input goes through, how far it is in a stage, and how long the stages took. Names other than
the ones in use can be reported too, and are shown as they are.
-/

namespace CilCompiler

inductive Stage where
  | load
  | compile
  | emit
  | run
  | other (name : Text)
deriving DecidableEq, Inhabited

def Stage.name : Stage → Text
  | .load => "load"
  | .compile => "compile"
  | .emit => "emit"
  | .run => "run"
  | .other name => name

def Stage.ofName (t : Text) : Stage :=
  match [Stage.load, .compile, .emit, .run].find? fun s => s.name = t with
  | some s => s
  | none => .other t

/-- How far an input is in a stage. -/
inductive Status where
  | queued
  | working
  | done
  | error
  | other (name : Text)
deriving DecidableEq, Inhabited

def Status.name : Status → Text
  | .queued => "queued"
  | .working => "working"
  | .done => "done"
  | .error => "error"
  | .other name => name

def Status.ofName (t : Text) : Status :=
  match [Status.queued, .working, .done, .error].find? fun s => s.name = t with
  | some s => s
  | none => .other t

/-- A report on an input. -/
structure BuildEvent where
  file : Text
  stage : Stage
  status : Status
  failure : Option Text := none
  /-- The time the work took, in nanoseconds. -/
  elapsed : Int64 := 0
deriving DecidableEq, Inhabited

/-- How long stages took, in nanoseconds. -/
structure Timings where
  entries : List (Stage × Int64) := []
deriving DecidableEq, Inhabited

namespace Timings

def get? (t : Timings) (s : Stage) : Option Int64 := t.entries.lookup s

def has (t : Timings) (s : Stage) : Bool := (t.get? s).isSome

/-- The time of a stage, none if it was not recorded. -/
def duration (t : Timings) (s : Stage) : Int64 := (t.get? s).getD 0

def set (t : Timings) (s : Stage) (ns : Int64) : Timings := ⟨t.entries.filter (fun e => e.1 ≠ s) ++ [(s, ns)]⟩

/-- The total over the given stages, over all recorded ones if none is given. -/
def sum (t : Timings) (stages : List Stage) : Int64 :=
  match stages with
  | [] => t.entries.foldl (fun n e => n + e.2) 0
  | ss => ss.foldl (fun n s => n + t.duration s) 0

end Timings
end CilCompiler
