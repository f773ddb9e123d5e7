import CilCompiler.Timer
import CilCompiler.Trace.Span

/-!
The journal of a piece of work: the events that are handed to its tracer, in order, and the phases it goes through.
The journal is kept when the work fails. The work begins and ends its spans itself, in contexts that it hands on, saves
and restores.
-/

namespace CilCompiler

open Trace (Span)

structure Journal where
  /-- How much is traced. -/
  level : Trace.Level := .off
  /-- The number of the span begun last. -/
  lastSpan : Nat := 0
  events : Array Trace.Event := #[]
  /-- The context of the work. -/
  context : Context := {}
  timer : Timer := {}
  /-- How often the work has looked at whether it is canceled. -/
  looks : Nat := 0
deriving DecidableEq, Inhabited

namespace Journal

def hand (j : Journal) (e : Trace.Event) : Journal := { j with events := j.events.push e }

/-- Begins a span below the one of a number. -/
def start (j : Journal) (scale : Scale) (name : Text) (parent : Nat) : Span × Journal :=
  let s := Span.opened j.level j.lastSpan scale.scope name parent
  (s, if s.isInert then j else { j with lastSpan := s.id }.hand (s.beginning 0))

def finish (j : Journal) (s : Span) (detail : Text) : Journal := if s.isInert then j else j.hand (s.ending 0 detail)

/-- Passes a point in a context. -/
def point (j : Journal) (ctx : Context) (scale : Scale) (name detail : Text) : Journal :=
  if j.level.traces scale.scope then j.hand (.point 0 scale.scope name detail ctx.span) else j

/-- The phases with a remark on each; times are not measured here. -/
def phases (j : Journal) : List (Text × Text) := j.timer.notes

end Journal

/-- Work that keeps a journal and may fail. -/
abbrev Logged := ExceptT Fault (StateM Journal)

/-- When work is canceled: whether it has been, when it looks for the first, second, .. time. -/
abbrev Cancellation := Nat → Bool

/-- Work that nobody cancels. -/
def Cancellation.never : Cancellation := fun _ => false

namespace Logged

variable {α : Type}

def fail (f : Fault) : Logged α := fun j => (.error f, j)

def ofExcept (x : Except Fault α) : Logged α := fun j => (x, j)

/-- Changes the journal. -/
def note (f : Journal → Journal) : Logged Unit := fun j => (.ok (), f j)

/-- The outcome of work that may fail. A crash has none. -/
def attempt (work : Logged α) : Logged (Except Fault α) := fun j =>
  match work j with
  | (.error .crash, j) => (.error .crash, j)
  | (outcome, j) => (.ok outcome, j)

/-- The context of the work. -/
def context : Logged Context := fun j => (.ok j.context, j)

def setContext (ctx : Context) : Logged Unit := note fun j => { j with context := ctx }

/-- Begins a span below the one of a number. -/
def start (scale : Scale) (name : Text) (parent : Nat) : Logged Span := fun j =>
  let (s, j) := j.start scale name parent
  (.ok s, j)

/-- Begins a span in a context and answers it with the context of what is done in it. -/
def startIn (ctx : Context) (scale : Scale) (name : Text) : Logged (Span × Context) := do
  let s ← start scale name ctx.span
  return (s, ctx.below s)

def finish (s : Span) (detail : Text) : Logged Unit := note fun j => j.finish s detail

def point (ctx : Context) (scale : Scale) (name detail : Text) : Logged Unit := note fun j => j.point ctx scale name detail

/-- Begins a timed phase and answers its number. -/
def startPhase (name : Text) : Logged Nat := fun j =>
  let (number, timer) := j.timer.begin name 0
  (.ok number, { j with timer })

def finishPhase (number : Nat) (remark : Text) : Logged Unit :=
  note fun j => { j with timer := j.timer.finish number remark 0 }

/-- Looks at whether the work has been canceled by now. -/
def isCanceled (canceled : Cancellation) : Logged Bool := fun j => (.ok (canceled j.looks), { j with looks := j.looks + 1 })

/-- Fails if the work has been canceled by now. -/
def checkpoint (canceled : Cancellation) : Logged Unit := do
  if ← isCanceled canceled then fail .canceled

end Logged
end CilCompiler
