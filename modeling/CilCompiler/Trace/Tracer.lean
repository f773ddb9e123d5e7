import CilCompiler.Journal
import CilCompiler.Trace.Format

/-!
Tracers. A tracer writes events out as they come, keeps the most recent ones in a ring, or both; every
event it takes gets the next number. Spans are numbered too, and a span that the level does not admit is
inert.
-/

namespace CilCompiler

namespace Trace

/-! ### The ring -/

/-- The number of events a ring holds when it is not said. -/
def defaultCapacity : Nat := 4096

/-- The most recent events: once the buffer is full the oldest, at `head`, is overwritten. -/
structure Ring where
  capacity : Nat
  buffer : Array Event := #[]
  head : Nat := 0

namespace Ring

def new (capacity : Int) : Ring := { capacity := if capacity ≤ 0 then defaultCapacity else capacity.toNat }

def push (r : Ring) (e : Event) : Ring :=
  if r.buffer.size < r.capacity then { r with buffer := r.buffer.push e }
  else { r with buffer := r.buffer.setIfInBounds r.head e, head := (r.head + 1) % r.capacity }

/-- The events, oldest first. -/
def events (r : Ring) : List Event := r.buffer.toList.drop r.head ++ r.buffer.toList.take r.head

end Ring

/-! ### Tracers -/

structure Tracer where
  level : Level
  /-- The time of the events a tracer makes itself. -/
  now : Int := 0
  /-- How events are written out, if they are. -/
  stream : Option Format := none
  written : List Text := []
  ring : Option Ring := none
  /-- The number of the event taken last. -/
  lastSeq : Nat := 0
  /-- The number of the span begun last. -/
  lastSpan : Nat := 0

/-- How a tracer is set up. -/
structure Setup where
  level : Level
  mode : Mode
  format : Format
  /-- The name of the output. -/
  path : Text
  ringSize : Int

/-- The format of an output; a name may ask for JSON. -/
def Setup.lineFormat (s : Setup) : Format :=
  match s.format with
  | .auto => if s.path.endsWith ".ndjson" then .ndjson else .text
  | f => f

namespace Tracer

/-- A tracer that takes nothing. -/
def none : Tracer := { level := .off }

def ofSetup (s : Setup) : Tracer :=
  if s.level = .off then none
  else
    { level := s.level
      stream := if s.mode = .ring then .none else some s.lineFormat
      ring := if s.mode = .stream then .none else some (.new s.ringSize) }

/-- A tracer that keeps events in memory only. -/
def ofRing (level : Level) (capacity : Int) : Tracer := { level, ring := some (.new capacity) }

/-- Writes an event out under the next number. -/
def emitStream (t : Tracer) (e : Event) : Tracer :=
  match t.stream with
  | some f =>
    if t.level.keeps e then
      let seq := t.lastSeq + 1
      { t with lastSeq := seq, written := f.line { e with seq } :: t.written }
    else t
  | .none => t

/-- Keeps an event under the next number. -/
def emitRing (t : Tracer) (e : Event) : Tracer :=
  match t.ring with
  | some r =>
    if t.level.keeps e then
      let seq := t.lastSeq + 1
      { t with lastSeq := seq, ring := some (r.push { e with seq }) }
    else t
  | .none => t

/-- Takes an event. -/
def emit (t : Tracer) (e : Event) : Tracer := (t.emitStream e).emitRing e

/-- Whether work of a scope is traced. -/
def admits (t : Tracer) (scope : Nat) : Bool := t.level.traces scope

/-- What has been written out. -/
def output (t : Tracer) : Text := Text.join t.written.reverse

/-- The events in memory, if they are kept. -/
def kept (t : Tracer) : Option (List Event) := t.ring.map Ring.events

/-! ### Spans -/

/-- Begins a span below another. -/
def start (t : Tracer) (scope : Nat) (name : Text) (parent : Nat) : Span × Tracer :=
  let s := Span.opened t.level t.lastSpan scope name parent
  (s, if s.isInert then t else { t with lastSpan := s.id }.emit (s.beginning t.now))

/-- Ends a span. -/
def finish (t : Tracer) (s : Span) (detail : Text) : Tracer := if s.isInert then t else t.emit (s.ending t.now detail)

/-- Passes a point below a span. -/
def point (t : Tracer) (scope : Nat) (name detail : Text) (parent : Nat) : Tracer :=
  if t.admits scope then t.emit (.point t.now scope name detail parent) else t

/-- Attaches a value to a span. The ends of the span that are kept in memory with values show it as well. -/
def attach (t : Tracer) (s : Span) (key value : Text) : Span × Tracer :=
  let s := s.withExtra key value
  let shows (e : Event) : Bool := !s.isInert && e.kind = 2 && e.spanId = s.id && !e.extra.isEmpty
  let update (r : Ring) : Ring :=
    { r with buffer := r.buffer.map fun e => if shows e then { e with extra := s.extra } else e }
  (s, { t with ring := t.ring.map update })

/-! ### Journals -/

/-- Takes the events of a journal in order. The spans of the journal are numbered behind those begun before. -/
def replay (t : Tracer) (j : Journal) : Tracer :=
  { j.events.foldl (fun t' e => t'.emit { e.behind t.lastSpan with time := t.now }) t with
    lastSpan := t.lastSpan + j.lastSpan }

end Tracer
end Trace
end CilCompiler
