import CilCompiler.Trace.Event

/-!
Spans of work. A span that is traced has a number of its own and knows the span it began below, and its beginning and
its end are events. A span that the level does not admit is inert: it has the number zero and no events.

A context hands the current span on to the work that is done in it.
-/

namespace CilCompiler

/-- How large a piece of work is. -/
inductive Scale where
  | driver
  | phase
  | type
  | member
deriving DecidableEq, Inhabited

/-- The number of a scale as the scope of an event. -/
def Scale.scope : Scale → Nat
  | .driver => 1
  | .phase => 2
  | .type => 3
  | .member => 4

namespace Trace

/-- Whether work of a scope is traced. -/
def Level.traces (l : Level) (scope : Nat) : Bool := l.isEnabled && l.admits scope

/-- An open span; an inert one has the number zero. -/
structure Span where
  id : Nat := 0
  parent : Nat := 0
  scope : Nat := 0
  name : Text := .empty
  extra : List (Text × Text) := []
deriving DecidableEq, Inhabited

namespace Span

def isInert (s : Span) : Bool := s.id = 0

/-- The span that begins below another when `last` spans have begun before. -/
def opened (l : Level) (last scope : Nat) (name : Text) (parent : Nat) : Span :=
  if l.traces scope then { id := last + 1, parent, scope, name } else {}

/-- Attaches a value to the end of a span; the last value of a name counts. -/
def withExtra (s : Span) (key value : Text) : Span :=
  if s.isInert then s
  else { s with extra := s.extra.filter (fun x => x.1 ≠ key) ++ [(key, value)] }

def beginning (s : Span) (time : Int) : Event :=
  { time, kind := 1, scope := s.scope, spanId := s.id, parentId := s.parent, name := s.name }

def ending (s : Span) (time : Int) (detail : Text) : Event :=
  { time, kind := 2, scope := s.scope, spanId := s.id, parentId := s.parent, name := s.name, detail, extra := s.extra }

end Span

/-- The event of a point below a span. -/
def Event.point (time : Int) (scope : Nat) (name detail : Text) (parent : Nat) : Event :=
  { time, kind := 3, scope, parentId := parent, name, detail }

/-- The event with the numbers of its spans behind those of `n` others. -/
def Event.behind (n : Nat) (e : Event) : Event :=
  { e with spanId := if e.spanId = 0 then 0 else n + e.spanId, parentId := if e.parentId = 0 then 0 else n + e.parentId }

end Trace

/-- Where work is done. -/
structure Context where
  /-- The number of the innermost span, zero outside of all spans. -/
  span : Nat := 0
deriving DecidableEq, Inhabited

/-- The context of what is done in a span. -/
def Context.below (ctx : Context) (s : Trace.Span) : Context := if s.isInert then ctx else { span := s.id }

end CilCompiler
