import CilCompiler.Fault
import CilCompiler.Text
import CilCompiler.Text.Case

/-!
Trace events and what decides which of them are kept: a level of detail, and where they go. Kinds, scopes
and levels are numbers; the ones in use have names.
-/

namespace CilCompiler

namespace Trace

/-- How much is traced. -/
inductive Level where
  | off
  | error
  | phase
  | detail
  | debug
deriving DecidableEq, Inhabited

/-- Where events go: out at once, into memory, or both. -/
inductive Mode where
  | stream
  | ring
  | both
deriving DecidableEq, Inhabited

/-- How events are written; `auto` leaves it to the name of the output. -/
inductive Format where
  | auto
  | text
  | ndjson
deriving DecidableEq, Inhabited

namespace Level

def all : List Level := [.off, .error, .phase, .detail, .debug]

def name : Level → Text
  | .off => "off"
  | .error => "error"
  | .phase => "phase"
  | .detail => "detail"
  | .debug => "debug"

/-- Whether work of a scope is traced; smaller numbers are larger pieces of work. -/
def admits (l : Level) (scope : Nat) : Bool :=
  match l with
  | .phase => scope ≤ 2
  | .detail => scope ≤ 3
  | .debug => true
  | .off | .error => false

/-- Whether anything is traced at all. -/
def isEnabled (l : Level) : Bool := l != .off

end Level

def Mode.all : List Mode := [.stream, .ring, .both]

def Mode.name : Mode → Text
  | .stream => "stream"
  | .ring => "ring"
  | .both => "both"

/-- The name at a number, where there is one. -/
def nameAt (names : List Text) (n : Nat) : Text := names.getD n "unknown"

def levelName (n : Nat) : Text := nameAt (Level.all.map Level.name) n

def modeName (n : Nat) : Text := nameAt ("unknown" :: Mode.all.map Mode.name) n

def kindName (n : Nat) : Text := nameAt ["unknown", "begin", "end", "point", "heartbeat"] n

def scopeName (n : Nat) : Text := nameAt ["unknown", "driver", "phase", "type", "member"] n

/-- The level of a number; numbers beyond the levels admit nothing but count as enabled elsewhere. -/
def levelAdmits (n scope : Nat) : Bool :=
  match Level.all[n]? with
  | some l => l.admits scope
  | none => false

/-- A setting as it is compared: without blanks at its ends, in small letters. -/
def setting (s : Text) : Text := s.trim.toLower

def Level.parse (s : Text) : Except Fault Level :=
  let t := setting s
  if t.isEmpty then .ok .off
  else match Level.all.find? fun l => l.name = t with
    | some l => .ok l
    | none => .error (.plain (Text.join ["invalid trace level ", s.quoted, " (expected off|error|phase|detail|debug)"]))

def Mode.parse (s : Text) : Except Fault Mode :=
  let t := setting s
  if t.isEmpty then .ok .stream
  else match Mode.all.find? fun m => m.name = t with
    | some m => .ok m
    | none => .error (.plain (Text.join ["invalid trace mode ", s.quoted, " (expected stream|ring|both)"]))

def Format.parse (s : Text) : Except Fault Format :=
  let t := setting s
  if t.isEmpty ∨ t = "auto" then .ok .auto
  else if t = "text" then .ok .text
  else if t = "ndjson" ∨ t = "json" then .ok .ndjson
  else .error (.plain (Text.join ["invalid trace format ", s.quoted, " (expected auto|text|ndjson)"]))

structure Event where
  /-- Nanoseconds since the beginning of 1970. -/
  time : Int := 0
  seq : Nat := 0
  kind : Nat
  scope : Nat
  spanId : Nat := 0
  parentId : Nat := 0
  name : Text
  detail : Text := .empty
  extra : List (Text × Text) := []
deriving DecidableEq, Inhabited

/-- The number of the events that no level keeps out. -/
def heartbeat : Nat := 4

/-- Whether an event is kept at a level. -/
def Level.keeps (l : Level) (e : Event) : Bool := l.admits e.scope || e.kind = heartbeat

end Trace
end CilCompiler
