import CilCompiler.Text
import CilCompiler.Text.Printable

/-!
The shape of a listing: braces balance, a method does not begin inside another, every method with recorded
instructions states its stack size and ends by returning, a method of the runtime is empty, and at most one
method is the entry point. `Listing.check` finds the first line at which a listing has another shape.
-/

namespace CilCompiler

namespace Listing

/-- What can be wrong with the body of a method. -/
inductive BodyFlaw where
  | runtimeBody
  | missingStackSize
  /-- The last instruction is another than `ret`. -/
  | noReturn (last : Text)
deriving DecidableEq

def BodyFlaw.message : BodyFlaw → Text
  | .runtimeBody => "runtime method has a body"
  | .missingStackSize => "missing .maxstack"
  | .noReturn last => Text.join ["body ends with ", last.quoted, ", want ret"]

/-- What can be wrong with a listing; `line` counts from one. -/
inductive Flaw where
  | strayClose (line : Nat)
  | nestedMethod (line : Nat) (inner outer : Text)
  | body (line : Nat) (method : Text) (flaw : BodyFlaw)
  | leftOpen (braces : Nat)
  | manyEntries (count : Nat)
deriving DecidableEq

def Flaw.message : Flaw → Text
  | .strayClose line => Text.join ["line ", Text.ofNat line, ": unbalanced closing brace"]
  | .nestedMethod line inner outer =>
    Text.join ["line ", Text.ofNat line, ": method ", inner.quoted, " opened inside ", outer.quoted]
  | .body line method flaw => Text.join ["line ", Text.ofNat line, ": ", method, ": ", flaw.message]
  | .leftOpen braces => Text.join ["unbalanced braces: ", Text.ofNat braces, " left open"]
  | .manyEntries count => Text.ofNat count ++ " entry points"

def openBrace : Text := "\x7b"

def closeBrace : Text := "\x7d"

/-- The last line that is no directive. -/
def lastInstruction (body : List Text) : Text :=
  (body.filter fun l => !l.startsWith ".").getLast?.getD .empty

/-- Whether the method of a header is supplied by the runtime. -/
def isRuntime (header : Text) : Bool := header.endsWith " runtime managed"

/-- Checks the lines of a method's body. -/
def checkBody (header : Text) (body : List Text) : Except BodyFlaw Unit :=
  if isRuntime header then
    if body.isEmpty then .ok () else .error .runtimeBody
  else if !body.any fun l => l.startsWith ".maxstack " then .error .missingStackSize
  else if lastInstruction body ≠ "ret" then .error (.noReturn (lastInstruction body))
  else .ok ()

/-- What has been seen of a listing. -/
structure Scan where
  /-- The number of open braces. -/
  depth : Nat := 0
  entries : Nat := 0
  /-- The header of the open method and the lines of its body, last first. -/
  method : Option (Text × List Text) := none
deriving DecidableEq, Inhabited

/-- Reads a line without the blanks around it. -/
def Scan.step (s : Scan) (number : Nat) (line : Text) : Except Flaw Scan :=
  if line = openBrace then .ok { s with depth := s.depth + 1 }
  else if line = closeBrace then
    match s.depth, s.method with
    | 0, _ => .error (.strayClose number)
    | 2, some (header, body) =>
      match checkBody header body.reverse with
      | .ok _ => .ok { s with depth := 1, method := none }
      | .error f => .error (.body number header f)
    | d + 1, _ => .ok { s with depth := d }
  else if line.startsWith ".method " then
    match s.method with
    | some (outer, _) => .error (.nestedMethod number line outer)
    | none => .ok { s with method := some (line, []) }
  else
    match s.method with
    | some (header, body) =>
      .ok { s with
        entries := if line = ".entrypoint" then s.entries + 1 else s.entries
        method := some (header, line :: body) }
    | none => .ok s

/-- Reads lines from a number on. -/
def Scan.lines (s : Scan) (number : Nat) : List Text → Except Flaw Scan
  | [] => .ok s
  | line :: rest => do (← s.step number line.trim).lines (number + 1) rest

/-- Checks the shape of a listing. -/
def check (lines : List Text) : Except Flaw Unit := do
  let s ← ({} : Scan).lines 1 lines
  if s.depth ≠ 0 then .error (.leftOpen s.depth)
  else if 1 < s.entries then .error (.manyEntries s.entries)
  else .ok ()

end Listing
end CilCompiler
