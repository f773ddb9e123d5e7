import CilCompiler.Json.Writer
import CilCompiler.Trace.Event

/-!
Trace events as text: one line each, either indented by scope or as a JSON object.
-/

namespace CilCompiler

namespace Trace

/-! ### Time -/

/-- Year, month and day of a day counted from the beginning of 1970. Days are counted from the first of
    March of the year zero, in cycles of four hundred years. -/
def civilDate (day : Int) : Int × Int × Int :=
  let z := day + 719468
  let era := Int.fdiv z 146097
  let doe := z - era * 146097
  let yoe := (doe - doe / 1460 + doe / 36524 - doe / 146096) / 365
  let doy := doe - (365 * yoe + yoe / 4 - yoe / 100)
  let mp := (5 * doy + 2) / 153
  let month := if mp < 10 then mp + 3 else mp - 9
  let year := yoe + era * 400 + (if month ≤ 2 then 1 else 0)
  (year, month, doy - (153 * mp + 2) / 5 + 1)

/-- A time with microseconds, in universal time. -/
def timeText (ns : Int) : Text :=
  let micros := Int.fdiv ns 1000
  let seconds := Int.fdiv micros 1000000
  let day := Int.fdiv seconds 86400
  let inDay := (seconds - day * 86400).toNat
  let (y, m, d) := civilDate day
  Text.join [Text.padded 4 y.toNat, "-", Text.padded 2 m.toNat, "-", Text.padded 2 d.toNat, "T",
    Text.padded 2 (inDay / 3600), ":", Text.padded 2 (inDay / 60 % 60), ":", Text.padded 2 (inDay % 60), ".",
    Text.padded 6 (micros - seconds * 1000000).toNat, "Z"]

/-! ### Events -/

/-- Named values in byte order of their names. -/
def sortedExtra (extra : List (Text × Text)) : List (Text × Text) := extra.mergeSort fun a b => Text.le a.1 b.1

/-- The mark of a kind of event. -/
def mark (kind : Nat) : Text :=
  match kind with
  | 1 => "> "
  | 2 => "< "
  | 3 => "* "
  | 4 => "~ "
  | _ => .empty

def textLine (e : Event) : Text :=
  Text.join ["#", Text.padded 6 e.seq, " ", Text.times (e.scope - 1) "  ", mark e.kind, scopeName e.scope, ":", e.name,
    if e.detail.isEmpty then .empty else Text.join [" (", e.detail, ")"],
    if e.extra.isEmpty then .empty
      else Text.join [" \x7b", Text.sepBy ", " ((sortedExtra e.extra).map fun (k, v) => Text.join [k, "=", v]), "\x7d"],
    "\n"]

def jsonLine (e : Event) : Text :=
  let members : List (Text × Json) :=
    ("time", .string (timeText e.time)) :: ("seq", .ofInt e.seq) :: ("kind", .string (kindName e.kind)) ::
    ("scope", .string (scopeName e.scope)) ::
    ((if e.spanId = 0 then [] else [(("span_id" : Text), Json.ofInt e.spanId)]) ++
     (if e.parentId = 0 then [] else [(("parent_id" : Text), Json.ofInt e.parentId)]) ++
     [(("name" : Text), Json.string e.name)] ++
     (if e.detail.isEmpty then [] else [(("detail" : Text), Json.string e.detail)]) ++
     (if e.extra.isEmpty then []
       else [(("extra" : Text), Json.object ((sortedExtra e.extra).map fun (k, v) => (k, .string v)))]))
  (Json.object members).compact ++ "\n"

/-- An event as a line. -/
def Format.line (f : Format) (e : Event) : Text :=
  match f with
  | .ndjson => jsonLine e
  | _ => textLine e

end Trace
end CilCompiler
