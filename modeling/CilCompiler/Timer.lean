import CilCompiler.Text

/-! Timers: which phases a piece of work went through, in the order they began, how long each took, and a remark on
    it. A phase that has not ended counts as no time. Lengths of time are counted in nanoseconds and written in the
    largest of the units hour, minute and second, or in a smaller unit below a second, without zeros at the end of a
    fraction. -/

namespace CilCompiler

/-! ### Lengths of time -/

namespace Duration

def millisecond : Int64 := 1000000

/-- The longest time that can be counted. -/
def longest : Nat := 9223372036854775807

/-- The whole part and the fraction of `n` in a unit of ten to the `digits`, without zeros at the end. -/
def fraction (n digits : Nat) : Text :=
  let unit := Nat.pow 10 digits
  let rest := (Text.padded digits (n % unit)).bytes
  let shown := (rest.reverse.dropWhile fun b => b = 48).reverse
  Text.ofNat (n / unit) ++ (if digits = 0 ∨ shown.isEmpty then .empty else Text.join [".", ⟨shown⟩])

/-- A length of time that is not negative. -/
def text (ns : Nat) : Text :=
  if ns = 0 then "0s"
  else if ns < 1000 then Text.ofNat ns ++ "ns"
  else if ns < 1000000 then fraction ns 3 ++ "µs"
  else if ns < 1000000000 then fraction ns 6 ++ "ms"
  else
    let minutes := ns / 60000000000
    let seconds := fraction (ns % 60000000000) 9 ++ "s"
    if minutes = 0 then seconds
    else if minutes < 60 then Text.join [Text.ofNat minutes, "m", seconds]
    else Text.join [Text.ofNat (minutes / 60), "h", Text.ofNat (minutes % 60), "m", seconds]

/-- A length of time rounded to milliseconds, a half upwards, unless that is too long to count. -/
def roundMillis (ns : Nat) : Nat :=
  let rest := ns % 1000000
  if rest + rest < 1000000 then ns - rest
  else if ns + 1000000 - rest ≤ longest then ns + 1000000 - rest
  else longest

/-- Milliseconds with a number of decimals, a half upwards. -/
def millis (ns decimals : Nat) : Text :=
  let step := Nat.pow 10 (6 - decimals)
  let unit := Nat.pow 10 decimals
  let n := (ns + step / 2) / step
  Text.join [Text.ofNat (n / unit), ".", Text.padded decimals (n % unit)]

end Duration

/-! ### Phases -/

/-- A timed phase; times are in nanoseconds. -/
structure TimedPhase where
  name : Text
  note : Text := .empty
  began : Nat := 0
  duration : Nat := 0
  isOpen : Bool := true
deriving DecidableEq, Inhabited

/-- The phases so far. -/
structure Timer where
  phases : Array TimedPhase := #[]
deriving DecidableEq, Inhabited

namespace Timer

/-- Begins a phase and answers its number. -/
def begin (t : Timer) (name : Text) (now : Nat) : Nat × Timer :=
  (t.phases.size, { phases := t.phases.push { name, began := now } })

/-- Ends the phase of a number; a number without an open phase changes nothing. -/
def finish (t : Timer) (number : Int) (note : Text) (now : Nat) : Timer :=
  if number < 0 then t
  else match t.phases[number.toNat]? with
    | some p =>
      if p.isOpen then
        { phases := t.phases.setIfInBounds number.toNat { p with note, duration := now - p.began, isOpen := false } }
      else t
    | none => t

/-- A phase of its own for work that succeeds or fails. -/
def measure (t : Timer) (name : Text) (hasFailed : Bool) (now : Nat) : Timer :=
  let (number, t) := t.begin name now
  t.finish number (if hasFailed then "failed" else .empty) now

/-- The names and remarks of the phases. -/
def notes (t : Timer) : List (Text × Text) := t.phases.toList.map fun p => (p.name, p.note)

/-- A line of the table: a name and a time in milliseconds. -/
def row (name : Text) (ns : Nat) : Text :=
  Text.join ["  ", Text.padRight 20 name, " ", Text.padLeft 7 (Duration.millis ns 2), " ms"]

/-- The phases as a table with a total. -/
def summary (t : Timer) : Text :=
  let rows := t.phases.toList.map fun p =>
    Text.join [row p.name p.duration, if p.note.isEmpty then .empty else "  // " ++ p.note, "\n"]
  let total := t.phases.toList.foldl (fun n p => n + p.duration) 0
  Text.join ["timings:\n", Text.join rows, row "total" total, "\n"]

end Timer
end CilCompiler
