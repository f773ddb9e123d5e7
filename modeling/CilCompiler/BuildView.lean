import CilCompiler.Build.Stage
import CilCompiler.Timer
import CilCompiler.Text.Width

/-!
The view of a build in progress: a row for each input with what is being done about it, under a title and
above a bar. Events of the build change the rows; the view closes when the build has ended.
-/

namespace CilCompiler

/-- A row of the view. -/
structure ViewRow where
  file : Text
  stage : Stage := .other .empty
  status : Status := .queued
  elapsed : Int64 := 0
  failure : Option Text := none
deriving DecidableEq, Inhabited

namespace ViewRow

/-- What is being done about an input, in a word. -/
def label (r : ViewRow) : Text :=
  match r.status, r.stage with
  | .working, .load => "loading"
  | .working, .compile => "compiling"
  | .working, .emit => "writing"
  | .working, .run => "running"
  | .error, _ => "failed"
  | s, _ => s.name

/-- Takes an event over. The time counts only at the end, and a failure stays. -/
def apply (r : ViewRow) (e : BuildEvent) : ViewRow :=
  { r with
    stage := e.stage
    status := e.status
    elapsed := if e.status = .done then e.elapsed else r.elapsed
    failure := e.failure.or r.failure }

end ViewRow

structure BuildView where
  title : Text
  rows : List ViewRow
  /-- The width of the terminal in cells. -/
  width : Nat := 80
  barWidth : Nat := 60
  /-- The number of the spinner's picture. -/
  frame : Nat := 0
  isClosed : Bool := false
deriving DecidableEq, Inhabited

namespace BuildView

/-- The view of a build before any event. -/
def new (title : Text) (files : List Text) : BuildView := { title, rows := files.map fun file => { file } }

/-! ### Changes -/

/-- Changes the last of the rows that are of a file. -/
def modifyLast (file : Text) (f : ViewRow → ViewRow) (rows : List ViewRow) : List ViewRow :=
  let (behind, rest) := rows.reverse.span fun r => r.file ≠ file
  match rest with
  | r :: before => (behind ++ f r :: before).reverse
  | [] => rows

/-- Takes an event over; one about a file without a row changes nothing. -/
def apply (v : BuildView) (e : BuildEvent) : BuildView :=
  { v with rows := modifyLast e.file (fun r => r.apply e) v.rows }

/-- The pictures of the spinner. -/
def frames : List Text := ["⠋", "⠙", "⠹", "⠸", "⠼", "⠴", "⠦", "⠧", "⠇", "⠏"]

/-- Turns the spinner on. -/
def tick (v : BuildView) : BuildView := if v.isClosed then v else { v with frame := (v.frame + 1) % frames.length }

/-- Fits the view to a terminal; a width that is not positive is not one. -/
def resize (v : BuildView) (width : Int) : BuildView :=
  if width ≤ 0 then v else { v with width := width.toNat, barWidth := max (width.toNat - 4) 10 }

def close (v : BuildView) : BuildView := { v with isClosed := true }

/-! ### Counts -/

/-- How many inputs are built. -/
def built (v : BuildView) : Nat := v.rows.countP fun r => r.status = .done

/-- How many inputs have failed. -/
def failed (v : BuildView) : Nat := v.rows.countP fun r => r.status = .error

/-! ### Text -/

/-- Puts `new` in the place of every `old`, which is not empty. -/
def replaceBytes (old new : List UInt8) : (skip : Nat) → List UInt8 → List UInt8
  | _, [] => []
  | skip + 1, _ :: rest => replaceBytes old new skip rest
  | 0, b :: rest =>
    if old.isPrefixOf (b :: rest) then new ++ replaceBytes old new (old.length - 1) rest
    else b :: replaceBytes old new 0 rest

/-- A piece of text as a block: a tab takes four blanks, and every line is as wide as the widest. -/
def block (t : Text) : Text :=
  let t : Text := ⟨replaceBytes [13, 10] [10] 0 (replaceBytes [9] [32, 32, 32, 32] 0 t.bytes)⟩
  match t.lines with
  | [_] => t
  | lines =>
    let widest := (lines.map Text.cells).foldl max 0
    Text.sepBy "\n" (lines.map fun l => l ++ Text.times (widest - l.cells) " ")

/-- The width of the first column. -/
def labelWidth : Nat := 10

/-- The width of the names of files. -/
def nameWidth (v : BuildView) : Nat := max (v.width - (labelWidth + 14)) 20

def header (v : BuildView) : Text :=
  if v.isClosed then
    Text.join [v.title, ": ", Text.ofNat v.built, " built, ", Text.ofNat v.failed, " failed"]
  else Text.join [block (frames.getD v.frame .empty), " ", v.title]

/-- The lines of a row: what is done, the file, the time at the end, and below them a failure. -/
def rowText (v : BuildView) (r : ViewRow) : Text :=
  let time : Text :=
    if r.status = .done ∧ 0 < r.elapsed then block (" " ++ Duration.text (Duration.roundMillis r.elapsed.toInt.toNat))
    else .empty
  let failure : Text := match r.failure with
    | some t => Text.join ["    ", block (t.truncate (v.width - 4)), "\n"]
    | none => .empty
  Text.join ["  ", block (Text.padLeft labelWidth r.label), " ", r.file.truncate v.nameWidth, time, "\n", failure]

/-- The bar is full once the view is closed. -/
def bar (v : BuildView) : Text := Text.times v.barWidth (if v.isClosed then "█" else "░")

/-- The view as text; a build without inputs shows nothing. -/
def text (v : BuildView) : Text :=
  if v.rows.isEmpty then .empty
  else Text.join [block v.header, "\n\n", Text.join (v.rows.map v.rowText), "\n", v.bar, "\n"]

end BuildView
end CilCompiler
