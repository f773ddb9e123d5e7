import Std.Time.DateTime.Timestamp
import CilCompiler.Cli.Places

/-!
The program: it looks at the files a command line is about, carries the command line out, runs a program if
there is one to run, and writes what has come of it.
-/

namespace CilCompiler

namespace Shell

/-- What is at a place. -/
def probe (place : List Text) : IO (Option FileEntry) := do
  try
    let content ← IO.FS.readBinFile (Path.ofNames place).toString
    return some (.file content.data.toList)
  catch
    | .inappropriateType none .. => return some .directory
    | _ => return none

/-- What is at several places, the root aside. -/
def probeAll (places : List (List Text)) : IO (List (List Text × FileEntry)) := do
  let found ← (places.eraseDups.filter fun p => !p.isEmpty).mapM fun place => do
    return (← probe place).map fun e => (place, e)
  return found.filterMap id

def writeText (out : IO.FS.Stream) (t : Text) : IO Unit := do
  unless t.isEmpty do
    out.write ⟨t.bytes.toArray⟩
    out.flush

/-- Makes files and directories that are new or have changed. -/
def writeFiles (before after : Files) : IO Unit := do
  for (place, e) in after.entries do
    unless before.entry? place = some e do
      let path := (Path.ofNames place).toString
      match e with
      | .directory => IO.FS.createDirAll path
      | .file content => IO.FS.writeBinFile path ⟨content.toArray⟩

/-- A line that stands for whatever is still to be read. -/
def pending : List UInt8 := [10]

/-- Runs a program step by step. What it prints is written at once, and a line is read when it asks for
    one: it has then taken the pending line, and the step is done again with the line that was read. -/
partial def runSteps (m : Machine) (stdin stdout : IO.FS.Stream) (isOver : Bool) : Progress → IO (Except Fault Value)
  | .done v w => do
    writeText stdout w.output
    return .ok v
  | .halted h w => do
    writeText stdout w.output
    match h with
    | .fault f => return .error f
    | .missing => return .error (.plain "the program left its code")
  | .running s => do
    writeText stdout s.world.output
    let s := { s with world := { s.world with printed := [] } }
    if isOver then runSteps m stdin stdout true (m.step s)
    else
      let asks (p : Progress) : Bool := match p with
        | .running t => (t.world.state m.module).input.isEmpty
        | .done _ w | .halted _ w => (w.state m.module).input.isEmpty
      let ready := { s with world := s.world.withInput m.module pending }
      if asks (m.step ready) then
        let line ← stdin.getLine
        let given := { s with world := s.world.withInput m.module (Text.ofString line).bytes }
        runSteps m stdin stdout line.isEmpty (m.step given)
      else runSteps m stdin stdout false (m.step ready)

end Shell
end CilCompiler

open CilCompiler in
/-- Carries out the command line of the process. -/
def main (args : List String) : IO UInt32 := do
  let words := args.map Text.ofString
  let current := Path.names (Text.ofString (← IO.currentDir).toString)
  let stdout ← IO.getStdout
  let stderr ← IO.getStderr
  let isPlain := (← IO.getEnv "NO_COLOR").any fun v => !v.isEmpty
  let hasColors := (← stdout.isTty) && !isPlain
  let now := (← Std.Time.Timestamp.now).toNanosecondsSinceUnixEpoch.val
  let environment (files : Files) : Environment := { files, hasColors, now }
  let manifests : Files := { entries := ← Shell.probeAll (Cli.manifestPlaces current), current }
  let places := Cli.manifestPlaces current ++ Cli.places (environment manifests) words
  let files : Files := { entries := ← Shell.probeAll places, current }
  let o ← match Cli.start (environment files) words with
    | .finished o => pure o
    | .running x conclude => do
      let result ← Shell.runSteps x.machine (← IO.getStdin) stdout false (x.start [])
      pure (conclude result .empty)
  Shell.writeFiles files o.files
  Shell.writeText stdout o.stdout
  Shell.writeText stderr (o.traced ++ o.stderr)
  return (Int32.ofInt o.exit).toUInt32
