import CilCompiler.Files
import CilCompiler.Text.Case
import CilCompiler.Tree.JsonForm
import CilCompiler.Tree.MsgpackForm

/-!
Inputs: stored programs. The ending of an input's name says in which form the program is stored.
-/

namespace CilCompiler

/-- A form in which programs are stored. -/
inductive InputForm where
  | packed
  | json
deriving DecidableEq, Inhabited

namespace InputForm

def ending : InputForm → Text
  | .packed => ".ilt"
  | .json => ".json"

/-- The form of the input at a path; capitals do not matter. -/
def ofPath? (path : Text) : Option InputForm :=
  [InputForm.packed, .json].find? fun f => f.ending = (Path.extension path).toLower

def decode : InputForm → List UInt8 → Except Fault Program
  | .packed, bs => Program.ofMsgpack bs
  | .json, bs => Program.ofJsonText ⟨bs⟩

end InputForm

/-- Reads the program at a path. -/
def loadProgram (fs : Files) (path : Text) : Except Fault Program :=
  match InputForm.ofPath? path with
  | none =>
    .error (.within path (.plain (Text.join
      ["unsupported input (expected ", InputForm.packed.ending, " or ", InputForm.json.ending, ")"])))
  | some form =>
    match fs.status path with
    | .error e => .error (.plain (Text.join ["failed to open ", path.quoted, ": open ", path, ": ", e.message]))
    | .ok .directory => .error (.within path .undecodable)
    | .ok (.file content) => (form.decode content).mapError (Fault.within path)

end CilCompiler
