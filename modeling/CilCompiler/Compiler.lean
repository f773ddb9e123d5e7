import CilCompiler.Compilation
import CilCompiler.Module.Disassembly

/-!
The compiler: a program, a backend and names in, a module out.
-/

namespace CilCompiler

namespace Backend

def name : Backend → Text
  | .textual => "textual"
  | .dynamic => "dynamic"

def ofName? (s : Text) : Option Backend :=
  if s = "textual" then some .textual else if s = "dynamic" then some .dynamic else none

/-- The fault of a name that is no backend's. -/
def unsupported (s : Text) : Fault :=
  .plain (Text.join ["unsupported backend: ", s, " (supported: textual, dynamic)"])

/-- The backend a request names; no name is a listing. -/
def ofRequest (s : Text) : Except Fault Backend :=
  if s.isEmpty then .ok .textual
  else match ofName? s with
    | some b => .ok b
    | none => .error (unsupported s)

end Backend

/-- Compiles a program into a new module. -/
def compile (p : Program) (backend : Backend) (name runtime : Text) (isCanceled : Bool) : Logged Compilation :=
  Compilation.run (Module.new 0 backend name runtime) p isCanceled

namespace Compilation

/-- The names of the types built, in order. -/
def typeNames (c : Compilation) : List Text := c.types.map fun d => d.type.name

/-- What was built as lines: the listing, or the disassembly. -/
def lines (c : Compilation) : List Text :=
  match c.module.backend with
  | .textual => c.module.lines.toList
  | .dynamic => c.module.disassemble

end Compilation
end CilCompiler
