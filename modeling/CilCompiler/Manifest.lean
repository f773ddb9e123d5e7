import CilCompiler.Compiler
import CilCompiler.Files
import CilCompiler.Text
import CilCompiler.Toml.Document
import CilCompiler.Trace.Event

/-!
Manifests: what a project says about its modules, its builds and its traces, in a file of a fixed name. The
manifest that counts for a directory is the nearest one from there upwards. Whatever a manifest leaves
out has a default.
-/

namespace CilCompiler

/-- What a manifest says about the module that is built. -/
structure ModuleTable where
  name : Text := "Program"
  backend : Text := "textual"
  runtime : Text := "mscorlib"
deriving DecidableEq, Inhabited

/-- What a manifest says about builds; inputs and the output directory are seen from the manifest. -/
structure BuildTable where
  outDir : Text := "out"
  jobs : Int := 0
  inputs : List Text := []
deriving DecidableEq, Inhabited

/-- What a manifest says about traces. -/
structure TraceTable where
  level : Text := "off"
  output : Text := "-"
  mode : Text := "stream"
  format : Text := "auto"
deriving DecidableEq, Inhabited

/-- The tables of a manifest. -/
structure Manifest where
  module : ModuleTable := {}
  build : BuildTable := {}
  trace : TraceTable := {}
deriving DecidableEq, Inhabited

namespace Manifest

/-- The name of a manifest's file. -/
def fileName : Text := "ilforge.toml"

/-! ### Tables -/

/-- Takes a value over into a record of settings; none if it has the wrong type. -/
abbrev Setter (σ : Type) := Toml.Value → σ → Option σ

def text {σ : Type} (set : Text → σ → σ) : Setter σ
  | .string s, t => some (set s t)
  | _, _ => none

def integer {σ : Type} (set : Int → σ → σ) : Setter σ
  | .integer i, t => some (set i t)
  | _, _ => none

def texts {σ : Type} (set : List Text → σ → σ) : Setter σ
  | .array items, t => do
    let ts ← items.mapM fun
      | .string s => some s
      | _ => none
    return set ts t
  | _, _ => none

/-- Takes over the entries whose names are known, capitals aside; the others are skipped. -/
def takeOver {σ : Type} (setters : List (Text × Setter σ)) (entries : Toml.Entries) (t : σ) : Option σ :=
  entries.foldlM (fun t (name, v) =>
    match setters.find? fun s => s.1.folded = name.folded with
    | some (_, set) => set v t
    | none => some t) t

/-- A table inside another. -/
def table {σ τ : Type} (setters : List (Text × Setter τ)) (get : σ → τ) (set : τ → σ → σ) : Setter σ
  | .table entries, t => do return set (← takeOver setters entries (get t)) t
  | _, _ => none

def moduleSetters : List (Text × Setter ModuleTable) :=
  [("name", text fun s t => { t with name := s }), ("backend", text fun s t => { t with backend := s }),
    ("runtime", text fun s t => { t with runtime := s })]

def buildSetters : List (Text × Setter BuildTable) :=
  [("out_dir", text fun s t => { t with outDir := s }), ("jobs", integer fun i t => { t with jobs := i }),
    ("inputs", texts fun ss t => { t with inputs := ss })]

def traceSetters : List (Text × Setter TraceTable) :=
  [("level", text fun s t => { t with level := s }), ("output", text fun s t => { t with output := s }),
    ("mode", text fun s t => { t with mode := s }), ("format", text fun s t => { t with format := s })]

def setters : List (Text × Setter Manifest) :=
  [("module", table moduleSetters Manifest.module fun t m => { m with module := t }),
    ("build", table buildSetters Manifest.build fun t m => { m with build := t }),
    ("trace", table traceSetters Manifest.trace fun t m => { m with trace := t })]

/-! ### Reading -/

/-- Checks the values of a manifest: blanks around the name and capitals of the backend do not count. -/
def checked (m : Manifest) : Except Fault Manifest := do
  let name := m.module.name.trim
  if name.isEmpty then throw (.plain "[module].name must not be empty")
  let backend := m.module.backend.toLower
  if (Backend.ofName? backend).isNone then
    throw (.plain (Text.join ["[module].backend ", m.module.backend.quoted, " is not textual or dynamic"]))
  if m.build.jobs < 0 then throw (.plain ("[build].jobs must be >= 0, got " ++ Text.ofInt m.build.jobs))
  let within {α : Type} (context : Text) (x : Except Fault α) : Except Fault α := x.mapError (Fault.within context)
  let _ ← within "[trace].level" (Trace.Level.parse m.trace.level)
  let _ ← within "[trace].mode" (Trace.Mode.parse m.trace.mode)
  let _ ← within "[trace].format" (Trace.Format.parse m.trace.format)
  return { m with module := { m.module with name, backend } }

/-- Reads the text of a manifest. -/
def parse (t : Text) : Except Fault Manifest :=
  match (Toml.read? t).bind fun entries => takeOver setters entries {} with
  | none => .error .malformedManifest
  | some m => m.checked

end Manifest

/-! ### Finding -/

/-- A manifest and where it was found. -/
structure Project where
  path : Text
  manifest : Manifest
deriving DecidableEq, Inhabited

namespace Project

/-- The directory of the manifest. -/
def root (p : Project) : Text := Path.directory p.path

/-- The path of the nearest manifest from a directory upwards; the names of the directory come innermost
    first. -/
def find? (fs : Files) (directory : List Text) : Except Fault (Option Text) :=
  let candidate := Path.ofNames (Manifest.fileName :: directory).reverse
  match fs.status candidate with
  | .ok _ => .ok (some candidate)
  | .error .missing =>
    match directory with
    | [] => .ok none
    | _ :: above => find? fs above
  | .error e =>
    .error (.plain (Text.join ["failed to stat ", candidate.quoted, ": stat ", candidate, ": ", e.message]))

/-- The project around a directory, if there is one. -/
def load (fs : Files) (directory : Text) : Except Fault (Option Project) := do
  match ← find? fs (Path.names (Path.absolute fs.currentPath directory)).reverse with
  | none => return none
  | some path =>
    let manifest ← (match fs.status path with
      | .ok (.file content) => Manifest.parse ⟨content⟩
      | _ => .error .malformedManifest).mapError (Fault.within path)
    return some { path, manifest }

/-- A path of the manifest, seen from its directory. -/
def resolve (p : Project) (path : Text) : Text := if Path.isAbsolute path then path else Path.join p.root path

/-- The inputs of the manifest. -/
def inputs (p : Project) : List Text := p.manifest.build.inputs.map p.resolve

/-- The output directory of the manifest; none is the working directory. -/
def outDir (p : Project) : Text :=
  if p.manifest.build.outDir.isEmpty then .empty else p.resolve p.manifest.build.outDir

end Project
end CilCompiler
