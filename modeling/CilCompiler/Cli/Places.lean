import CilCompiler.Cli

/-!
The places a command line looks at, so that what is there can be known before it is carried out: first those
of manifests, and then, once the manifests are known, those of inputs, outputs and traces.
-/

namespace CilCompiler

namespace Files

/-- The places on the way along names. -/
def visitsFrom (place : List Text) : List Text → List (List Text)
  | [] => [place]
  | name :: names =>
    let next :=
      if name.isEmpty ∨ name = Path.here then place
      else if name = Path.up then place.dropLast
      else place ++ [name]
    place :: visitsFrom next names

/-- The places on the way along a path, and those above it. -/
def visits (current : List Text) (path : Text) : List (List Text) :=
  let start := if Path.isAbsolute path then [] else current
  visitsFrom [] start ++ visitsFrom start (path.splitOn '/')

end Files

namespace Cli

/-- The places where a manifest for a directory may be. -/
def manifestPlaces (current : List Text) : List (List Text) :=
  (Files.visitsFrom [] current).flatMap fun place => [place, place ++ [Manifest.fileName]]

/-- The paths a command line uses when its manifests are known. -/
def paths (env : Environment) (words : List Text) : List Text :=
  match parse words with
  | .error _ => []
  | .ok (_, a) =>
    let used := match Settings.resolve env.files a with
      | .error _ => []
      | .ok s =>
        let r := s.buildRequest .off
        r.target :: r.inputs ++ (r.plan env.files.currentPath).1.map BuildUnit.output
    let traced := match Project.load env.files Path.here with
      | .error _ => []
      | .ok p => [(Tracing.table p a).output]
    used ++ traced

/-- The places a command line looks at when its manifests are known. -/
def places (env : Environment) (words : List Text) : List (List Text) :=
  (paths env words).flatMap (Files.visits env.files.current)

end Cli
end CilCompiler
