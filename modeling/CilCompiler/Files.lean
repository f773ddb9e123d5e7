import CilCompiler.Fault
import CilCompiler.Path

/-!
Files and directories as a map from places to contents. A path is followed name by name from the working
directory or the root, and every name on the way must be that of a directory: `..` leads back only from a
directory that is there. A place is the list of names that lead to it from the root.
-/

namespace CilCompiler

/-- Why a path cannot be used. -/
inductive FileError where
  | missing
  | notDirectory
  | isDirectory
  | exists
  | nameTooLong
  | invalid
deriving DecidableEq, Inhabited

def FileError.message : FileError → Text
  | .missing => "no such file or directory"
  | .notDirectory => "not a directory"
  | .isDirectory => "is a directory"
  | .exists => "file exists"
  | .nameTooLong => "file name too long"
  | .invalid => "invalid argument"

/-- What is at a place. -/
inductive FileEntry where
  | directory
  | file (content : List UInt8)
deriving DecidableEq, Inhabited

structure Files where
  /-- What is at the places below the root. -/
  entries : List (List Text × FileEntry) := []
  /-- The place of the working directory. -/
  current : List Text := []
deriving DecidableEq, Inhabited

namespace Files

/-- The path of the working directory. -/
def currentPath (fs : Files) : Text := Path.ofNames fs.current

/-- What is at a place; the root is a directory. -/
def entry? (fs : Files) (place : List Text) : Option FileEntry :=
  if place.isEmpty then some .directory else fs.entries.lookup place

/-- Puts something at a place. -/
def put (fs : Files) (place : List Text) (e : FileEntry) : Files :=
  if fs.entries.any fun x => x.1 = place then
    { fs with entries := fs.entries.map fun x => if x.1 = place then (place, e) else x }
  else { fs with entries := fs.entries ++ [(place, e)] }

/-! ### Following paths -/

/-- The largest number of bytes in a name. -/
def maxName : Nat := 255

/-- The number of bytes that a path stays below. -/
def pathLimit : Nat := 4096

/-- Follows names from a place. The place it answers need not hold anything. -/
def follow (fs : Files) (place : List Text) : List Text → Except FileError (List Text)
  | [] => .ok place
  | name :: names =>
    match fs.entry? place with
    | none => .error .missing
    | some (.file _) => .error .notDirectory
    | some .directory =>
      if name.isEmpty ∨ name = Path.here then follow fs place names
      else if name = Path.up then follow fs place.dropLast names
      else if maxName < name.size then .error .nameTooLong
      else follow fs (place ++ [name]) names

/-- The place a path leads to. -/
def place (fs : Files) (path : Text) : Except FileError (List Text) :=
  if path.bytes.contains 0 then .error .invalid
  else if path.isEmpty then .error .missing
  else if pathLimit ≤ path.size then .error .nameTooLong
  else fs.follow (if Path.isAbsolute path then [] else fs.current) (path.splitOn '/')

/-- What a path leads to. -/
def status (fs : Files) (path : Text) : Except FileError FileEntry := do
  match fs.entry? (← fs.place path) with
  | some e => .ok e
  | none => .error .missing

/-- A path without slashes at its end, unless it is the root. -/
def withoutSlashes (path : Text) : Text :=
  let names : Text := ⟨(path.bytes.reverse.dropWhile fun b => b = 47).reverse⟩
  if names.isEmpty then path else names

/-! ### Changes -/

/-- Gives the file at a path a content; the file need not be there, but its directory must. A path that ends
    in a slash cannot be that of a file. -/
def write (fs : Files) (path : Text) (content : List UInt8) : Except FileError Files := do
  let place ← fs.place (withoutSlashes path)
  if path.endsWith Path.slash ∨ fs.entry? place = some .directory then .error .isDirectory
  else .ok (fs.put place (.file content))

/-- Makes a directory at a path. -/
def makeDirectory (fs : Files) (path : Text) : Except FileError Files := do
  let place ← fs.place (withoutSlashes path)
  if (fs.entry? place).isSome then .error .exists else .ok (fs.put place .directory)

/-- The beginnings of a path that end in front of the slash before a further name, and the path itself. -/
def stages (path : Text) : List Text :=
  let rec go (before : List UInt8) : List UInt8 → List (List UInt8)
    | [] => []
    | [b] => [before ++ [b]]
    | b :: c :: rest =>
      let later := go (before ++ [b]) (c :: rest)
      if b = 47 ∧ c ≠ 47 ∧ !before.isEmpty then before :: later else later
  (go [] path.bytes).map Text.mk

/-- Makes sure that there is a directory at a path. -/
def ensureDirectory (fs : Files) (path : Text) : Except FileError Files :=
  match fs.status path with
  | .ok .directory => .ok fs
  | .ok (.file _) => .error .notDirectory
  | .error _ => fs.makeDirectory path

/-- Makes the directory at a path and those on the way to it. An error comes with the path it is about. -/
def makeDirectories (fs : Files) (path : Text) : Except (Text × FileError) Files :=
  (stages path).foldlM (fun fs p =>
    match fs.ensureDirectory p with
    | .ok fs => .ok fs
    | .error e => .error (p, e)) fs

end Files
end CilCompiler
