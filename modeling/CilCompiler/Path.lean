import CilCompiler.Text

/-!
Paths of files: names between slashes. A path that starts with a slash is absolute; `.` is the directory
itself and `..` the one above. `clean` gives the shortest path that means the same without looking at any
file, and the other operations give clean paths.
-/

namespace CilCompiler

namespace Path

def slash : Text := "/"

/-- The name of the directory itself. -/
def here : Text := "."

/-- The name of the directory above. -/
def up : Text := ".."

def isAbsolute (p : Text) : Bool := p.startsWith slash

/-- Puts a name on a stack of names: the name of the directory itself and an empty name change nothing, and
    the directory above takes the top name off. Above the root is the root. -/
def push (isRooted : Bool) (stack : List Text) (name : Text) : List Text :=
  if name.isEmpty ∨ name = here then stack
  else if name = up then
    match stack with
    | [] => if isRooted then [] else [up]
    | top :: rest => if top = up then up :: stack else rest
  else name :: stack

/-- The names of a clean path. -/
def names (p : Text) : List Text := ((p.splitOn '/').foldl (push (isAbsolute p)) []).reverse

/-- The absolute path of names. -/
def ofNames (ns : List Text) : Text := slash ++ Text.sepBy slash ns

/-- The shortest path with the same meaning. -/
def clean (p : Text) : Text :=
  if isAbsolute p then ofNames (names p)
  else if (names p).isEmpty then here
  else Text.sepBy slash (names p)

/-- A path below another; an empty path is left out. -/
def join (a b : Text) : Text :=
  if a.isEmpty then if b.isEmpty then .empty else clean b else clean (Text.join [a, slash, b])

/-- A path seen from a directory. -/
def absolute (directory p : Text) : Text := if isAbsolute p then clean p else join directory p

/-- The bytes behind the last slash. -/
def behindSlash (p : Text) : Text := ⟨(p.bytes.reverse.takeWhile fun b => b ≠ 47).reverse⟩

/-- The last name of a path. -/
def base (p : Text) : Text :=
  if p.isEmpty then here
  else
    let q : Text := ⟨(p.bytes.reverse.dropWhile fun b => b = 47).reverse⟩
    if q.isEmpty then slash else behindSlash q

/-- The ending of the last name from its last point on. -/
def extension (p : Text) : Text :=
  let name := (behindSlash p).bytes
  if name.contains 46 then ⟨46 :: (name.reverse.takeWhile fun b => b ≠ 46).reverse⟩ else .empty

/-- The directory of a path. -/
def directory (p : Text) : Text := clean ⟨(p.bytes.reverse.dropWhile fun b => b ≠ 47).reverse⟩

/-- The last name of a path without its ending. -/
def stem (p : Text) : Text := (base p).dropEnd (extension (base p))

/-- What two lists of names do not share at their beginning. -/
def dropCommon : List Text → List Text → List Text × List Text
  | a :: as, b :: bs => if a = b then dropCommon as bs else (a :: as, b :: bs)
  | as, bs => (as, bs)

/-- The path that leads from one path to another, if their names say it. -/
def relative? (origin target : Text) : Option Text :=
  if clean origin = clean target then some here
  else if isAbsolute origin ≠ isAbsolute target then none
  else
    let targets := if clean target = here then [here] else names target
    match dropCommon (names origin) targets with
    | (o :: os, t :: ts) =>
      if o = up then none else some (Text.sepBy slash ((o :: os).map (fun _ => up) ++ t :: ts))
    | (os, ts) => some (Text.sepBy slash (os.map (fun _ => up) ++ ts))

/-- Whether a path leads out of the directory it starts from. -/
def leadsOut (p : Text) : Bool := p = up || p.startsWith (up ++ slash)

/-- A path below a directory as seen from there; any other path stays. -/
def shownFrom (directory p : Text) : Text :=
  if directory.isEmpty ∨ p.isEmpty then p
  else match relative? directory p with
    | some r => if leadsOut r ∨ isAbsolute r then p else r
    | none => p

/-- Paths as a reader sees them from a directory: those below it without its name. Both are taken from the
    directory `current` where they are not absolute. -/
def displayNames (current directory : Text) (ps : List Text) : List Text :=
  let origin := directory.trim
  if origin.isEmpty then ps
  else ps.map fun p =>
    match relative? (absolute current origin) (absolute current p) with
    | some r => if leadsOut r then p else r
    | none => p

end Path
end CilCompiler
