import CilCompiler.Text
import CilCompiler.Json.Writer

/-! The version of the tool and how it is shown: plain, in colours by its three numbers, or as JSON. A styled text is
    a text between the codes that switch a style of the terminal on and off again; without colours it is the text
    itself. -/

namespace CilCompiler

/-! ### Styled texts -/

/-- A foreground colour by its code; every style is bold. -/
inductive Style where
  | red
  | green
  | yellow
  | blue
deriving DecidableEq, Inhabited

namespace Style

def code : Style → Text
  | .red => "31"
  | .green => "32"
  | .yellow => "33"
  | .blue => "34"

/-- The text in a style, if colours are in use. -/
def paint (s : Style) (isColored : Bool) (t : Text) : Text :=
  if isColored then Text.join ["\x1b[", s.code, ";1m", t, "\x1b[0;22m"] else t

end Style

/-! ### Versions -/

/-- What is known about a build of the tool. -/
structure Version where
  version : Text := "0.1.0-dev"
  commit : Text := .empty
  message : Text := .empty
  date : Text := .empty
deriving DecidableEq, Inhabited

namespace Version

/-- The name of the tool. -/
def tool : Text := "ilforge"

/-- What the tool is for, in a few words. -/
def tagline : Text := "syntax trees in, CIL out"

/-- The version text; a build without one is called `dev`. -/
def current (v : Version) : Text := if v.version.trim.isEmpty then "dev" else v.version.trim

/-- The bytes before a suffix for a preview or a build, and the suffix. -/
def splitSuffix (t : Text) : Text × Text :=
  let isMark (b : UInt8) : Bool := b = 45 || b = 43
  (⟨t.bytes.takeWhile fun b => !isMark b⟩, ⟨t.bytes.dropWhile fun b => !isMark b⟩)

/-- The version with its three numbers in colours; what stands behind the second point belongs to the
    third. A version without three numbers is shown plain. -/
def colored (v : Version) (isColored : Bool) : Text :=
  let (core, suffix) := splitSuffix v.current
  match core.splitOn '.' with
  | major :: minor :: patch :: rest =>
    Text.join [Style.yellow.paint isColored major, ".", Style.green.paint isColored minor, ".",
      Style.blue.paint isColored (Text.sepBy "." (patch :: rest)), suffix]
  | _ => v.current

/-- A remark about the build, or that there is none. -/
def orUnknown (t : Text) : Text := if t.trim.isEmpty then "unknown" else t.trim

/-- The version for readers; `isFull` adds what is known about the build. -/
def pretty (v : Version) (isColored isFull : Bool) : Text :=
  let first := Text.join [tool, " ", v.colored isColored, " (", tagline, ")\n"]
  if isFull then
    Text.join [first, "commit:  ", orUnknown v.commit, "\nmessage: ", orUnknown v.message, "\nbuilt:   ",
      orUnknown v.date, "\n"]
  else first

/-- The version as JSON. -/
def json (v : Version) (isFull : Bool) : Text :=
  let full : List (Text × Json) :=
    ("git_commit", .string (orUnknown v.commit)) :: ("git_message", .string (orUnknown v.message)) ::
      [("build_date", .string (orUnknown v.date))]
  (Json.object (("tool", .string tool) :: ("version", .string v.current) :: (if isFull then full else []))).pretty

end Version
end CilCompiler
