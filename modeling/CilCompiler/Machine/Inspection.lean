import CilCompiler.Json
import CilCompiler.Machine.Heap

/-!
Values for inspection: a value with what it leads to, as JSON. Values lead to each other in circles, so an
inspection stops at a depth and then shows only what kind of value there is.
-/

namespace CilCompiler

namespace Heap

/-- The members that hold for the kind of a value. -/
def inspectMembers (h : Heap) (inspect : Value → Json) : Value → List (Text × Json)
  | .null => []
  | .int n => [("i", .ofInt n.toInt)]
  | .str s => [("s", .string s)]
  | .func m => [("fn", Json.ofText? (m.map Method.qualified))]
  | .addr a => [("to", inspect (h.load a))]
  | .arr id =>
    match h.arrays[id]? with
    | some a => [("elem", .string a.elem.name), ("items", cells a.first a.count)]
    | none => []
  | .obj id =>
    match h.objects[id]? with
    | some o =>
      ("type", .string o.type.name) :: ("fields", cells o.first o.count) ::
        ((match o.boxed with
          | some b => [("boxed", inspect b)]
          | none => []) ++
        (match o.method with
          | some m => [("method", .string m.qualified), ("target", inspect o.target)]
          | none => []) ++
        (match o.buffer with
          | some t => [("text", .string t)]
          | none => []))
    | none => []
where
  /-- The values of neighbouring cells. -/
  cells (first count : Nat) : Json := .array ((List.range count).map fun i => inspect (h.load (.cell (first + i))))

/-- A value down to a depth. -/
def inspect (h : Heap) : (depth : Nat) → Value → Json
  | 0, v => .object [("kind", .string v.kindName)]
  | depth + 1, v => .object (("kind", .string v.kindName) :: h.inspectMembers (h.inspect depth) v)

end Heap
end CilCompiler
