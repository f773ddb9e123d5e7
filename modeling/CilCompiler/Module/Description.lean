import CilCompiler.Json
import CilCompiler.Module

/-!
Descriptions of types: what a module says about a type and its members, as JSON.
-/

namespace CilCompiler

namespace Module

/-- A type with the members that a selection admits. -/
def describe (m : Module) (t : Ty) (sel : Binding) : Json :=
  let texts (ts : List Text) : Json := .array (ts.map Json.string)
  let flags : List (Text × Json) :=
    [("value_type", .bool t.isValue), ("array", .bool t.isArray), ("delegate", .bool t.isDelegate),
      ("void", .bool t.isVoid),
      ("created", .bool (m.isCreated t))]
  .object (("name", .string t.name) :: ("module", .string t.assembly) ::
    ("base", .ofText? ((m.baseOf t).map Ty.name)) :: ("elem", .ofText? (t.elem?.map Ty.name)) ::
    ("invoke", .ofText? ((m.invoke? t).map Method.qualified)) ::
    ("fields", texts ((m.fields t sel).map Field.describe)) ::
    ("methods", texts ((m.methods t sel).map Method.describe)) ::
    ("ctors", texts ((m.ctors t sel).map Method.qualified)) :: flags)

end Module
end CilCompiler
