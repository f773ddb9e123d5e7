import CilCompiler.Cil.Member

/-!
The types every module starts with. The catalog gives their names, bases and members, and for each method
and constructor what it does; aliases are the short spellings a program may use for them.
-/

namespace CilCompiler

/-- What a member of the catalog does when it is called. -/
inductive Native where
  | constructObject
  | objectText
  | boolText
  | objectEquals
  | objectHash
  | intCompare
  | intParse
  | pointerNumber
  | stringLength
  | stringPart
  | stringUpper
  | stringContains
  | stringConcat
  | stringEquals
  /-- Prints nothing or its argument, then possibly ends the line; a boolean shows as a word. -/
  | write (hasArgument isBool endsLine : Bool)
  | readLine
  | max
  | min
  | abs
  | constructBuilder
  | builderAppend
  | builderLength
deriving DecidableEq, Inhabited

namespace Host

structure FieldEntry where
  name : Text
  type : Text
  isStatic : Bool

structure CtorEntry where
  params : List Text
  native : Native

structure MethodEntry where
  name : Text
  isStatic : Bool := false
  isVirtual : Bool := false
  ret : Text
  params : List Text := []
  native : Native

structure TypeEntry where
  name : Text
  isValue : Bool := false
  base : Option Text := some TypeName.object
  fields : List FieldEntry := []
  ctors : List CtorEntry := []
  methods : List MethodEntry := []

open CilCompiler.TypeName in
/-- The types in order; a base stands before the types derived from it. -/
def catalog : List TypeEntry := [
  { name := object, base := none,
    ctors := [⟨[], .constructObject⟩],
    methods := [
      { name := "ToString", isVirtual := true, ret := string, native := .objectText },
      { name := "Equals", isVirtual := true, ret := boolean, params := [object], native := .objectEquals },
      { name := "GetHashCode", isVirtual := true, ret := int32, native := .objectHash }] },
  { name := void, isValue := true },
  { name := int32, isValue := true,
    methods := [
      { name := "ToString", isVirtual := true, ret := string, native := .objectText },
      { name := "CompareTo", ret := int32, params := [int32], native := .intCompare },
      { name := "Parse", isStatic := true, ret := int32, params := [string], native := .intParse }] },
  { name := boolean, isValue := true,
    methods := [{ name := "ToString", isVirtual := true, ret := string, native := .boolText }] },
  { name := intPtr, isValue := true,
    methods := [{ name := "ToInt32", ret := int32, native := .pointerNumber }] },
  { name := string,
    fields := [⟨"Empty", string, true⟩],
    methods := [
      { name := "get_Length", ret := int32, native := .stringLength },
      { name := "Substring", ret := string, params := [int32, int32], native := .stringPart },
      { name := "ToUpper", ret := string, native := .stringUpper },
      { name := "Contains", ret := boolean, params := [string], native := .stringContains },
      { name := "ToString", isVirtual := true, ret := string, native := .objectText },
      { name := "Concat", isStatic := true, ret := string, params := [string, string], native := .stringConcat },
      { name := "Equals", isStatic := true, ret := boolean, params := [string, string], native := .stringEquals }] },
  { name := delegate },
  { name := multicastDelegate, base := some delegate },
  { name := console,
    methods := [
      { name := "WriteLine", isStatic := true, ret := void, native := .write false false true },
      { name := "WriteLine", isStatic := true, ret := void, params := [string], native := .write true false true },
      { name := "WriteLine", isStatic := true, ret := void, params := [int32], native := .write true false true },
      { name := "WriteLine", isStatic := true, ret := void, params := [boolean], native := .write true true true },
      { name := "WriteLine", isStatic := true, ret := void, params := [object], native := .write true false true },
      { name := "Write", isStatic := true, ret := void, params := [string], native := .write true false false },
      { name := "Write", isStatic := true, ret := void, params := [int32], native := .write true false false },
      { name := "ReadLine", isStatic := true, ret := string, native := .readLine }] },
  { name := math,
    methods := [
      { name := "Max", isStatic := true, ret := int32, params := [int32, int32], native := .max },
      { name := "Min", isStatic := true, ret := int32, params := [int32, int32], native := .min },
      { name := "Abs", isStatic := true, ret := int32, params := [int32], native := .abs }] },
  { name := stringBuilder,
    ctors := [⟨[], .constructBuilder⟩, ⟨[string], .constructBuilder⟩],
    methods := [
      { name := "Append", ret := stringBuilder, params := [string], native := .builderAppend },
      { name := "Append", ret := stringBuilder, params := [int32], native := .builderAppend },
      { name := "get_Length", ret := int32, native := .builderLength },
      { name := "ToString", isVirtual := true, ret := string, native := .objectText }] }]

/-- The short spellings in byte order, each with the name of its type. -/
def aliases : List (Text × Text) :=
  ("Console", TypeName.console) :: ("Math", TypeName.math) :: ("StringBuilder", TypeName.stringBuilder) ::
    ("bool", TypeName.boolean) :: ("int", TypeName.int32) :: ("nint", TypeName.intPtr) ::
    ("object", TypeName.object) :: ("string", TypeName.string) :: [("void", TypeName.void)]

/-- The assembly the catalog's types live in when a module names no other. -/
def defaultAssembly : Text := "mscorlib"

/-- The key of a member: its type, name and parameter types. -/
def memberKey (type name : Text) (params : List Text) : Text :=
  Text.join [type, "::", name, "(", Text.sepBy "," params, ")"]

/-- The catalog's types in a module. Every entry finds its base among the types before it. -/
def typesFrom (module : Nat) (assembly : Text) (done : List Ty) : List TypeEntry → List Ty
  | [] => done
  | e :: rest =>
    let d : Declared := { module, index := done.length, assembly, name := e.name, isValue := e.isValue }
    let t := match e.base.bind fun b => done.find? fun t => t.name = b with
      | some b => Ty.derived d b
      | none => Ty.root d
    typesFrom module assembly (done ++ [t]) rest

def types (module : Nat) (assembly : Text) : List Ty := typesFrom module assembly [] catalog

end Host
end CilCompiler
