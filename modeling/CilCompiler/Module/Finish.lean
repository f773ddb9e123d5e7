import CilCompiler.Module.Listing

/-!
Finishing a type. Its base must be one the module supports and its bodies must be balanced; from then on
it does not change. A textual module writes the type down, a dynamic one keeps the checked bodies.
-/

namespace CilCompiler

namespace Module

/-- Checks the body of a member and keeps it; one that the runtime implements has none. -/
def finishRoutine (x : Routine) : Except Fault Routine :=
  if x.impl = .runtime then .ok x
  else
    match x.draft.verify x.method.ret with
    | .ok b => .ok { x with body := some b }
    | .error f => .error (.within (Text.join [x.method.owner.name, "::", x.method.name]) f)

/-- Whether a dynamic module can run types derived from a base. -/
def supportsBase (b : Ty) : Bool := b.name = TypeName.object || b.name = TypeName.multicastDelegate

/-- Finishes members one after another up to the first that fails; the bodies found till then are kept. -/
def finishRoutines : List Routine → Except Fault Unit × List Routine
  | [] => (.ok (), [])
  | x :: rest =>
    match finishRoutine x with
    | .error f => (.error f, x :: rest)
    | .ok x =>
      let (result, rest) := finishRoutines rest
      (result, x :: rest)

/-- Finishes the members of a type, constructors first. -/
def finishMembers (d : TypeDef) : Except Fault Unit × TypeDef :=
  match finishRoutines d.ctors.toList with
  | (.error f, ctors) => (.error f, { d with ctors := ctors.toArray })
  | (.ok _, ctors) =>
    let (result, methods) := finishRoutines d.methods.toList
    (result, { d with ctors := ctors.toArray, methods := methods.toArray })

/-- What becomes of a type of a dynamic module. -/
def finishDef (d : TypeDef) : Except Fault Unit × TypeDef :=
  match d.type.base?.filter fun b => !supportsBase b with
  | some b => (.error (.backend (.unsupportedBase d.type.name b.name)), d)
  | none =>
    match finishMembers d with
    | (.error f, d) => (.error f, d)
    | (.ok _, d) => (.ok (), { d with isCreated := true })

/-- Finishes a type. One that cannot be finished stays open, but a dynamic module keeps the bodies it has
    checked. -/
def createType (m : Module) (t : Ty) : Except Fault Unit × Module :=
  match m.open? t "type body" with
  | .error f => (.error f, m)
  | .ok d =>
    match m.backend with
    | .textual =>
      match m.writeType t with
      | .ok m => (.ok (), m.modifyDef t fun d => { d with isCreated := true })
      | .error f => (.error f, m)
    | .dynamic =>
      let (result, d) := finishDef d
      (result, m.modifyDef t fun _ => d)

end Module
end CilCompiler
