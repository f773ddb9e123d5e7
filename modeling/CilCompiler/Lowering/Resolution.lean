import CilCompiler.Symbols

/-!
Resolution of members by name and argument types. Members are looked for on a type, then on its bases, and
last on the root of all types. Overloads are chosen by exact parameter types; only null fits any reference.
-/

namespace CilCompiler

namespace Symbols

/-- The field of a name on a type or its bases. -/
def fieldAlong (s : Symbols) (object t : Ty) (name : Text) : Except Fault Field :=
  match (Ty.lineage object t).findSome? fun c => (s.fieldsOf c).find? fun f => f.name = name with
  | some f => .ok f
  | none => .error (.lookup (.missingField t.name name))

/-- The methods of a name on a type and its bases. -/
def methodsAlong (s : Symbols) (object t : Ty) (name : Text) : List Method :=
  (Ty.lineage object t).flatMap fun c => s.methodsOf c name

/-- The candidates of a call. -/
def candidates (s : Symbols) (object t : Ty) (name : Text) (isStatic : Bool) : List Method :=
  (s.methodsAlong object t name).filter fun m => m.isStatic == isStatic

end Symbols

namespace Ty

/-- Whether arguments fit parameters, null any reference. -/
def fits : List (Option Ty) → List (Option Ty) → Bool
  | [], [] => true
  | p :: ps, a :: as => accepts p a && fits ps as
  | _, _ => false

/-- The type all candidates agree on. -/
def agreed : List (Option Ty) → Option Ty
  | [] => none
  | t :: ts => if ts.all fun u => same t u then t else none

/-- For each argument of a call the parameter type that all candidates of that arity agree on. -/
def hints (candidates : List Method) (arity : Nat) : List (Option Ty) :=
  let rows := (candidates.map Method.params).filter fun ps => ps.length = arity
  (List.range arity).map fun i => agreed (rows.map fun ps => (ps[i]?).join)

end Ty

namespace Symbols

/-- The first method that null arguments fit. -/
def matchNull? (s : Symbols) (t : Ty) (name : Text) (args : List (Option Ty)) (isStatic : Bool) : Option Method :=
  if args.contains none then
    (s.methodsOf t name).find? fun m => m.isStatic == isStatic && Ty.fits m.params args
  else none

/-- Of two failures to find a method, the one that says more: a wrong overload wins over no method. -/
def clearer (first : Option Fault) (f : Fault) : Fault :=
  match first with
  | none => f
  | some g => if g.code? ≠ some .noOverload ∧ f.code? = some .noOverload then f else g

/-- The overload of a call on one of the types, nearest first. -/
def resolveAlong (s : Symbols) (name : Text) (args : List (Option Ty)) (isStatic : Bool) (failed : Option Fault) :
    List Ty → Except Fault Method
  | [] => .error (failed.getD (.lookup (.missingMethod .empty name)))
  | t :: rest =>
    match s.findMethod t name args isStatic with
    | .ok m => .ok m
    | .error f =>
      match s.matchNull? t name args isStatic with
      | some m => .ok m
      | none => s.resolveAlong name args isStatic (some (clearer failed f)) rest

/-- The overload of a call on a type or its bases. -/
def resolve (s : Symbols) (object t : Ty) (name : Text) (args : List (Option Ty)) (isStatic : Bool) :
    Except Fault Method :=
  s.resolveAlong name args isStatic none (Ty.lineage object t)

/-- The first method of a name, static or not where that is asked for, with exactly a delegate's
    signature. -/
def delegateTarget (s : Symbols) (object t : Ty) (name : Text) (only : Option Bool) (d : Delegate) (shownAs : Ty) :
    Except Fault Method :=
  let found := (s.methodsAlong object t name).filter fun m => only.all fun st => m.isStatic == st
  match found.find? fun m => Ty.sameList m.params d.params && Ty.same m.ret d.ret with
  | some m => .ok m
  | none =>
    if found.isEmpty then .error (.lookup (.missingMethod t.name name))
    else .error (.shape (.noDelegateTarget t.name name shownAs.name
      (Text.join [signature Method.invokeName d.params, " : ", Ty.shown d.ret])))

end Symbols
end CilCompiler
