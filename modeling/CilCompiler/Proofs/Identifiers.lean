import CilCompiler.Cil.Type
import CilCompiler.Tree
import Mathlib.Tactic.Tauto

/-!
Names that a program mentions. The names of types are those of fields, parameters, results and locals, and those in
expressions; bare names in expressions are not among them and stand for types that have been entered already. The
identifiers are the names that stand alone as expressions, wherever they are written. With the names of calls without a
target, they are all names that a variable can be meant by.
-/

namespace CilCompiler

mutual

/-- The names of types in an expression; an array that is made is named by its own type. -/
def Expr.typeNames : Expr → List Text
  | .missing | .int _ | .string _ | .bool _ | .null | .this | .ident _ => []
  | .member target _ => target.typeNames
  | .index array position => array.typeNames ++ position.typeNames
  | .binary _ left right => left.typeNames ++ right.typeNames
  | .unary _ operand => operand.typeNames
  | .call target _ args => target.typeNames ++ Expr.typeNamesAll args
  | .new type args => type :: Expr.typeNamesAll args
  | .newArray elem size => TypeName.array elem :: size.typeNames
  | .methodRef target _ delegate => (if delegate.isEmpty then [] else [delegate]) ++ target.typeNames

/-- The names of types in expressions. -/
def Expr.typeNamesAll : List Expr → List Text
  | [] => []
  | e :: rest => e.typeNames ++ Expr.typeNamesAll rest

end

mutual

/-- The names of types in a statement. -/
def Stmt.typeNames : Stmt → List Text
  | .return e => e.typeNames
  | .local _ type init => (if type.isEmpty then [] else [type]) ++ init.typeNames
  | .assign target e => target.typeNames ++ e.typeNames
  | .expr e => e.typeNames
  | .baseCall => []
  | .while cond body => cond.typeNames ++ Stmt.typeNamesAll body
  | .if cond yes no => cond.typeNames ++ (Stmt.typeNamesAll yes ++ Stmt.typeNamesAll no)

/-- The names of types in statements. -/
def Stmt.typeNamesAll : List Stmt → List Text
  | [] => []
  | s :: rest => s.typeNames ++ Stmt.typeNamesAll rest

end

/-- A name that may be left out. -/
def optionalName (n : Text) : List Text := if n.isEmpty then [] else [n]

def CtorDecl.typeNames (d : CtorDecl) : List Text := d.params.map Param.type ++ Stmt.typeNamesAll d.body

def MethodDecl.typeNames (d : MethodDecl) : List Text :=
  optionalName d.ret ++ d.params.map Param.type ++ Stmt.typeNamesAll d.body

def FieldDecl.typeNames (d : FieldDecl) : List Text := d.type :: d.init.typeNames

def ClassDecl.typeNames (d : ClassDecl) : List Text :=
  d.fields.flatMap FieldDecl.typeNames ++ d.ctors.flatMap CtorDecl.typeNames ++ d.methods.flatMap MethodDecl.typeNames

def DelegateDecl.typeNames (d : DelegateDecl) : List Text := optionalName d.ret ++ d.params.map Param.type

/-- The names of types in a program. -/
def Program.typeNames (p : Program) : List Text :=
  p.classes.flatMap ClassDecl.typeNames ++ p.delegates.flatMap DelegateDecl.typeNames

mutual

/-- The identifiers in an expression. -/
@[simp] def Expr.identifiers : Expr → List Text
  | .missing | .int _ | .string _ | .bool _ | .null | .this => []
  | .ident name => [name]
  | .member target _ => target.identifiers
  | .index array position => array.identifiers ++ position.identifiers
  | .binary _ left right => left.identifiers ++ right.identifiers
  | .unary _ operand => operand.identifiers
  | .call target _ args => target.identifiers ++ Expr.identifiersAll args
  | .new _ args => Expr.identifiersAll args
  | .newArray _ size => size.identifiers
  | .methodRef target _ _ => target.identifiers

/-- The identifiers in expressions. -/
@[simp] def Expr.identifiersAll : List Expr → List Text
  | [] => []
  | e :: rest => e.identifiers ++ Expr.identifiersAll rest

end

mutual

/-- The names in an expression that variables may have: the identifiers, and the names of calls without a target. -/
@[simp] def Expr.bareNames : Expr → List Text
  | .missing | .int _ | .string _ | .bool _ | .null | .this => []
  | .ident name => [name]
  | .member target _ => target.bareNames
  | .index array position => array.bareNames ++ position.bareNames
  | .binary _ left right => left.bareNames ++ right.bareNames
  | .unary _ operand => operand.bareNames
  | .call target name args =>
    if target.isMissing then name :: Expr.bareNamesAll args else target.bareNames ++ Expr.bareNamesAll args
  | .new _ args => Expr.bareNamesAll args
  | .newArray _ size => size.bareNames
  | .methodRef target _ _ => target.bareNames

/-- The names in expressions that variables may have. -/
@[simp] def Expr.bareNamesAll : List Expr → List Text
  | [] => []
  | e :: rest => e.bareNames ++ Expr.bareNamesAll rest

end

/-! ### Names that are seen -/

section Visible

variable (V S : Text → Prop)

/-- The identifiers in an expression are all of one kind, and the names of variables of another. -/
def Expr.Visible (e : Expr) : Prop := (∀ n ∈ e.identifiers, V n) ∧ ∀ n ∈ e.bareNames, S n

def Expr.AllVisible (es : List Expr) : Prop := (∀ n ∈ Expr.identifiersAll es, V n) ∧ ∀ n ∈ Expr.bareNamesAll es, S n

variable {V S}

namespace Expr

theorem visible_ident {name : Text} : (ident name).Visible V S ↔ V name ∧ S name := by
  simp [Visible]

theorem visible_member {target : Expr} {name : Text} : (member target name).Visible V S ↔ target.Visible V S := by
  simp [Visible]

theorem visible_index {array position : Expr} :
    (index array position).Visible V S ↔ array.Visible V S ∧ position.Visible V S := by
  simp only [Visible, identifiers, bareNames, List.forall_mem_append]
  exact and_and_and_comm

theorem visible_binary {op : BinaryOp} {left right : Expr} :
    (binary op left right).Visible V S ↔ left.Visible V S ∧ right.Visible V S := by
  simp only [Visible, identifiers, bareNames, List.forall_mem_append]
  exact and_and_and_comm

theorem visible_unary {op : UnaryOp} {operand : Expr} : (unary op operand).Visible V S ↔ operand.Visible V S := by
  simp [Visible]

theorem visible_call {target : Expr} {name : Text} {args : List Expr} : (call target name args).Visible V S ↔
    target.Visible V S ∧ (target.isMissing = true → S name) ∧ AllVisible V S args := by
  cases target <;> simp only [Visible, AllVisible, identifiers, bareNames, isMissing, if_true, if_false, Bool.false_eq_true,
    List.forall_mem_append, List.forall_mem_cons, List.not_mem_nil, List.nil_append] <;> tauto

theorem visible_new {type : Text} {args : List Expr} : (new type args).Visible V S ↔ AllVisible V S args := by
  simp [Visible, AllVisible]

theorem visible_newArray {elem : Text} {size : Expr} : (newArray elem size).Visible V S ↔ size.Visible V S := by
  simp [Visible]

theorem visible_methodRef {target : Expr} {name spelling : Text} :
    (methodRef target name spelling).Visible V S ↔ target.Visible V S := by
  simp [Visible]

theorem allVisible_cons {e : Expr} {rest : List Expr} :
    AllVisible V S (e :: rest) ↔ e.Visible V S ∧ AllVisible V S rest := by
  simp only [Visible, AllVisible, identifiersAll, bareNamesAll, List.forall_mem_append]
  exact and_and_and_comm

end Expr

end Visible

mutual

/-- The identifiers in a statement. -/
@[simp] def Stmt.identifiers : Stmt → List Text
  | .return e => e.identifiers
  | .local _ _ init => init.identifiers
  | .assign target e => target.identifiers ++ e.identifiers
  | .expr e => e.identifiers
  | .baseCall => []
  | .while cond body => cond.identifiers ++ Stmt.identifiersAll body
  | .if cond yes no => cond.identifiers ++ (Stmt.identifiersAll yes ++ Stmt.identifiersAll no)

/-- The identifiers in statements. -/
@[simp] def Stmt.identifiersAll : List Stmt → List Text
  | [] => []
  | s :: rest => s.identifiers ++ Stmt.identifiersAll rest

end

/-- The identifiers in the initial values and bodies of a class. -/
def ClassDecl.identifiers (d : ClassDecl) : List Text :=
  d.fields.flatMap (fun f => f.init.identifiers) ++ d.ctors.flatMap (fun c => Stmt.identifiersAll c.body) ++
    d.methods.flatMap fun m => Stmt.identifiersAll m.body

/-- The identifiers in a program. -/
def Program.identifiers (p : Program) : List Text := p.classes.flatMap ClassDecl.identifiers

end CilCompiler
