import CilCompiler.Text

/-!
The trees the compiler takes: programs of classes and delegates, whose bodies are statements and
expressions. Types are named, not resolved; an expression that a program leaves out is `missing`.
-/

namespace CilCompiler

inductive BinaryOp where
  | add | sub | mul | div | rem | and | or | eq | ne | lt | gt | le | ge
deriving DecidableEq, Inhabited

namespace BinaryOp

/-- The operators in the order of their numbers, which start at one. -/
def all : List BinaryOp := [.add, .sub, .mul, .div, .rem, .and, .or, .eq, .ne, .lt, .gt, .le, .ge]

def spelling : BinaryOp → Text
  | .add => "+"
  | .sub => "-"
  | .mul => "*"
  | .div => "/"
  | .rem => "%"
  | .and => "&"
  | .or => "|"
  | .eq => "=="
  | .ne => "!="
  | .lt => "<"
  | .gt => ">"
  | .le => "<="
  | .ge => ">="

def ofSpelling? (s : Text) : Option BinaryOp := all.find? fun op => op.spelling = s

/-- The number of an operator. -/
def number (op : BinaryOp) : Nat := all.idxOf op + 1

/-- Whether the operator yields a boolean. -/
def isComparison : BinaryOp → Bool
  | .eq | .ne | .lt | .gt | .le | .ge => true
  | _ => false

/-- The spelling of the operator of a number; zero is no operator. -/
def nameOfNumber (n : Nat) : Text :=
  if n = 0 then "?"
  else match all[n - 1]? with
    | some op => op.spelling
    | none => Text.join ["BinaryOp(", Text.ofNat n, ")"]

end BinaryOp

inductive UnaryOp where
  | neg | not
deriving DecidableEq, Inhabited

namespace UnaryOp

def spelling : UnaryOp → Text
  | .neg => "-"
  | .not => "!"

def ofSpelling? (s : Text) : Option UnaryOp :=
  if s = "-" then some .neg else if s = "!" then some .not else none

def number : UnaryOp → Nat
  | .neg => 1
  | .not => 2

def nameOfNumber (n : Nat) : Text := if n = 1 then "-" else if n = 2 then "!" else "?"

end UnaryOp

inductive Expr where
  /-- An expression that is left out. -/
  | missing
  | int (value : Int32)
  | string (value : Text)
  | bool (value : Bool)
  | null
  | this
  | ident (name : Text)
  | member (target : Expr) (name : Text)
  | index (array position : Expr)
  | binary (op : BinaryOp) (left right : Expr)
  | unary (op : UnaryOp) (operand : Expr)
  /-- A call; without a target it is a call on the enclosing type. -/
  | call (target : Expr) (name : Text) (args : List Expr)
  | new (type : Text) (args : List Expr)
  | newArray (elem : Text) (size : Expr)
  /-- A method taken as a delegate; `delegate` is empty where the context says which. -/
  | methodRef (target : Expr) (name delegate : Text)
deriving Inhabited

namespace Expr

/-- The names of the kinds of expression in the order of their numbers, which start at one. -/
def kindNames : List Text :=
  ["int", "string", "bool", "null", "this", "ident", "member", "index", "binary", "unary", "call", "new", "newarr",
    "methodref"]

def kindName : Expr → Text
  | .missing => ""
  | .int _ => "int"
  | .string _ => "string"
  | .bool _ => "bool"
  | .null => "null"
  | .this => "this"
  | .ident _ => "ident"
  | .member .. => "member"
  | .index .. => "index"
  | .binary .. => "binary"
  | .unary .. => "unary"
  | .call .. => "call"
  | .new .. => "new"
  | .newArray .. => "newarr"
  | .methodRef .. => "methodref"

def isMissing : Expr → Bool
  | .missing => true
  | _ => false

end Expr

/-- The name of the kind of expression with a number. -/
def exprKindName (n : Nat) : Text :=
  match n with
  | 0 => "ExprKind(0)"
  | k + 1 => Expr.kindNames.getD k (Text.join ["ExprKind(", Text.ofNat n, ")"])

inductive Stmt where
  | return (value : Expr)
  | local (name type : Text) (init : Expr)
  | assign (target value : Expr)
  | expr (value : Expr)
  /-- The call of the base constructor without arguments. -/
  | baseCall
  | while (condition : Expr) (body : List Stmt)
  | if (condition : Expr) (yes no : List Stmt)
deriving Inhabited

namespace Stmt

/-- The names of the kinds of statement in the order of their numbers, which start at one. -/
def kindNames : List Text := ["return", "local", "assign", "expr", "basector", "while", "if"]

def kindName : Stmt → Text
  | .return _ => "return"
  | .local .. => "local"
  | .assign .. => "assign"
  | .expr _ => "expr"
  | .baseCall => "basector"
  | .while .. => "while"
  | .if .. => "if"

end Stmt

/-- The name of the kind of statement with a number. -/
def stmtKindName (n : Nat) : Text :=
  match n with
  | 0 => "StmtKind(0)"
  | k + 1 => Stmt.kindNames.getD k (Text.join ["StmtKind(", Text.ofNat n, ")"])

structure Param where
  name : Text
  type : Text
deriving DecidableEq, Inhabited

structure FieldDecl where
  name : Text
  type : Text
  isStatic : Bool
  init : Expr
deriving Inhabited

structure CtorDecl where
  params : List Param
  body : List Stmt
deriving Inhabited

/-- A method; an empty `ret` is void. -/
structure MethodDecl where
  name : Text
  isStatic : Bool
  ret : Text
  params : List Param
  body : List Stmt
deriving Inhabited

structure ClassDecl where
  name : Text
  fields : List FieldDecl
  ctors : List CtorDecl
  methods : List MethodDecl
deriving Inhabited

/-- A delegate type: the signature of the methods its values stand for. -/
structure DelegateDecl where
  name : Text
  ret : Text
  params : List Param
deriving DecidableEq, Inhabited

structure Program where
  classes : List ClassDecl := []
  delegates : List DelegateDecl := []
deriving Inhabited

/-- The first class of a name. -/
def Program.class? (p : Program) (name : Text) : Option ClassDecl := p.classes.find? fun c => c.name = name

end CilCompiler
