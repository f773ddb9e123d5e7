import CilCompiler.Cil.Type
import CilCompiler.Tree

/-!
The meaning of bodies over numbers and booleans. Every name has one slot for the whole body, which holds a 32-bit
number and starts at zero; a boolean is one or zero. Sums, differences and products wrap around, quotients are
truncated, both operands of an operator are evaluated, the left one first, and a loop is tested before each round.
-/

namespace CilCompiler

/-- What a slot stands for. -/
inductive Kind where
  | int
  | bool
deriving DecidableEq, Inhabited

def Ty.kind? (t : Ty) : Option Kind :=
  if t.name = TypeName.int32 then some .int else if t.name = TypeName.boolean then some .bool else none

/-- Why a body ends without a result. -/
inductive Trap where
  | divideByZero
  | overflow
deriving DecidableEq, Inhabited

namespace Numeric

/-! ### Names -/

/-- The names in scope with their kinds, those declared last first. -/
abbrev Kinds := List (Text × Kind)

def Kinds.kind? (κ : Kinds) (x : Text) : Option Kind := (κ.find? fun e => e.1 = x).map Prod.snd

/-- The kind of an expression's value. -/
def kind (κ : Kinds) : Expr → Kind
  | .bool _ => .bool
  | .ident x => (κ.kind? x).getD .int
  | .unary _ e => kind κ e
  | .binary op l _ => if op.isComparison then .bool else kind κ l
  | _ => .int

/-- The kind of a declared local: that of its type, or of its initial value. -/
def declared (kindOf : Text → Option Kind) (κ : Kinds) (type : Text) (init : Expr) : Kind :=
  if type.isEmpty then kind κ init else (kindOf type).getD .int

mutual

/-- The names in scope behind a statement; what is declared anywhere in it stays in scope. -/
def after (kindOf : Text → Option Kind) (κ : Kinds) : Stmt → Kinds
  | .local x type init => if x.isEmpty then κ else (x, declared kindOf κ type init) :: κ
  | .while _ body => afterAll kindOf κ body
  | .if _ yes no => afterAll kindOf (afterAll kindOf κ yes) no
  | _ => κ

/-- The names in scope behind statements. -/
def afterAll (kindOf : Text → Option Kind) (κ : Kinds) : List Stmt → Kinds
  | [] => κ
  | s :: rest => afterAll kindOf (after kindOf κ s) rest

end

/-! ### The bodies that are meant -/

/-- An expression of literals, names in scope and operators. -/
def isExpr (κ : Kinds) : Expr → Bool
  | .int _ | .bool _ => true
  | .ident x => (κ.kind? x).isSome
  | .unary _ e => isExpr κ e
  | .binary _ l r => isExpr κ l && isExpr κ r
  | _ => false

mutual

/-- A statement that declares and assigns names, chooses, loops or returns. The test of a loop is behind its body. -/
def isStmt (kindOf : Text → Option Kind) (κ : Kinds) : Stmt → Bool
  | .return e => e.isMissing || isExpr κ e
  | .local _ type init => (type.isEmpty || (kindOf type).isSome) && (init.isMissing || isExpr κ init)
  | .assign (.ident x) e => (κ.kind? x).isSome && isExpr κ e
  | .while cond body => isBlock kindOf κ body && isExpr (afterAll kindOf κ body) cond
  | .if cond yes no => isExpr κ cond && isBlock kindOf κ yes && isBlock kindOf (afterAll kindOf κ yes) no
  | _ => false

/-- Statements, each with what is declared before it in scope. -/
def isBlock (kindOf : Text → Option Kind) (κ : Kinds) : List Stmt → Bool
  | [] => true
  | s :: rest => isStmt kindOf κ s && isBlock kindOf (after kindOf κ s) rest

end

/-! ### Expressions -/

/-- The number of a truth value. -/
def truth (b : Bool) : Int32 := if b then 1 else 0

/-- A quotient or a remainder, unless there is none or it is not a 32-bit number. -/
def divide (f : Int → Int → Int) (a b : Int32) : Except Trap Int32 :=
  if b.toInt = 0 then .error .divideByZero
  else if a.toInt = -2147483648 ∧ b.toInt = -1 then .error .overflow
  else .ok (Int32.ofInt (f a.toInt b.toInt))

def applyBinary (op : BinaryOp) (a b : Int32) : Except Trap Int32 :=
  match op with
  | .add => .ok (Int32.ofInt (a.toInt + b.toInt))
  | .sub => .ok (Int32.ofInt (a.toInt - b.toInt))
  | .mul => .ok (Int32.ofInt (a.toInt * b.toInt))
  | .div => divide Int.tdiv a b
  | .rem => divide Int.tmod a b
  | .and => .ok (a &&& b)
  | .or => .ok (a ||| b)
  | .eq => .ok (truth (a.toInt = b.toInt))
  | .ne => .ok (truth (a.toInt ≠ b.toInt))
  | .lt => .ok (truth (a.toInt < b.toInt))
  | .gt => .ok (truth (b.toInt < a.toInt))
  | .le => .ok (truth (a.toInt ≤ b.toInt))
  | .ge => .ok (truth (b.toInt ≤ a.toInt))

/-- Negation of a number, of a truth value, or of the bits of a number. -/
def applyUnary (op : UnaryOp) (k : Kind) (a : Int32) : Int32 :=
  match op, k with
  | .neg, _ => Int32.ofInt (-a.toInt)
  | .not, .bool => truth (a.toInt = 0)
  | .not, .int => ~~~a

/-- What the names hold. -/
abbrev Slots := Text → Int32

def Slots.set (σ : Slots) (x : Text) (v : Int32) : Slots := fun y => if y = x then v else σ y

/-- The value of an expression. -/
def eval (κ : Kinds) (σ : Slots) : Expr → Except Trap Int32
  | .int v => .ok v
  | .bool b => .ok (truth b)
  | .ident x => .ok (σ x)
  | .unary op e => do
    let v ← eval κ σ e
    return applyUnary op (kind κ e) v
  | .binary op l r => do
    let a ← eval κ σ l
    let b ← eval κ σ r
    applyBinary op a b
  | _ => .ok 0

/-! ### Statements -/

/-- How statements end. -/
inductive Ending where
  /-- Control goes on behind them. -/
  | falls (σ : Slots)
  | returns (v : Option Int32)
  | traps (t : Trap)

/-- Runs statements, with at most `fuel` of them in a row and inside each other; none where that is not enough. -/
def run (kindOf : Text → Option Kind) : (fuel : Nat) → Kinds → Slots → List Stmt → Option Ending
  | 0, _, _, _ => none
  | _ + 1, _, σ, [] => some (.falls σ)
  | fuel + 1, κ, σ, s :: rest =>
    match s with
    | .return e =>
      if e.isMissing then some (.returns none)
      else
        match eval κ σ e with
        | .ok v => some (.returns (some v))
        | .error t => some (.traps t)
    | .local x type init =>
      if init.isMissing then run kindOf fuel (after kindOf κ (.local x type init)) σ rest
      else
        match eval κ σ init with
        | .ok v => run kindOf fuel (after kindOf κ (.local x type init)) (σ.set x v) rest
        | .error t => some (.traps t)
    | .assign (.ident x) e =>
      match eval κ σ e with
      | .ok v => run kindOf fuel κ (σ.set x v) rest
      | .error t => some (.traps t)
    | .while cond body =>
      match eval (afterAll kindOf κ body) σ cond with
      | .error t => some (.traps t)
      | .ok v =>
        if v = 0 then run kindOf fuel (afterAll kindOf κ body) σ rest
        else
          match run kindOf fuel κ σ body with
          | some (.falls σ) => run kindOf fuel κ σ (.while cond body :: rest)
          | ending => ending
    | .if cond yes no =>
      match eval κ σ cond with
      | .error t => some (.traps t)
      | .ok v =>
        match if v = 0 then run kindOf fuel (afterAll kindOf κ yes) σ no else run kindOf fuel κ σ yes with
        | some (.falls σ) => run kindOf fuel (afterAll kindOf (afterAll kindOf κ yes) no) σ rest
        | ending => ending
    | _ => none

/-- What the names hold at first: parameters their arguments, the first of a name where several have it, and all
    other names zero. -/
def entrySlots (params : List Param) (args : List Int32) : Slots := fun x =>
  (((params.map Param.name).zip args).find? fun e => e.1 = x).elim 0 Prod.snd

/-- The names in scope at first. -/
def entryKinds (kindOf : Text → Option Kind) (params : List Param) : Kinds :=
  params.map fun q => (q.name, (kindOf q.type).getD .int)

/-- A static method over numbers and booleans. -/
def isMethod (kindOf : Text → Option Kind) (m : MethodDecl) : Bool :=
  m.isStatic && (m.params.all fun q => (kindOf q.type).isSome) && isBlock kindOf (entryKinds kindOf m.params) m.body

/-- How a method ends, if it does so within `fuel`. A body that falls through returns nothing. -/
def runMethod (kindOf : Text → Option Kind) (fuel : Nat) (m : MethodDecl) (args : List Int32) :
    Option (Except Trap (Option Int32)) :=
  match run kindOf fuel (entryKinds kindOf m.params) (entrySlots m.params args) m.body with
  | some (.falls _) => some (.ok none)
  | some (.returns v) => some (.ok v)
  | some (.traps t) => some (.error t)
  | none => none

end Numeric
end CilCompiler
