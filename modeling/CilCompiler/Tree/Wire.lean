import CilCompiler.Tree
import CilCompiler.Fault

/-! The interchange form of programs. Every expression and statement is one flat envelope, a node whose kind says
    which of its keys count; the others are ignored when a program is read and left empty when it is written. The
    lists of a form can be filled more than once while it is read: the items are kept in slots, and a list that is
    filled with fewer items than before hides the slots it does not use, so what was in them is there again when a
    later filling reaches so far. Only the items shown in the end are part of the program. `Program.ofWire` reads the
    form, `Program.toWire` writes it. -/

namespace CilCompiler

/-! ### Lists that can be filled again -/

/-- A list in slots: the items it shows, and those in the hidden slots behind them. -/
structure Slots (α : Type) where
  shown : List α := []
  hidden : List α := []
deriving Inhabited

namespace Slots

def ofList {α : Type} (items : List α) : Slots α := { shown := items }

/-- What is in the slots, shown or hidden. -/
def all {α : Type} (s : Slots α) : List α := s.shown ++ s.hidden

/-- Puts items into the first slots and shows these. -/
def refill {α : Type} (s : Slots α) (items : List α) : Slots α :=
  { shown := items, hidden := s.all.drop items.length }

/-- Reads one item for each of some values, on top of what is in its slot or else of `zero`. -/
def readOver {α β : Type} (zero : α) (read : α → β → Option α) : (old : List α) → List β → Option (List α)
  | _, [] => some []
  | old, v :: vs => do
    let x ← read (old.headD zero) v
    let xs ← readOver zero read old.tail vs
    return x :: xs

/-- Fills the first slots with what values are read as on top of their contents. -/
def readItems {α β : Type} (zero : α) (read : α → β → Option α) (s : Slots α) (vs : List β) : Option (Slots α) :=
  (readOver zero read s.all vs).map s.refill

@[simp] theorem shown_ofList {α : Type} (items : List α) : (ofList items).shown = items := rfl

@[simp] theorem all_ofList {α : Type} (items : List α) : (ofList items).all = items := by
  simp [ofList, all]

@[simp] theorem shown_refill {α : Type} (s : Slots α) (items : List α) : (s.refill items).shown = items := rfl

/-- A filling changes the slots it reaches and no others. -/
theorem all_refill {α : Type} (s : Slots α) (items : List α) :
    (s.refill items).all = items ++ s.all.drop items.length := rfl

end Slots

/-! ### Envelopes -/

namespace Wire

/-- The plain keys of a node. -/
structure Keys where
  name : Text := .empty
  type : Text := .empty
  int : Int32 := 0
  str : Text := .empty
  bool : Bool := false
  op : Text := .empty
deriving DecidableEq, Inhabited

/-- An envelope, or nothing where a node may stand. -/
inductive Node where
  | absent
  | node (kind : Text) (keys : Keys) (target left right : Node) (args body alternative : Slots Node)
deriving Inhabited

/-- A node without keys. -/
def Node.blank : Node := .node .empty {} .absent .absent .absent {} {} {}

/-- The node that keys are read on top of. -/
def Node.opened : Node → Node
  | .absent => .blank
  | n => n

/-- How one stored value is read, on top of what is there, as each kind of key. -/
structure KeyReader where
  text : Text → Option Text
  bool : Bool → Option Bool
  int : Int32 → Option Int32
  node : Node → Option Node
  nodes : Slots Node → Option (Slots Node)

/-- A node with the value of one key; unknown keys change nothing. -/
def Node.put (n : Node) (k : Text) (r : KeyReader) : Option Node :=
  match n with
  | .absent => none
  | .node kind keys target left right args body alternative =>
    if k = "k" then (r.text kind).map fun x => .node x keys target left right args body alternative
    else if k = "n" then
      (r.text keys.name).map fun x => .node kind { keys with name := x } target left right args body alternative
    else if k = "t" then
      (r.text keys.type).map fun x => .node kind { keys with type := x } target left right args body alternative
    else if k = "i" then
      (r.int keys.int).map fun x => .node kind { keys with int := x } target left right args body alternative
    else if k = "s" then
      (r.text keys.str).map fun x => .node kind { keys with str := x } target left right args body alternative
    else if k = "b" then
      (r.bool keys.bool).map fun x => .node kind { keys with bool := x } target left right args body alternative
    else if k = "o" then
      (r.text keys.op).map fun x => .node kind { keys with op := x } target left right args body alternative
    else if k = "x" then (r.node target).map fun x => .node kind keys x left right args body alternative
    else if k = "l" then (r.node left).map fun x => .node kind keys target x right args body alternative
    else if k = "r" then (r.node right).map fun x => .node kind keys target left x args body alternative
    else if k = "a" then (r.nodes args).map fun x => .node kind keys target left right x body alternative
    else if k = "body" then (r.nodes body).map fun x => .node kind keys target left right args x alternative
    else if k = "else" then (r.nodes alternative).map fun x => .node kind keys target left right args body x
    else some n

structure Field where
  name : Text := .empty
  type : Text := .empty
  isStatic : Bool := false
  init : Node := .absent
deriving Inhabited

/-- A method, or a constructor: then name, static mark and return type are empty. -/
structure Method where
  name : Text := .empty
  isStatic : Bool := false
  ret : Text := .empty
  params : Slots Param := {}
  body : Slots Node := {}
deriving Inhabited

structure Class where
  name : Text := .empty
  fields : Slots Field := {}
  ctors : Slots Method := {}
  methods : Slots Method := {}
deriving Inhabited

structure Delegate where
  name : Text := .empty
  ret : Text := .empty
  params : Slots Param := {}
deriving Inhabited

structure Program where
  schema : Nat := 0
  classes : Slots Class := {}
  delegates : Slots Delegate := {}
deriving Inhabited

end Wire

/-- The version of the form. -/
def Wire.schema : Nat := 1

open Wire (Node)

/-! ### Writing -/

mutual

def Expr.toWire : Expr → Node
  | .missing => .absent
  | .int v => .node "int" { int := v } .absent .absent .absent {} {} {}
  | .string s => .node "string" { str := s } .absent .absent .absent {} {} {}
  | .bool b => .node "bool" { bool := b } .absent .absent .absent {} {} {}
  | .null => .node "null" {} .absent .absent .absent {} {} {}
  | .this => .node "this" {} .absent .absent .absent {} {} {}
  | .ident n => .node "ident" { name := n } .absent .absent .absent {} {} {}
  | .member t n => .node "member" { name := n } t.toWire .absent .absent {} {} {}
  | .index a i => .node "index" {} .absent a.toWire i.toWire {} {} {}
  | .binary op l r => .node "binary" { op := op.spelling } .absent l.toWire r.toWire {} {} {}
  | .unary op x => .node "unary" { op := op.spelling } .absent x.toWire .absent {} {} {}
  | .call t n args => .node "call" { name := n } t.toWire .absent .absent (.ofList (Expr.listToWire args)) {} {}
  | .new t args => .node "new" { type := t } .absent .absent .absent (.ofList (Expr.listToWire args)) {} {}
  | .newArray e s => .node "newarr" { type := e } .absent s.toWire .absent {} {} {}
  | .methodRef t n d => .node "methodref" { name := n, type := d } t.toWire .absent .absent {} {} {}

def Expr.listToWire : List Expr → List Node
  | [] => []
  | e :: es => e.toWire :: Expr.listToWire es

end

mutual

def Stmt.toWire : Stmt → Node
  | .return v => .node "return" {} .absent v.toWire .absent {} {} {}
  | .local n t v => .node "local" { name := n, type := t } .absent v.toWire .absent {} {} {}
  | .assign t v => .node "assign" {} .absent t.toWire v.toWire {} {} {}
  | .expr v => .node "expr" {} .absent v.toWire .absent {} {} {}
  | .baseCall => .node "basector" {} .absent .absent .absent {} {} {}
  | .while c b => .node "while" {} .absent c.toWire .absent {} (.ofList (Stmt.listToWire b)) {}
  | .if c y n => .node "if" {} .absent c.toWire .absent {} (.ofList (Stmt.listToWire y)) (.ofList (Stmt.listToWire n))

def Stmt.listToWire : List Stmt → List Node
  | [] => []
  | s :: ss => s.toWire :: Stmt.listToWire ss

end

def FieldDecl.toWire (f : FieldDecl) : Wire.Field :=
  { name := f.name, type := f.type, isStatic := f.isStatic, init := f.init.toWire }

def CtorDecl.toWire (c : CtorDecl) : Wire.Method := { params := .ofList c.params, body := .ofList (Stmt.listToWire c.body) }

def MethodDecl.toWire (m : MethodDecl) : Wire.Method :=
  { name := m.name, isStatic := m.isStatic, ret := m.ret, params := .ofList m.params
    body := .ofList (Stmt.listToWire m.body) }

def ClassDecl.toWire (c : ClassDecl) : Wire.Class :=
  { name := c.name, fields := .ofList (c.fields.map FieldDecl.toWire), ctors := .ofList (c.ctors.map CtorDecl.toWire),
    methods := .ofList (c.methods.map MethodDecl.toWire) }

def DelegateDecl.toWire (d : DelegateDecl) : Wire.Delegate :=
  { name := d.name, ret := d.ret, params := .ofList d.params }

/-- The interchange form of a program. -/
def Program.toWire (p : Program) : Wire.Program :=
  { schema := Wire.schema, classes := .ofList (p.classes.map ClassDecl.toWire),
    delegates := .ofList (p.delegates.map DelegateDecl.toWire) }

/-! ### Reading -/

/-- A complaint about a node, before it is known where the node stands. -/
def Wire.unknown (what : Text) (spelling : Text) : Fault :=
  .plain (Text.join ["unknown ", what, " ", spelling.quoted])

mutual

/-- The expression a node stands for, by its kind. -/
def Expr.ofWire : Node → Except Fault Expr
  | .absent => .ok .missing
  | .node kind keys target left right ⟨args, _⟩ _ _ =>
    if kind = "int" then .ok (.int keys.int)
    else if kind = "string" then .ok (.string keys.str)
    else if kind = "bool" then .ok (.bool keys.bool)
    else if kind = "null" then .ok .null
    else if kind = "this" then .ok .this
    else if kind = "ident" then .ok (.ident keys.name)
    else if kind = "member" then do
      let t ← Expr.ofWire target
      return .member t keys.name
    else if kind = "index" then do
      let a ← Expr.ofWire left
      let i ← Expr.ofWire right
      return .index a i
    else if kind = "binary" then
      match BinaryOp.ofSpelling? keys.op with
      | none => .error (Wire.unknown "binary operator" keys.op)
      | some op => do
        let l ← Expr.ofWire left
        let r ← Expr.ofWire right
        return .binary op l r
    else if kind = "unary" then
      match UnaryOp.ofSpelling? keys.op with
      | none => .error (Wire.unknown "unary operator" keys.op)
      | some op => do
        let x ← Expr.ofWire left
        return .unary op x
    else if kind = "call" then do
      let t ← Expr.ofWire target
      let as ← Expr.listOfWire args
      return .call t keys.name as
    else if kind = "new" then do
      let as ← Expr.listOfWire args
      return .new keys.type as
    else if kind = "newarr" then do
      let s ← Expr.ofWire left
      return .newArray keys.type s
    else if kind = "methodref" then do
      let t ← Expr.ofWire target
      return .methodRef t keys.name keys.type
    else .error (Wire.unknown "expression kind" kind)

/-- The expressions of an argument list, where none may be left out. -/
def Expr.listOfWire : List Node → Except Fault (List Expr)
  | [] => .ok []
  | n :: ns => do
    let e ← Expr.ofWire n
    if e.isMissing then throw (.plain "missing expression")
    let es ← Expr.listOfWire ns
    return e :: es

end

mutual

/-- The statement a node stands for, by its kind. -/
def Stmt.ofWire : Node → Except Fault Stmt
  | .absent => .error (.plain "missing statement")
  | .node kind keys _ left right _ ⟨body, _⟩ ⟨alternative, _⟩ =>
    if kind = "return" then do
      let v ← Expr.ofWire left
      return .return v
    else if kind = "local" then do
      let v ← Expr.ofWire left
      return .local keys.name keys.type v
    else if kind = "assign" then do
      let t ← Expr.ofWire left
      let v ← Expr.ofWire right
      return .assign t v
    else if kind = "expr" then do
      let v ← Expr.ofWire left
      return .expr v
    else if kind = "basector" then .ok .baseCall
    else if kind = "while" then do
      let c ← Expr.ofWire left
      let b ← Stmt.listOfWire body
      return .while c b
    else if kind = "if" then do
      let c ← Expr.ofWire left
      let y ← Stmt.listOfWire body
      let n ← Stmt.listOfWire alternative
      return .if c y n
    else .error (Wire.unknown "statement kind" kind)

def Stmt.listOfWire : List Node → Except Fault (List Stmt)
  | [] => .ok []
  | n :: ns => do
    let s ← Stmt.ofWire n
    let ss ← Stmt.listOfWire ns
    return s :: ss

end

/-- A result, or its fault inside the name of what was being read. -/
def Wire.naming {α : Type} (context : List Text) (r : Except Fault α) : Except Fault α :=
  r.mapError (.within (Text.join context))

def FieldDecl.ofWire (owner : Text) (f : Wire.Field) : Except Fault FieldDecl := do
  let init ← Wire.naming [owner, ".", f.name] (Expr.ofWire f.init)
  return { name := f.name, type := f.type, isStatic := f.isStatic, init }

def CtorDecl.ofWire (owner : Text) (m : Wire.Method) : Except Fault CtorDecl := do
  let body ← Wire.naming [owner, "..ctor"] (Stmt.listOfWire m.body.shown)
  return { params := m.params.shown, body }

def MethodDecl.ofWire (owner : Text) (m : Wire.Method) : Except Fault MethodDecl := do
  let body ← Wire.naming [owner, ".", m.name] (Stmt.listOfWire m.body.shown)
  return { name := m.name, isStatic := m.isStatic, ret := m.ret, params := m.params.shown, body }

def ClassDecl.ofWire (c : Wire.Class) : Except Fault ClassDecl := do
  let fields ← c.fields.shown.mapM (FieldDecl.ofWire c.name)
  let ctors ← c.ctors.shown.mapM (CtorDecl.ofWire c.name)
  let methods ← c.methods.shown.mapM (MethodDecl.ofWire c.name)
  return { name := c.name, fields, ctors, methods }

def DelegateDecl.ofWire (d : Wire.Delegate) : DelegateDecl :=
  { name := d.name, ret := d.ret, params := d.params.shown }

/-- The program of an interchange form of the version this library reads. -/
def Program.ofWire (w : Wire.Program) : Except Fault Program := do
  unless w.schema = Wire.schema do
    throw (.plain (Text.join ["unsupported syntax tree schema ", Text.ofNat w.schema, " (want ",
      Text.ofNat Wire.schema, ")"]))
  let classes ← w.classes.shown.mapM ClassDecl.ofWire
  return { classes, delegates := w.delegates.shown.map DelegateDecl.ofWire }

end CilCompiler
