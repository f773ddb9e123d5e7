import CilCompiler.Json.Reader
import CilCompiler.Json.Writer
import CilCompiler.Text
import CilCompiler.Tree.Wire

/-!
The JSON form of programs. Keys are read without regard to letter case and unknown keys are skipped.
A key that is left out or `null` leaves what is there, and a key that occurs again is read on top of
what the earlier one left: an item of a list on top of what is in its slot. A list that is `null` or empty
clears the slots. Only the first value of a text is read. Writing leaves out every key whose value is empty,
except those that are always written.
-/

namespace CilCompiler
namespace Wire

/-! ### Reading -/

/-- A text on top of `old`. -/
def readText (old : Text) : Json → Option Text
  | .null => some old
  | .string s => some s
  | _ => none

def readBool (old : Bool) : Json → Option Bool
  | .null => some old
  | .bool b => some b
  | _ => none

/-- A signed 32-bit integer on top of `old`. -/
def readInt32 (old : Int32) : Json → Option Int32
  | .null => some old
  | v => v.int?.bind fun i => if -2147483648 ≤ i ∧ i ≤ 2147483647 then some (Int32.ofInt i) else none

/-- An unsigned 16-bit integer on top of `old`. -/
def readNat16 (old : Nat) : Json → Option Nat
  | .null => some old
  | v => v.nat?.bind fun n => if n < 65536 then some n else none

/-- A list, item by item on top of what is in its slots. -/
def readList {α : Type} (zero : α) (read : α → Json → Option α) (old : Slots α) : Json → Option (Slots α)
  | .null | .array [] => some {}
  | .array vs => old.readItems zero read vs
  | _ => none

/-- A record, member by member on top of `old`. -/
def readRecord {α : Type} (set : α → Text → Json → Option α) (old : α) : Json → Option α
  | .null => some old
  | .object ms => ms.foldlM (fun r (k, v) => set r k.folded v) old
  | _ => none

def setParam (p : Param) (k : Text) (v : Json) : Option Param :=
  if k = "name" then (readText p.name v).map fun x => { p with name := x }
  else if k = "type" then (readText p.type v).map fun x => { p with type := x }
  else some p

def readParams (old : Slots Param) : Json → Option (Slots Param) :=
  readList { name := .empty, type := .empty } (readRecord setParam) old

mutual

/-- A node on top of `old`. -/
def readNode (old : Node) : Json → Option Node
  | .null => some .absent
  | .object ms => readKeys old.opened ms
  | _ => none

/-- The members of a node, one after another. -/
def readKeys (n : Node) : List (Text × Json) → Option Node
  | [] => some n
  | (k, v) :: ms =>
    match n.put k.folded
      { text := fun old => readText old v, bool := fun old => readBool old v, int := fun old => readInt32 old v,
        node := fun old => readNode old v, nodes := fun old => readNodes old v } with
    | some n => readKeys n ms
    | none => none

def readNodes (old : Slots Node) : Json → Option (Slots Node)
  | .null | .array [] => some {}
  | .array (v :: vs) =>
    match readNode (old.all.headD .absent) v with
    | some n => (readNodeItems old.all.tail vs).map fun ns => old.refill (n :: ns)
    | none => none
  | _ => none

/-- The items of a list of nodes on top of what is in their slots. -/
def readNodeItems (old : List Node) : List Json → Option (List Node)
  | [] => some []
  | v :: vs =>
    match readNode (old.headD .absent) v with
    | some n => (readNodeItems old.tail vs).map (n :: ·)
    | none => none

end

def setField (f : Field) (k : Text) (v : Json) : Option Field :=
  if k = "name" then (readText f.name v).map fun x => { f with name := x }
  else if k = "type" then (readText f.type v).map fun x => { f with type := x }
  else if k = "static" then (readBool f.isStatic v).map fun x => { f with isStatic := x }
  else if k = "init" then (readNode f.init v).map fun x => { f with init := x }
  else some f

def setMethod (m : Method) (k : Text) (v : Json) : Option Method :=
  if k = "name" then (readText m.name v).map fun x => { m with name := x }
  else if k = "static" then (readBool m.isStatic v).map fun x => { m with isStatic := x }
  else if k = "ret" then (readText m.ret v).map fun x => { m with ret := x }
  else if k = "params" then (readParams m.params v).map fun x => { m with params := x }
  else if k = "body" then (readNodes m.body v).map fun x => { m with body := x }
  else some m

def readMethods (old : Slots Method) : Json → Option (Slots Method) := readList {} (readRecord setMethod) old

def setClass (c : Class) (k : Text) (v : Json) : Option Class :=
  if k = "name" then (readText c.name v).map fun x => { c with name := x }
  else if k = "fields" then (readList {} (readRecord setField) c.fields v).map fun x => { c with fields := x }
  else if k = "ctors" then (readMethods c.ctors v).map fun x => { c with ctors := x }
  else if k = "methods" then (readMethods c.methods v).map fun x => { c with methods := x }
  else some c

def setDelegate (d : Delegate) (k : Text) (v : Json) : Option Delegate :=
  if k = "name" then (readText d.name v).map fun x => { d with name := x }
  else if k = "ret" then (readText d.ret v).map fun x => { d with ret := x }
  else if k = "params" then (readParams d.params v).map fun x => { d with params := x }
  else some d

def setProgram (p : Program) (k : Text) (v : Json) : Option Program :=
  if k = "schema" then (readNat16 p.schema v).map fun x => { p with schema := x }
  else if k = "classes" then (readList {} (readRecord setClass) p.classes v).map fun x => { p with classes := x }
  else if k = "delegates" then (readList {} (readRecord setDelegate) p.delegates v).map fun x => { p with delegates := x }
  else some p

/-- The interchange form a JSON value holds. -/
def ofJson? (v : Json) : Option Program := readRecord setProgram {} v

/-! ### Writing -/

/-- A member unless its text is empty. -/
def textMember (k : String) (t : Text) : List (Text × Json) := if t.isEmpty then [] else [((k : Text), .string t)]

def boolMember (k : String) (b : Bool) : List (Text × Json) := if b then [((k : Text), .bool true)] else []

def intMember (k : String) (i : Int32) : List (Text × Json) := if i = 0 then [] else [((k : Text), Json.ofInt i.toInt)]

def listMember (k : String) (vs : List Json) : List (Text × Json) := if vs.isEmpty then [] else [((k : Text), .array vs)]

def paramJson (p : Param) : Json := .object [("name", .string p.name), ("type", .string p.type)]

/-- The plain keys of a node that are not empty, in their order. -/
def keyMembers (keys : Keys) : List (Text × Json) :=
  textMember "n" keys.name ++ textMember "t" keys.type ++
    intMember "i" keys.int ++ textMember "s" keys.str ++
    boolMember "b" keys.bool ++ textMember "o" keys.op

mutual

def nodeJson : Node → Json
  | .absent => .null
  | .node kind keys target left right ⟨args, _⟩ ⟨body, _⟩ ⟨alternative, _⟩ =>
    .object (("k", .string kind) :: (keyMembers keys ++ childMember "x" target ++ childMember "l" left ++
      childMember "r" right ++
      listMember "a" (nodesJson args) ++ listMember "body" (nodesJson body) ++ listMember "else" (nodesJson alternative)))

/-- The member of a node that is there. -/
def childMember (k : String) : Node → List (Text × Json)
  | .absent => []
  | .node kind keys target left right ⟨args, _⟩ ⟨body, _⟩ ⟨alternative, _⟩ =>
    [((k : Text), .object (("k", .string kind) :: (keyMembers keys ++ childMember "x" target ++ childMember "l" left ++
      childMember "r" right ++ listMember "a" (nodesJson args) ++ listMember "body" (nodesJson body) ++
      listMember "else" (nodesJson alternative))))]

def nodesJson : List Node → List Json
  | [] => []
  | n :: ns => nodeJson n :: nodesJson ns

end

def Field.json (f : Field) : Json :=
  .object (("name", .string f.name) :: ("type", .string f.type) ::
    (boolMember "static" f.isStatic ++ childMember "init" f.init))

def Method.json (m : Method) : Json :=
  .object (textMember "name" m.name ++ boolMember "static" m.isStatic ++ textMember "ret" m.ret ++
    listMember "params" (m.params.shown.map paramJson) ++ listMember "body" (nodesJson m.body.shown))

def Class.json (c : Class) : Json :=
  .object (("name", .string c.name) :: (listMember "fields" (c.fields.shown.map Field.json) ++
    listMember "ctors" (c.ctors.shown.map Method.json) ++ listMember "methods" (c.methods.shown.map Method.json)))

def Delegate.json (d : Delegate) : Json :=
  .object (("name", .string d.name) :: ("ret", .string d.ret) :: listMember "params" (d.params.shown.map paramJson))

def Program.json (p : Program) : Json :=
  .object (("schema", Json.ofInt p.schema) :: (listMember "classes" (p.classes.shown.map Class.json) ++
    listMember "delegates" (p.delegates.shown.map Delegate.json)))

end Wire

/-- The program a JSON value holds. -/
def Program.ofJson (v : Json) : Except Fault Program :=
  match Wire.ofJson? v with
  | some w => Program.ofWire w
  | none => .error .undecodable

/-- The program at the start of a JSON text. -/
def Program.ofJsonText (t : Text) : Except Fault Program :=
  match Json.readFirst? t.chars with
  | some (v, _) => Program.ofJson v
  | none => .error .undecodable

/-- The JSON text of a program, indented. -/
def Program.toJsonText (p : Program) : Text := p.toWire.json.pretty

end CilCompiler
