import CilCompiler.Msgpack
import CilCompiler.Tree.Wire

/-!
The binary form of programs. A record is a map from key names to values, or a list with one value for
each key in order; `nil` stands for an empty value of any kind. Unknown keys are skipped, and a key that
occurs again is read on top of what the earlier one left: an item of a list on top of what is in its slot.
An empty list hides the slots, and `nil` clears them.
-/

namespace CilCompiler
namespace Wire

/-! ### Reading -/

def unpackText : Msgpack.Value → Option Text
  | .nil => some .empty
  | .str t => some t
  | _ => none

def unpackBool : Msgpack.Value → Option Bool
  | .nil => some false
  | .bool b => some b
  | _ => none

/-- An integer of any width, cut to 32 bits. -/
def unpackInt32 : Msgpack.Value → Option Int32
  | .nil => some 0
  | .int i => some (Int32.ofInt i)
  | _ => none

/-- An integer of any width, cut to 16 bits. -/
def unpackNat16 : Msgpack.Value → Option Nat
  | .nil => some 0
  | .int i => some (i % 65536).toNat
  | _ => none

/-- A list, item by item on top of what is in its slots. -/
def unpackList {α : Type} (zero : α) (read : α → Msgpack.Value → Option α) (old : Slots α) :
    Msgpack.Value → Option (Slots α)
  | .nil => some {}
  | .array vs => old.readItems zero read vs
  | _ => none

/-- The values of a record's keys, in order, when it is given as a list. -/
def unpackPositions {α : Type} (set : α → Text → Msgpack.Value → Option α) (r : α) :
    List Text → List Msgpack.Value → Option α
  | k :: ks, v :: vs => (set r k v).bind fun r => unpackPositions set r ks vs
  | [], [] => some r
  | _, _ => none

/-- The entries of a record given as a map. -/
def unpackEntries {α : Type} (set : α → Text → Msgpack.Value → Option α) (r : α) :
    List (Msgpack.Value × Msgpack.Value) → Option α
  | [] => some r
  | (k, v) :: es => do
    let k ← unpackText k
    let r ← set r k v
    unpackEntries set r es

/-- A record on top of `old`; without values it is `zero`. -/
def unpackRecord {α : Type} (zero : α) (keys : List Text) (set : α → Text → Msgpack.Value → Option α) (old : α) :
    Msgpack.Value → Option α
  | .nil | .array [] => some zero
  | .map es => unpackEntries set old es
  | .array vs => unpackPositions set old keys vs
  | _ => none

def putParam (p : Param) (k : Text) (v : Msgpack.Value) : Option Param :=
  if k = "name" then (unpackText v).map fun x => { p with name := x }
  else if k = "type" then (unpackText v).map fun x => { p with type := x }
  else some p

def unpackParams (old : Slots Param) : Msgpack.Value → Option (Slots Param) :=
  let zero : Param := { name := .empty, type := .empty }
  unpackList zero (unpackRecord zero ["name", "type"] putParam) old

/-- The keys of a node, in order. -/
def nodeKeys : List Text := ["k", "n", "t", "i", "s", "b", "o", "x", "l", "r", "a", "body", "else"]

mutual

/-- A node on top of `old`. -/
def unpackNode (old : Node) : Msgpack.Value → Option Node
  | .nil => some .absent
  | .array [] => some Node.blank
  | .map es => unpackNodeEntries old.opened es
  | .array vs => unpackNodePositions old.opened nodeKeys vs
  | _ => none

def unpackNodeEntries (n : Node) : List (Msgpack.Value × Msgpack.Value) → Option Node
  | [] => some n
  | (k, v) :: es =>
    match unpackText k with
    | none => none
    | some k =>
      match n.put k
        { text := fun _ => unpackText v, bool := fun _ => unpackBool v, int := fun _ => unpackInt32 v,
          node := fun old => unpackNode old v, nodes := fun old => unpackNodes old v } with
      | none => none
      | some n => unpackNodeEntries n es

def unpackNodePositions (n : Node) (ks : List Text) : List Msgpack.Value → Option Node
  | [] => if ks.isEmpty then some n else none
  | v :: vs =>
    match ks with
    | [] => none
    | k :: ks =>
      match n.put k
        { text := fun _ => unpackText v, bool := fun _ => unpackBool v, int := fun _ => unpackInt32 v,
          node := fun old => unpackNode old v, nodes := fun old => unpackNodes old v } with
      | none => none
      | some n => unpackNodePositions n ks vs

def unpackNodes (old : Slots Node) : Msgpack.Value → Option (Slots Node)
  | .nil => some {}
  | .array vs => (unpackNodeItems old.all vs).map old.refill
  | _ => none

/-- The items of a list of nodes on top of what is in their slots. -/
def unpackNodeItems (old : List Node) : List Msgpack.Value → Option (List Node)
  | [] => some []
  | v :: vs =>
    match unpackNode (old.headD .absent) v with
    | none => none
    | some n => (unpackNodeItems old.tail vs).map (n :: ·)

end

def putField (f : Field) (k : Text) (v : Msgpack.Value) : Option Field :=
  if k = "name" then (unpackText v).map fun x => { f with name := x }
  else if k = "type" then (unpackText v).map fun x => { f with type := x }
  else if k = "static" then (unpackBool v).map fun x => { f with isStatic := x }
  else if k = "init" then (unpackNode f.init v).map fun x => { f with init := x }
  else some f

def putMethod (m : Method) (k : Text) (v : Msgpack.Value) : Option Method :=
  if k = "name" then (unpackText v).map fun x => { m with name := x }
  else if k = "static" then (unpackBool v).map fun x => { m with isStatic := x }
  else if k = "ret" then (unpackText v).map fun x => { m with ret := x }
  else if k = "params" then (unpackParams m.params v).map fun x => { m with params := x }
  else if k = "body" then (unpackNodes m.body v).map fun x => { m with body := x }
  else some m

def unpackMethods (old : Slots Method) : Msgpack.Value → Option (Slots Method) :=
  unpackList {} (unpackRecord {} ["name", "static", "ret", "params", "body"] putMethod) old

def putClass (c : Class) (k : Text) (v : Msgpack.Value) : Option Class :=
  if k = "name" then (unpackText v).map fun x => { c with name := x }
  else if k = "fields" then
    (unpackList {} (unpackRecord {} ["name", "type", "static", "init"] putField) c.fields v).map fun x =>
      { c with fields := x }
  else if k = "ctors" then (unpackMethods c.ctors v).map fun x => { c with ctors := x }
  else if k = "methods" then (unpackMethods c.methods v).map fun x => { c with methods := x }
  else some c

def putDelegate (d : Delegate) (k : Text) (v : Msgpack.Value) : Option Delegate :=
  if k = "name" then (unpackText v).map fun x => { d with name := x }
  else if k = "ret" then (unpackText v).map fun x => { d with ret := x }
  else if k = "params" then (unpackParams d.params v).map fun x => { d with params := x }
  else some d

def putProgram (p : Program) (k : Text) (v : Msgpack.Value) : Option Program :=
  if k = "schema" then (unpackNat16 v).map fun x => { p with schema := x }
  else if k = "classes" then
    (unpackList {} (unpackRecord {} ["name", "fields", "ctors", "methods"] putClass) p.classes v).map fun x =>
      { p with classes := x }
  else if k = "delegates" then
    (unpackList {} (unpackRecord {} ["name", "ret", "params"] putDelegate) p.delegates v).map fun x =>
      { p with delegates := x }
  else some p

/-- The interchange form a value holds. -/
def ofMsgpack? (v : Msgpack.Value) : Option Program := unpackRecord {} ["schema", "classes", "delegates"] putProgram {} v

/-! ### Writing -/

/-- An entry of a record: the key and the bytes of its value. -/
abbrev Entry := Text × List UInt8

/-- A map with an entry for each key that is written. -/
def packRecord (entries : List Entry) : List UInt8 :=
  Msgpack.mapHeader entries.length ++ entries.flatMap fun (k, bs) => Msgpack.writeStr k ++ bs

def packList (items : List (List UInt8)) : List UInt8 := Msgpack.arrayHeader items.length ++ items.flatten

def textEntry (k : String) (t : Text) : List Entry := if t.isEmpty then [] else [((k : Text), Msgpack.writeStr t)]

def boolEntry (k : String) (b : Bool) : List Entry := if b then [((k : Text), Msgpack.writeBool true)] else []

def intEntry (k : String) (i : Int32) : List Entry := if i = 0 then [] else [((k : Text), Msgpack.writeInt32 i)]

def listEntry (k : String) (items : List (List UInt8)) : List Entry :=
  if items.isEmpty then [] else [((k : Text), packList items)]

def packParam (p : Param) : List UInt8 :=
  packRecord [("name", Msgpack.writeStr p.name), ("type", Msgpack.writeStr p.type)]

def keyEntries (keys : Keys) : List Entry :=
  textEntry "n" keys.name ++ textEntry "t" keys.type ++
    intEntry "i" keys.int ++ textEntry "s" keys.str ++
    boolEntry "b" keys.bool ++ textEntry "o" keys.op

mutual

def packNode : Node → List UInt8
  | .absent => [0xC0]
  | .node kind keys target left right ⟨args, _⟩ ⟨body, _⟩ ⟨alternative, _⟩ =>
    packRecord (("k", Msgpack.writeStr kind) :: (keyEntries keys ++ childEntry "x" target ++ childEntry "l" left ++
      childEntry "r" right ++ listEntry "a" (packNodes args) ++ listEntry "body" (packNodes body) ++
      listEntry "else" (packNodes alternative)))

/-- The entry of a node that is there. -/
def childEntry (k : String) : Node → List Entry
  | .absent => []
  | .node kind keys target left right ⟨args, _⟩ ⟨body, _⟩ ⟨alternative, _⟩ =>
    [((k : Text), packRecord (("k", Msgpack.writeStr kind) :: (keyEntries keys ++ childEntry "x" target ++
      childEntry "l" left ++ childEntry "r" right ++ listEntry "a" (packNodes args) ++
      listEntry "body" (packNodes body) ++ listEntry "else" (packNodes alternative))))]

def packNodes : List Node → List (List UInt8)
  | [] => []
  | n :: ns => packNode n :: packNodes ns

end

def Field.pack (f : Field) : List UInt8 :=
  packRecord (("name", Msgpack.writeStr f.name) :: ("type", Msgpack.writeStr f.type) ::
    (boolEntry "static" f.isStatic ++ childEntry "init" f.init))

def Method.pack (m : Method) : List UInt8 :=
  packRecord (textEntry "name" m.name ++ boolEntry "static" m.isStatic ++ textEntry "ret" m.ret ++
    listEntry "params" (m.params.shown.map packParam) ++ listEntry "body" (packNodes m.body.shown))

def Class.pack (c : Class) : List UInt8 :=
  packRecord (("name", Msgpack.writeStr c.name) :: (listEntry "fields" (c.fields.shown.map Field.pack) ++
    listEntry "ctors" (c.ctors.shown.map Method.pack) ++ listEntry "methods" (c.methods.shown.map Method.pack)))

def Delegate.pack (d : Delegate) : List UInt8 :=
  packRecord (("name", Msgpack.writeStr d.name) :: ("ret", Msgpack.writeStr d.ret) ::
    listEntry "params" (d.params.shown.map packParam))

def Program.pack (p : Program) : List UInt8 :=
  packRecord (("schema", Msgpack.writeNat16 p.schema) :: (listEntry "classes" (p.classes.shown.map Class.pack) ++
    listEntry "delegates" (p.delegates.shown.map Delegate.pack)))

end Wire

/-- The program at the start of bytes. -/
def Program.ofMsgpack (bs : List UInt8) : Except Fault Program :=
  match Msgpack.decode? bs with
  | none => .error .undecodable
  | some (v, _) =>
    match Wire.ofMsgpack? v with
    | some w => Program.ofWire w
    | none => .error .undecodable

/-- The binary form of a program. -/
def Program.toMsgpack (p : Program) : List UInt8 := p.toWire.pack

end CilCompiler
