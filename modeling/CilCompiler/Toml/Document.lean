import CilCompiler.Toml.Grammar

/-!
The document that statements build: tables of named values. A table comes to be by its header, by the names
in front of the last one of a key, or as a value. A name has one value, with these exceptions: a table
that was only named on the way may get a header later, and a name that holds an array may be given again.
-/

namespace CilCompiler
namespace Toml

inductive Value where
  | string (s : Text)
  | integer (i : Int)
  | float (literal : Text)
  | boolean (b : Bool)
  | datetime (literal : Text)
  | array (items : List Value)
  | table (entries : List (Text × Value))
  /-- An array of tables, given by headers. -/
  | tables (items : List (List (Text × Value)))
deriving Inhabited

/-- The named values of a table. -/
abbrev Entries := List (Text × Value)

namespace Entries

def get? (es : Entries) (k : Text) : Option Value := es.lookup k

/-- Gives a name a value; a new name goes to the end. -/
def put (es : Entries) (k : Text) (v : Value) : Entries :=
  if es.any fun e => e.1 = k then es.map fun e => if e.1 = k then (k, v) else e else es ++ [(k, v)]

/-- Changes the table at the end of a path; of an array of tables it is the last one. -/
def modify? (f : Entries → Option Entries) : Key → Entries → Option Entries
  | [], es => f es
  | k :: ks, es => do
    match ← es.get? k with
    | .table inner => return es.put k (.table (← modify? f ks inner))
    | .tables items =>
      match items.getLast? with
      | some last => return es.put k (.tables (items.dropLast ++ [← modify? f ks last]))
      | none => none
    | _ => none

end Entries

structure Document where
  entries : Entries := []
  /-- Tables that were only named on the way. -/
  implicits : List Key := []
  /-- Names that hold an array given as a value. -/
  arrays : List Key := []
deriving Inhabited

namespace Document

def markImplicit (d : Document) (k : Key) : Document := { d with implicits := k :: d.implicits }

def unmarkImplicit (d : Document) (k : Key) : Document := { d with implicits := d.implicits.filter fun i => i ≠ k }

/-- Records whether the value of a name is an array. An empty name stands for the table around it. -/
def setKind (d : Document) (context : Key) (name : Text) (isArray : Bool) : Document :=
  let k := if name.isEmpty then (if context.isEmpty then [name] else context) else context ++ [name]
  let others := d.arrays.filter fun a => a ≠ k
  { d with arrays := if isArray then k :: others else others }

/-- Whether a name of the table at `context` has a value; none when there is no such table. -/
def has? (d : Document) (context : Key) (name : Text) : Option Bool :=
  let rec go : Key → Entries → Option Bool
    | [], es => some (es.get? name).isSome
    | k :: ks, es =>
      match es.get? k with
      | some (.table inner) => go ks inner
      | some (.tables items) => items.getLast?.bind (go ks)
      | _ => none
  go context d.entries

/-- Gives a name of the table at `context` a value. -/
def setValue (d : Document) (context : Key) (name : Text) (v : Value) : Option Document := do
  let write (d : Document) : Option Document := do
    return { d with entries := ← d.entries.modify? (fun es => some (es.put name v)) context }
  let k := context ++ [name]
  if ← d.has? context name then
    if d.arrays.contains k then write (d.unmarkImplicit k)
    else if d.implicits.contains k then return d.unmarkImplicit k
    else none
  else write d

/-- Makes sure that the tables on the way to the end of a path are there. -/
def openPath (d : Document) (done : Key) : Key → Option Document
  | [] => some d
  | k :: ks => do
    let path := done ++ [k]
    if ← d.has? done k then openPath d path ks
    else
      let d := d.markImplicit path
      let d := { d with entries := ← d.entries.modify? (fun es => some (es.put k (.table []))) done }
      openPath d path ks

/-- Opens the table at a path that is not empty; `isElement` adds an element to an array of tables. -/
def openTable (d : Document) (path : Key) (isElement : Bool) : Option Document := do
  let name ← path.getLast?
  let context := path.dropLast
  let d ← d.openPath [] context
  if isElement then
    let add (es : Entries) : Option Entries :=
      match es.get? name with
      | some (.tables items) => some (es.put name (.tables (items ++ [[]])))
      | some _ => none
      | none => some (es.put name (.tables [[]]))
    return { d with entries := ← d.entries.modify? add context }
  else d.setValue context name (.table [])

/-- Opens the tables that the names of a dotted key in front of its last one stand for, and answers the
    path of the innermost. -/
def openNames (d : Document) (context : Key) : Key → Option (Key × Document)
  | [] => some (context, d)
  | k :: ks => do
    let path := context ++ [k]
    let d ← (d.markImplicit path).openTable path false
    openNames d path ks

end Document

/-- A value put into nested tables under a dotted key. -/
def Entries.nest? (es : Entries) (name : Text) (v : Value) : Key → Option Entries
  | [] => some (es.put name v)
  | k :: ks =>
    match es.get? k with
    | none => (nest? [] name v ks).map fun inner => es.put k (.table inner)
    | some (.table inner) => (nest? inner name v ks).map fun inner => es.put k (.table inner)
    | some _ => none

namespace Document

mutual

/-- The value of a term that is given to a name. The tables in it are entered on the way; `isItem` says
    whether the term stands in an array. -/
def value (d : Document) (context : Key) (name : Text) (isItem : Bool) : Term → Option (Value × Document)
  | .string s => some (.string s, d)
  | .integer i => some (.integer i, d)
  | .float l => some (.float l, d)
  | .boolean b => some (.boolean b, d)
  | .datetime l => some (.datetime l, d)
  | .array items => do
    let (vs, d) ← values (d.setKind context name true) context name items
    return (.array vs, d)
  | .inline es => do
    let path := context ++ [name]
    let d ← (d.markImplicit path).openTable path isItem
    let (top, d) ← inlineEntries d path [] es
    return (.table top, d)

def values (d : Document) (context : Key) (name : Text) : List Term → Option (List Value × Document)
  | [] => some ([], d)
  | t :: ts => do
    let (v, d) ← d.value context name true t
    let (vs, d) ← values d context name ts
    return (v :: vs, d)

/-- Enters the entries of a table on one line; `top` holds those before. -/
def inlineEntries (d : Document) (path : Key) (top : Entries) : List (Key × Term) → Option (Entries × Document)
  | [] => some (top, d)
  | (k, t) :: es => do
    let name ← k.getLast?
    let (context, d) ← d.openNames path k.dropLast
    let (v, d) ← d.value context name false t
    let d ← d.setValue context name v
    let d := d.setKind context name (t matches .array _)
    let top ← top.nest? name v k.dropLast
    inlineEntries d path top es

end

/-- Carries a statement out in the table at `context`, and answers the table of the next one. -/
def apply (d : Document) (context : Key) : Statement → Option (Key × Document)
  | .table k => do return (k, (← d.openTable k false).setKind k .empty false)
  | .element k => do return (k, (← d.openTable k true).setKind k .empty false)
  | .assign k t => do
    let name ← k.getLast?
    let (inner, d) ← d.openNames context k.dropLast
    let (v, d) ← d.value inner name false t
    let d ← d.setValue inner name v
    return (context, d.setKind inner name (t matches .array _))

/-- Carries statements out from the beginning of a text on. -/
def run (d : Document) (context : Key) : List Statement → Option Document
  | [] => some d
  | s :: ss => do
    let (context, d) ← d.apply context s
    d.run context ss

end Document

/-- The table a text describes. -/
def read? (t : Text) : Option Entries := do
  let d ← ({} : Document).run [] (← parse? t)
  return d.entries

end Toml
end CilCompiler
