import CilCompiler.Machine.Heap
import CilCompiler.Text
import CilCompiler.Text.Case

/-!
What members of the catalog do when they are called, and the world they act on: the heap, the console, and
the numbers given to objects and methods. What is printed comes together in one place, but each module reads
an input of its own.
-/

namespace CilCompiler

/-- What a module keeps while code of it runs. -/
structure ModuleState where
  /-- The number of the object made last. -/
  lastTag : Nat := 0
  /-- The methods that have been asked for their number, in order. -/
  numbered : List Method := []
  /-- What is still to be read. -/
  input : List UInt8 := []
deriving DecidableEq, Inhabited

/-- All that running code can change. -/
structure World where
  heap : Heap := {}
  /-- What has been printed, last first. -/
  printed : List Text := []
  /-- What the modules keep, in their order. -/
  states : Array ModuleState := #[]
deriving DecidableEq, Inhabited

/-- Why running code stops short of a result: a fault, or a place or a text that does not exist. -/
inductive Halt where
  | fault (f : Fault)
  | missing
deriving DecidableEq

namespace World

/-- The world at the beginning, with an input that each of `count` modules reads for itself. -/
def initial (count : Nat) (input : List UInt8) : World := { states := Array.replicate count { input } }

def print (w : World) (t : Text) : World := { w with printed := t :: w.printed }

/-- What has been printed. -/
def output (w : World) : Text := Text.join w.printed.reverse

/-- What a module keeps. -/
def state (w : World) (module : Nat) : ModuleState := w.states.getD module {}

def modifyState (w : World) (module : Nat) (f : ModuleState → ModuleState) : World :=
  { w with states := w.states.modify module f }

/-- The world with another input for a module. -/
def withInput (w : World) (module : Nat) (input : List UInt8) : World := w.modifyState module ({ · with input })

/-- The number of a method in a module; the lack of one has number zero. -/
def numberOf (w : World) (module : Nat) (m : Option Method) : Int32 × World :=
  match m with
  | none => (0, w)
  | some m =>
    let numbered := (w.state module).numbered
    if numbered.contains m then (Int32.ofNat (numbered.idxOf m + 1), w)
    else (Int32.ofNat (numbered.length + 1), w.modifyState module fun s => { s with numbered := s.numbered ++ [m] })

/-- Makes an instance of a type with its fields at first values. -/
def makeObject (w : World) (module : Nat) (d : TypeDef) (o : Obj → Obj) : Nat × World :=
  let tag := (w.state module).lastTag + 1
  let (first, heap) := w.heap.allocate ((d.fields.toList.filter fun f => !f.isStatic).map fun f => .zero f.type)
  let (id, heap) := heap.addObject (o { type := d.type, first, count := d.slots, tag })
  (id, { w with heap }.modifyState module fun s => { s with lastTag := tag })

end World

/-! ### Numbers in texts -/

/-- The value of digits behind a number read so far. Reading stops at what is no digit, and at the first
    digit that takes the value beyond 32 bits. -/
def readDigits (value : Nat) : List UInt8 → Except NumberCause Nat
  | [] => .ok value
  | b :: rest =>
    if b < 48 ∨ 57 < b then .error .malformed
    else
      let value := value * 10 + (b.toNat - 48)
      if 4294967295 < value then .error .outOfRange else readDigits value rest

/-- The 32-bit number a text spells, with an optional sign. -/
def parseInt32 (t : Text) : Except NumberCause Int32 := do
  let (isNegative, digits) := match t.bytes with
    | 43 :: ds => (false, ds)
    | 45 :: ds => (true, ds)
    | ds => (false, ds)
  if digits.isEmpty then .error .malformed
  else
    let n ← readDigits 0 digits
    let i : Int := if isNegative then -(n : Int) else n
    if -2147483648 ≤ i ∧ i ≤ 2147483647 then .ok (Int32.ofInt i) else .error .outOfRange

/-- The hash of bytes: each is joined to the hash so far, which is then multiplied by a prime. -/
def hashBytes (bs : List UInt8) : UInt32 := bs.foldl (fun h b => (h ^^^ b.toUInt32) * 16777619) 2166136261

/-! ### Members -/

namespace Native

/-- The string behind a value. -/
def stringOf (h : Heap) (v : Value) : Except Halt Text :=
  match h.deref v with
  | .str s => .ok s
  | v => .error (.fault (.runtime (.stringReceiver v.kindName)))

/-- The text a value is printed as. -/
def shown (h : Heap) (isBool : Bool) (v : Value) : Except Halt Text :=
  match h.textOf isBool v with
  | some t => .ok t
  | none => .error .missing

/-- The builder behind a value, with the text it has collected. -/
def builderOf (h : Heap) (v : Value) : Except Halt (Nat × Text) :=
  match h.deref v with
  | .obj id =>
    match h.objects[id]? with
    | some o =>
      match o.buffer with
      | some b => .ok (id, b)
      | none => .error (.fault (.runtime (.notABuilder o.type.name)))
    | none => .error .missing
  | v => .error (.fault (.runtime (.builderReceiver v.kindName)))

def equalObjects (h : Heap) (a b : Value) : Bool :=
  match h.deref a, h.deref b with
  | .obj i, .obj j =>
    match h.objects[i]?, h.objects[j]? with
    | some x, some y =>
      match x.boxed, y.boxed with
      | some u, some v => x.type = y.type && h.same u v
      | _, _ => i = j
    | _, _ => i = j
  | a, b => h.same a b

def hashOf (h : Heap) (v : Value) : Int32 :=
  match h.unboxed v with
  | .int n => n
  | .str s => (hashBytes s.bytes).toInt32
  | .obj id => match h.objects[id]? with
    | some o => Int32.ofNat o.tag
    | none => 0
  | _ => 0

def compare (a b : Int32) : Int32 := if a < b then -1 else if b < a then 1 else 0

def parse (v : Value) : Except Halt Int32 :=
  if v.isNull then .error (.fault (.runtime .parsedNull))
  else
    let t := v.text.trim
    match parseInt32 t with
    | .ok n => .ok n
    | .error why => .error (.fault (.runtime (.parsedText v.text t why)))

/-- The number of characters of a text. More than fit a number are a fault. -/
def lengthOf (tooLong : Fault) (t : Text) : Except Halt Value :=
  if t.runes.length < 2147483648 then .ok (.int (Int32.ofNat t.runes.length)) else .error (.fault tooLong)

/-- The part of a text from a character on. -/
def substring (s : Text) (start count : Int32) : Except Halt Text :=
  let rs := s.runes
  let start := start.toInt
  let count := count.toInt
  if start < 0 ∨ count < 0 ∨ rs.length < start + count then
    .error (.fault (.runtime (.substringRange start count rs.length)))
  else .ok (Text.ofChars (((rs.drop start.toNat).take count.toNat).map Text.shown))

/-- The next line of the input without its end; none at the end of the input. -/
def nextLine? (input : List UInt8) : Option (Text × List UInt8) :=
  if input.isEmpty then none
  else
    let line : Text := ⟨input.takeWhile (· ≠ 10)⟩
    some (line.dropEnd "\r", (input.dropWhile (· ≠ 10)).drop 1)

def absolute (v : Int32) : Except Halt Int32 :=
  if v.toInt = -2147483648 then .error (.fault (.runtime (.absoluteOverflow v.toInt)))
  else .ok (if v < 0 then -v else v)

/-- A result that leaves the world as it is. -/
def still (w : World) (r : Except Halt Value) : Except Halt Value × World := (r, w)

/-- Runs a member of the catalog, as called by code of a module. -/
def run (module : Nat) (w : World) (n : Native) (args : List Value) : Except Halt Value × World :=
  match n, args with
  | .constructObject, _ => (.ok .null, w)
  | .objectText, a :: _ => still w ((shown w.heap false a).map Value.str)
  | .boolText, a :: _ => still w ((shown w.heap true (w.heap.unboxed a)).map Value.str)
  | .objectEquals, a :: b :: _ => still w (.ok (.bool (equalObjects w.heap a b)))
  | .objectHash, a :: _ => still w (.ok (.int (hashOf w.heap a)))
  | .intCompare, a :: b :: _ => still w (.ok (.int (compare (w.heap.unboxed a).number b.number)))
  | .intParse, a :: _ => still w ((parse a).map Value.int)
  | .pointerNumber, a :: _ =>
    let (n, w) := w.numberOf module (w.heap.unboxed a).method?
    (.ok (.int n), w)
  | .stringLength, a :: _ => still w do
    let s ← stringOf w.heap a
    lengthOf (.runtime .stringTooLong) s
  | .stringPart, a :: b :: c :: _ => still w do
    let s ← stringOf w.heap a
    return .str (← substring s b.number c.number)
  | .stringUpper, a :: _ => still w ((stringOf w.heap a).map fun s => .str s.toUpper)
  | .stringContains, a :: b :: _ => still w do
    let s ← stringOf w.heap a
    let p ← stringOf w.heap b
    return .bool (s.contains p)
  | .stringConcat, a :: b :: _ => still w do
    let s ← shown w.heap false a
    let t ← shown w.heap false b
    return .str (s ++ t)
  | .stringEquals, a :: b :: _ => still w (.ok (.bool (w.heap.same a b)))
  | .write false _ endsLine, _ => (.ok .null, w.print (if endsLine then "\n" else Text.empty))
  | .write true isBool endsLine, a :: _ =>
    match shown w.heap isBool a with
    | .ok t => (.ok .null, w.print (if endsLine then t ++ "\n" else t))
    | .error h => (.error h, w)
  | .readLine, _ =>
    match nextLine? (w.state module).input with
    | some (line, rest) => (.ok (.str line), w.withInput module rest)
    | none => (.ok .null, w)
  | .max, a :: b :: _ => (.ok (.int (if a.number < b.number then b.number else a.number)), w)
  | .min, a :: b :: _ => (.ok (.int (if b.number < a.number then b.number else a.number)), w)
  | .abs, a :: _ => still w ((absolute a.number).map Value.int)
  | .constructBuilder, a :: rest =>
    match w.heap.deref a with
    | .obj id =>
      let text := match rest with
        | b :: _ => shown w.heap false b
        | [] => .ok .empty
      match text with
      | .ok t => (.ok .null, { w with heap := w.heap.modifyObject id fun o => { o with buffer := some t } })
      | .error h => (.error h, w)
    | _ => (.error .missing, w)
  | .builderAppend, a :: b :: _ =>
    match builderOf w.heap a with
    | .ok (id, _) =>
      match shown w.heap false b with
      | .ok more =>
        let self := w.heap.deref a
        (.ok self, { w with heap := w.heap.modifyObject id fun o => { o with buffer := o.buffer.map (· ++ more) } })
      | .error h => (.error h, w)
    | .error h => (.error h, w)
  | .builderLength, a :: _ => still w do
    let (_, t) ← builderOf w.heap a
    lengthOf (.within "StringBuilder length" (.plain "out of range")) t
  | _, _ => (.error .missing, w)

end Native
end CilCompiler
