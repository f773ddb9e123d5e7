import CilCompiler.Cil.ShortForm

/-!
Bodies in the making. A body is recorded instruction by instruction. `Emission.encode` says whether an
emission is allowed at its place and which instruction it becomes; `Draft.record` takes the instruction
down. A textual body has no branches, so its stack is counted as it grows; a dynamic body is checked as a
whole when its type is finished.
-/

namespace CilCompiler

/-- What a module makes of its bodies: a listing, or code that can be run. -/
inductive Backend where
  | textual
  | dynamic
deriving DecidableEq, Inhabited

/-- A local variable of one body. -/
structure LocalSlot where
  method : Method
  index : Nat
  type : Ty
deriving DecidableEq, Inhabited

/-- A branch target of one body. -/
structure Label where
  method : Method
  id : Nat
deriving DecidableEq, Inhabited

/-- The place of a body: whose it is, and whether its type is finished. -/
structure Site where
  backend : Backend
  moduleName : Text
  method : Method
  isSealed : Bool

/-- A body in the making. The stack counts are kept for a textual body, the marks for a dynamic one. -/
structure Draft where
  code : Array Instr := #[]
  locals : Array Ty := #[]
  /-- Where each label is marked. -/
  marks : Array (Option Nat) := #[]
  /-- The values on the stack behind the last instruction. -/
  depth : Nat := 0
  /-- The most values there have been on the stack. -/
  peak : Nat := 0
deriving DecidableEq, Inhabited

/-- A request to record an instruction. -/
inductive Emission where
  | plain (op : Opcode)
  | int (op : Opcode) (v : Int32)
  | str (op : Opcode) (s : Text)
  | type (op : Opcode) (t : Option Ty)
  | field (op : Opcode) (f : Field)
  | method (op : Opcode) (m : Method)
  | ctor (op : Opcode) (c : Method)
  | local (op : Opcode) (l : Option LocalSlot)
  | arg (op : Opcode) (index : Int)
  | label (op : Opcode) (l : Option Label)
deriving DecidableEq

namespace Site

/-- Fails on a finished type. -/
def requireOpen (s : Site) (what : Text) : Except Fault Unit :=
  if s.isSealed then .error (.shape (.typeFinalized what s.method.owner.name)) else .ok ()

/-- Fails on a finished type, and on an operand of the wrong kind. -/
def check (s : Site) (op : Opcode) (k : OperandKind) : Except Fault Unit := do
  s.requireOpen "instructions"
  if op.accepts k then .ok () else .error (.backend (.wrongOperand op.mnemonic k.name))

/-- The fault of something that belongs elsewhere. -/
def foreign (s : Site) (what : Text) : Fault := .backend (.foreign what s.moduleName)

/-- What comes of a type operand that is not there: a listing asks it for its name at once, the other kind of module
    asks first whose it is. -/
def withoutType (s : Site) : Fault :=
  match s.backend with
  | .textual => .crash
  | .dynamic => s.foreign ("type " ++ Ty.shown none)

/-- Whether a type is declared in the module of the body. -/
def owns (s : Site) (t : Ty) : Bool := t.module = s.method.owner.module

end Site

/-- Whether an opcode addresses a static field. -/
def Opcode.isStaticField : Opcode → Bool
  | .ldsfld | .ldsflda | .stsfld => true
  | _ => false

namespace Emission

def encodeField (s : Site) (op : Opcode) (f : Field) : Except Fault Instr := do
  s.check op .field
  if s.backend = .dynamic then
    if !s.owns f.owner then .error (s.foreign ("field " ++ f.name))
    else if op.isStaticField != f.isStatic then .error (.backend (.fieldAccess op.mnemonic f.owner.name f.name))
    else .ok { op, operand := .field f }
  else .ok { op, operand := .field f }

def encodeMethod (s : Site) (op : Opcode) (m : Method) : Except Fault Instr := do
  s.check op .method
  if s.backend = .dynamic then
    if !s.owns m.owner then .error (s.foreign ("method " ++ m.name))
    else if op = .ldvirtftn ∧ m.isStatic then .error (.backend (.staticVirtualPointer m.name))
    else .ok { op, operand := .method m }
  else .ok { op, operand := .method m }

def encodeCtor (s : Site) (op : Opcode) (c : Method) : Except Fault Instr := do
  s.check op .ctor
  if s.backend = .dynamic ∧ !s.owns c.owner then .error (s.foreign ("constructor of " ++ c.owner.name))
  else .ok { op, operand := .ctor c }

/-- A listing looks only at whose local it is; the other kind of module checks the opcode first. -/
def encodeLocal (s : Site) (op : Opcode) (l : Option LocalSlot) : Except Fault Instr := do
  match s.backend with
  | .textual => s.requireOpen "instructions"
  | .dynamic => s.check op op.operand
  let stranger : Fault := match s.backend with
    | .textual => .backend (.foreignLocal s.method.name)
    | .dynamic => s.foreign "local slot"
  match l with
  | some l => if l.method = s.method then ShortForm.ofLocal op l.index else .error stranger
  | none => .error stranger

def encodeArg (s : Site) (op : Opcode) (index : Int) : Except Fault Instr := do
  match s.backend with
  | .textual => s.requireOpen "instructions"
  | .dynamic => s.check op op.operand
  if index < 0 ∨ s.method.argCount ≤ index then .error (.backend (.noSuchArgument index s.method.name))
  else ShortForm.ofArg op index

def encodeLabel (s : Site) (op : Opcode) (l : Option Label) : Except Fault Instr :=
  match s.backend with
  | .textual => .error (.backend (.noBranches op.mnemonic))
  | .dynamic => do
    s.check op .label
    match l with
    | some l =>
      if l.method = s.method then .ok { op, operand := .label l.id } else .error (s.foreign "label")
    | none => .error (s.foreign "label")

/-- The instruction an emission becomes. -/
def encode (s : Site) : Emission → Except Fault Instr
  | .plain op =>
    if s.backend = .textual ∧ op.isBranch then .error (.backend (.noBranches op.mnemonic))
    else do
      s.check op .none
      return { op }
  | .int op v =>
    if op = .ldc ∨ op = .ldcS then do
      s.requireOpen "instructions"
      return ShortForm.ofInt v
    else .error (.backend (.notIntegerOp op.mnemonic))
  | .str op t => do
    s.check op .string
    return { op, operand := .str t }
  | .type op t => do
    s.check op .type
    match t with
    | some t => return { op, operand := .type t }
    | none => .error s.withoutType
  | .field op f => encodeField s op f
  | .method op m => encodeMethod s op m
  | .ctor op c => encodeCtor s op c
  | .local op l => encodeLocal s op l
  | .arg op i => encodeArg s op i
  | .label op l => encodeLabel s op l

end Emission

namespace Draft

def push (d : Draft) (i : Instr) : Draft := { d with code := d.code.push i }

/-- Takes an instruction down. In a listing it must find its operands on the stack, and `ret` must leave
    nothing behind; a `ret` that is refused for what it leaves has taken its value all the same. -/
def record (s : Site) (d : Draft) (i : Instr) : Except Fault Unit × Draft :=
  match s.backend with
  | .dynamic => (.ok (), d.push i)
  | .textual =>
    let (pops, pushes) := i.effect s.method.ret
    if d.depth < pops then (.error (.backend (.underflow i.op.mnemonic pops d.depth)), d)
    else
      let depth := d.depth - pops + pushes
      let counted := { d with depth, peak := max d.peak depth }
      if i.op = .ret ∧ depth ≠ 0 then (.error (.backend (.returnLeaves depth)), counted)
      else (.ok (), counted.push i)

/-- Encodes and records. -/
def emit (s : Site) (d : Draft) (e : Emission) : Except Fault Unit × Draft :=
  match e.encode s with
  | .ok i => d.record s i
  | .error f => (.error f, d)

/-- Adds a local variable. -/
def declareLocal (s : Site) (d : Draft) (t : Option Ty) : Except Fault (LocalSlot × Draft) := do
  s.requireOpen (match s.backend with | .textual => "instructions" | .dynamic => "local")
  match t with
  | some t => return ({ method := s.method, index := d.locals.size, type := t }, { d with locals := d.locals.push t })
  | none => .error (.typing .unknownLocalType)

/-- Adds a label that is marked nowhere yet. -/
def defineLabel (s : Site) (d : Draft) : Except Fault (Label × Draft) :=
  match s.backend with
  | .textual => .error (.backend .noLabels)
  | .dynamic => do
    s.requireOpen "label"
    return ({ method := s.method, id := d.marks.size }, { d with marks := d.marks.push none })

/-- Marks a label at the next instruction. -/
def mark (s : Site) (d : Draft) (l : Option Label) : Except Fault Draft :=
  match s.backend with
  | .textual => .error (.backend .noLabels)
  | .dynamic =>
    match l with
    | some l =>
      if l.method = s.method then
        match d.marks[l.id]? with
        | some none => .ok { d with marks := d.marks.setIfInBounds l.id (some d.code.size) }
        | _ => .error (.backend (.labelMarkedTwice l.id))
      else .error (s.foreign "label")
    | none => .error (s.foreign "label")

end Draft
end CilCompiler
