import CilCompiler.Text

/-!
Diagnostic codes. A code is a number; the thousands say which of five categories of failure it belongs
to, and the numbers in use have a title.
-/

namespace CilCompiler

/-- The number of a kind of failure. -/
structure Code where
  number : Nat
deriving DecidableEq, Inhabited

/-- The five categories of failure; a number outside them is of unknown category. -/
inductive Category where
  | unknown | lookup | typeMismatch | shape | backend | runtime
deriving DecidableEq, Inhabited

namespace Category

def name : Category → Text
  | .unknown => "unknown"
  | .lookup => "lookup"
  | .typeMismatch => "type mismatch"
  | .shape => "shape"
  | .backend => "backend"
  | .runtime => "runtime"

/-- The categories a failure can be asked for. -/
def all : List Category := [.lookup, .typeMismatch, .shape, .backend, .runtime]

/-- The text of a category as a failure of its own. -/
def failure (c : Category) : Text := c.name ++ " failure"

/-- The letters in front of the number. -/
def letters : Category → Text
  | .unknown => "E"
  | .lookup => "LKP"
  | .typeMismatch => "TYP"
  | .shape => "SHP"
  | .backend => "BCK"
  | .runtime => "RUN"

end Category

namespace Code

def unknown : Code := ⟨0⟩

def missingType : Code := ⟨1001⟩
def missingField : Code := ⟨1002⟩
def missingMethod : Code := ⟨1003⟩
def missingConstructor : Code := ⟨1004⟩
def missingName : Code := ⟨1005⟩
def noOverload : Code := ⟨1006⟩
def noEntryPoint : Code := ⟨1007⟩

def mismatch : Code := ⟨2001⟩
def notInteger : Code := ⟨2002⟩
def notArray : Code := ⟨2003⟩
def notBool : Code := ⟨2004⟩
def notDelegate : Code := ⟨2005⟩
def cannotInfer : Code := ⟨2006⟩
def invalidOperands : Code := ⟨2007⟩
def voidValue : Code := ⟨2008⟩

def unsupportedNode : Code := ⟨3001⟩
def strayValue : Code := ⟨3002⟩
def multipleEntries : Code := ⟨3003⟩
def delegateSignature : Code := ⟨3004⟩
def notAssignable : Code := ⟨3005⟩
def missingReturn : Code := ⟨3006⟩
def duplicateType : Code := ⟨3007⟩
def duplicateMember : Code := ⟨3008⟩
def duplicateLocal : Code := ⟨3009⟩
def staticContext : Code := ⟨3010⟩
def staticFieldInit : Code := ⟨3011⟩
def storeFrozen : Code := ⟨3012⟩
def typeSealed : Code := ⟨3013⟩
def invalidEntryPoint : Code := ⟨3014⟩

def unsupportedOp : Code := ⟨4001⟩
def unsupportedBase : Code := ⟨4002⟩
def operandRange : Code := ⟨4003⟩
def foreignObject : Code := ⟨4004⟩
def unmarkedLabel : Code := ⟨4005⟩
def stackImbalance : Code := ⟨4006⟩
def notFinalized : Code := ⟨4007⟩

def nullReference : Code := ⟨5001⟩
def indexRange : Code := ⟨5002⟩
def divideByZero : Code := ⟨5003⟩
def callDepth : Code := ⟨5004⟩
def badOperand : Code := ⟨5005⟩
def native : Code := ⟨5006⟩
def overflow : Code := ⟨5007⟩

def category (c : Code) : Category :=
  match c.number / 1000 with
  | 1 => .lookup
  | 2 => .typeMismatch
  | 3 => .shape
  | 4 => .backend
  | 5 => .runtime
  | _ => .unknown

/-- The identifier in messages. Numbers of unknown category share one. -/
def id (c : Code) : Text :=
  match c.category with
  | .unknown => "E0000"
  | k => k.letters ++ Text.padded 4 c.number

/-- What a code stands for. -/
def title (c : Code) : Text :=
  match c.number with
  | 1000 => "Lookup information"
  | 1001 => "Type not found"
  | 1002 => "Field not found"
  | 1003 => "Method not found"
  | 1004 => "Constructor not found"
  | 1005 => "Name not found"
  | 1006 => "No overload matches the argument types"
  | 1007 => "No entry point"
  | 2000 => "Type information"
  | 2001 => "Type mismatch"
  | 2002 => "Integer operand required"
  | 2003 => "Array operand required"
  | 2004 => "Boolean operand required"
  | 2005 => "Delegate type required"
  | 2006 => "Cannot infer type"
  | 2007 => "Invalid operand types"
  | 2008 => "Void used as a value"
  | 3000 => "Shape information"
  | 3001 => "Unsupported syntax node"
  | 3002 => "Statement leaves a value on the stack"
  | 3003 => "More than one entry point"
  | 3004 => "Delegate signature mismatch"
  | 3005 => "Expression is not assignable"
  | 3006 => "Missing return in non-void method"
  | 3007 => "Duplicate type"
  | 3008 => "Duplicate member"
  | 3009 => "Duplicate local variable"
  | 3010 => "Instance member used from a static context"
  | 3011 => "Static field initializers are not supported"
  | 3012 => "Symbol store is read-only"
  | 3013 => "Type is already finalized"
  | 3014 => "Invalid entry point signature"
  | 3015 => "Unsupported operator"
  | 4000 => "Backend information"
  | 4001 => "Operation not supported by backend"
  | 4002 => "Base type not supported by backend"
  | 4003 => "Operand out of encodable range"
  | 4004 => "Object belongs to another backend"
  | 4005 => "Label was never marked"
  | 4006 => "Evaluation stack imbalance"
  | 4007 => "Type is not finalized"
  | 5000 => "Runtime information"
  | 5001 => "Null reference"
  | 5002 => "Index out of range"
  | 5003 => "Division by zero"
  | 5004 => "Call depth exceeded"
  | 5005 => "Invalid operand on evaluation stack"
  | 5006 => "Host method failed"
  | 5007 => "Arithmetic overflow"
  | _ => "Unknown error"

/-- Identifier and title. -/
def describe (c : Code) : Text := Text.join ["[", c.id, "]: ", c.title]

end Code

/-- A failure as reported: its code, what happened, and the text of a cause beneath it. -/
structure Diagnostic where
  code : Code
  message : Text
  cause : Option Text := none
deriving DecidableEq, Inhabited

namespace Diagnostic

/-- The report on one line; an empty message is replaced by the code's title. -/
def text (d : Diagnostic) : Text :=
  let message := if d.message.isEmpty then d.code.title else d.message
  match d.cause with
  | some cause => Text.join [d.code.id, ": ", message, ": ", cause]
  | none => Text.join [d.code.id, ": ", message]

/-- Whether the failure belongs to a category. -/
def isOf (d : Diagnostic) (k : Category) : Bool := d.code.category = k

end Diagnostic
end CilCompiler
