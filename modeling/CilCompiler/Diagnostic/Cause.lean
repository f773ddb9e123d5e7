import CilCompiler.Diagnostic.Code
import CilCompiler.Text.Printable

/-!
Causes of failure, one constructor for each thing that can go wrong, grouped by category. A cause has a
code and a message; names of types and members stand in it as they are shown.
-/

namespace CilCompiler

/-- A name, type or member that is not there. -/
inductive LookupCause where
  | aliasTarget (spelling target : Text)
  | missingType (name : Text)
  | missingField (owner name : Text)
  | missingProperty (owner name : Text)
  | missingMethod (owner name : Text)
  | noConstructors (type : Text)
  | noConstructorOfArity (type : Text) (arity : Nat)
  | unassignableName (name owner : Text)
  | unknownName (name owner : Text)
  | noMethodOverload (isStatic : Bool) (owner signature : Text)
  | noConstructorOverload (owner signature : Text)
  | noOverload (owner signature : Text)
  | noEntryPoint (module : Text)
deriving DecidableEq

namespace LookupCause

def code : LookupCause → Code
  | .aliasTarget .. | .missingType .. => .missingType
  | .missingField .. | .missingProperty .. => .missingField
  | .missingMethod .. => .missingMethod
  | .noConstructors .. | .noConstructorOfArity .. => .missingConstructor
  | .unassignableName .. | .unknownName .. => .missingName
  | .noMethodOverload .. | .noConstructorOverload .. | .noOverload .. => .noOverload
  | .noEntryPoint .. => .noEntryPoint

def message : LookupCause → Text
  | .aliasTarget s t => Text.join ["alias ", s.quoted, " targets unknown type ", t.quoted]
  | .missingType n => Text.join ["type ", n.quoted, " not found"]
  | .missingField o n => Text.join ["field ", o, "::", n, " not found"]
  | .missingProperty o n => Text.join [o, " has no field or property ", n]
  | .missingMethod o n => Text.join ["method ", o, "::", n, " not found"]
  | .noConstructors t => Text.join ["type ", t, " has no constructors"]
  | .noConstructorOfArity t n => Text.join [t, " has no constructor taking ", Text.ofNat n, " arguments"]
  | .unassignableName n o => Text.join [n.quoted, " is not a local, parameter or field of ", o]
  | .unknownName n o => Text.join [n.quoted, " is not a local, parameter, field or method of ", o]
  | .noMethodOverload st o s => Text.join ["no ", if st then "static" else "instance", " overload ", o, "::", s]
  | .noConstructorOverload o s => Text.join ["no constructor ", o, "::", s]
  | .noOverload o s => Text.join ["no overload ", o, "::", s]
  | .noEntryPoint m => Text.join ["module ", m, " has no entry point"]

end LookupCause

/-- A value of the wrong type. -/
inductive TypingCause where
  | cannotUse (what source target : Text)
  | returnWithoutValue (method type : Text)
  | valueFromVoid (method : Text)
  | operandsDiffer (op left right : Text)
  | cannotCompare (left right : Text)
  | indexNotInt (type : Text)
  | sizeNotInt (type : Text)
  | needsInt (op type : Text)
  | needsInts (op left right : Text)
  | notArray (type : Text)
  | conditionNotBool (type : Text)
  | notDelegate (type : Text)
  | untypedLocal (name : Text)
  | localFromNull (name : Text)
  | memberOfNull (name : Text)
  | undirectedReference (name : Text)
  | nullArgument (position : Nat) (name : Text)
  | unknownLocalType
  | needsIntOrBool (op type : Text)
  | operatorDoesNotApply (op type : Text)
  | voidParameter (name : Text)
  | voidField (owner name : Text)
  | voidLocal (name : Text)
  | voidInitializer (name : Text)
  | voidUsed (what : Text)
  | memberOfVoid (name : Text)
  | voidOperand (op : Text)
  | voidArgument (position : Nat)
deriving DecidableEq

namespace TypingCause

def code : TypingCause → Code
  | .cannotUse .. | .returnWithoutValue .. | .valueFromVoid .. | .operandsDiffer .. | .cannotCompare .. => .mismatch
  | .indexNotInt .. | .sizeNotInt .. | .needsInt .. | .needsInts .. => .notInteger
  | .notArray .. => .notArray
  | .conditionNotBool .. => .notBool
  | .notDelegate .. => .notDelegate
  | .untypedLocal .. | .localFromNull .. | .memberOfNull .. | .undirectedReference .. | .nullArgument ..
  | .unknownLocalType => .cannotInfer
  | .needsIntOrBool .. | .operatorDoesNotApply .. => .invalidOperands
  | .voidParameter .. | .voidField .. | .voidLocal .. | .voidInitializer .. | .voidUsed .. | .memberOfVoid ..
  | .voidOperand .. | .voidArgument .. => .voidValue

def message : TypingCause → Text
  | .cannotUse w s t => Text.join [w, ": cannot use ", s, " as ", t]
  | .returnWithoutValue m t => Text.join ["return without a value in ", m, " returning ", t]
  | .valueFromVoid m => Text.join ["void ", m, " returns a value"]
  | .operandsDiffer op l r => Text.join ["operands of ", op, " are ", l, " and ", r]
  | .cannotCompare l r => Text.join ["cannot compare ", l, " with ", r]
  | .indexNotInt t => "array index is " ++ t
  | .sizeNotInt t => "array size is " ++ t
  | .needsInt op t => Text.join [op, " needs int operands, got ", t]
  | .needsInts op l r => Text.join [op, " needs int operands, got ", l, " and ", r]
  | .notArray t => "cannot index " ++ t
  | .conditionNotBool t => "condition is " ++ t
  | .notDelegate t => t ++ " is not a delegate type"
  | .untypedLocal n => Text.join ["local ", n.quoted, " has neither a type nor an initializer"]
  | .localFromNull n => Text.join ["cannot infer the type of ", n.quoted, " from null"]
  | .memberOfNull n => Text.join ["member ", n, " accessed on null"]
  | .undirectedReference n => "cannot infer the delegate type of method reference " ++ n
  | .nullArgument i n => Text.join ["null argument ", Text.ofNat i, " to overloaded ", n]
  | .unknownLocalType => "local of unknown type"
  | .needsIntOrBool op t => Text.join [op, " needs int or bool operands, got ", t]
  | .operatorDoesNotApply op t => Text.join ["operator ", op, " does not apply to ", t]
  | .voidParameter n => Text.join ["parameter ", n.quoted, " cannot be void"]
  | .voidField o n => Text.join ["field ", o, "::", n, " cannot be void"]
  | .voidLocal n => Text.join ["local ", n.quoted, " cannot be void"]
  | .voidInitializer n => Text.join ["initializer of ", n.quoted, " has no value"]
  | .voidUsed w => w ++ ": void has no value"
  | .memberOfVoid n => Text.join ["member ", n, " accessed on a void result"]
  | .voidOperand op => Text.join ["operand of ", op, " has no value"]
  | .voidArgument i => Text.join ["argument ", Text.ofNat i, " has no value"]

end TypingCause

/-- A declaration, statement or expression of the wrong form. -/
inductive ShapeCause where
  | namelessType
  | baseCallOutsideConstructor
  | missingExpression
  | constructedValueType (type : Text)
  | strayValue (type : Text)
  | conflictingEntries (owner name otherOwner otherName : Text)
  | entryAlreadySet (owner name : Text)
  | delegateArguments (type : Text)
  | noDelegateTarget (owner name delegate signature : Text)
  | arrayLengthAssigned
  | missingTarget
  | notAssignable (kind : Text)
  | missingReturn (method type : Text)
  | typeDefined (name : Text)
  | moduleTypeDefined (name : Text)
  | delegateDescribed (name : Text)
  | fieldDefined (owner name : Text)
  | methodDefined (owner signature : Text)
  | constructorDefined (owner signature : Text)
  | repeatedParameter (name : Text)
  | repeatedLocal (name method : Text)
  | instanceInStatic (what method : Text)
  | fieldNeedsObject (owner name : Text)
  | staticFieldAssigned (owner name : Text)
  | staticFieldAccessed (owner name : Text)
  | instanceMethodInStatic (name method : Text)
  | staticFieldInit (owner name : Text)
  | wrongPhase (what phase : Text)
  | typeFinalized (what type : Text)
  | badEntrySignature (owner signature : Text)
deriving DecidableEq

namespace ShapeCause

def code : ShapeCause → Code
  | .namelessType | .baseCallOutsideConstructor | .missingExpression | .constructedValueType .. => .unsupportedNode
  | .strayValue .. => .strayValue
  | .conflictingEntries .. | .entryAlreadySet .. => .multipleEntries
  | .delegateArguments .. | .noDelegateTarget .. => .delegateSignature
  | .arrayLengthAssigned | .missingTarget | .notAssignable .. => .notAssignable
  | .missingReturn .. => .missingReturn
  | .typeDefined .. | .moduleTypeDefined .. | .delegateDescribed .. => .duplicateType
  | .fieldDefined .. | .methodDefined .. | .constructorDefined .. => .duplicateMember
  | .repeatedParameter .. | .repeatedLocal .. => .duplicateLocal
  | .instanceInStatic .. | .fieldNeedsObject .. | .staticFieldAssigned .. | .staticFieldAccessed ..
  | .instanceMethodInStatic .. => .staticContext
  | .staticFieldInit .. => .staticFieldInit
  | .wrongPhase .. => .storeFrozen
  | .typeFinalized .. => .typeSealed
  | .badEntrySignature .. => .invalidEntryPoint

def message : ShapeCause → Text
  | .namelessType => "type declaration without a name"
  | .baseCallOutsideConstructor => "base constructor call outside a constructor"
  | .missingExpression => "missing expression"
  | .constructedValueType t => "cannot construct value type " ++ t
  | .strayValue t => Text.join ["expression statement leaves a ", t, " value on the stack"]
  | .conflictingEntries o n o' n' => Text.join ["entry point ", o, "::", n, " conflicts with ", o', "::", n']
  | .entryAlreadySet o n => Text.join ["entry point already set to ", o, "::", n]
  | .delegateArguments t => Text.join ["delegate ", t, " must be created from one method reference"]
  | .noDelegateTarget o n d s => Text.join ["no ", o, "::", n, " matches delegate ", d, " ", s]
  | .arrayLengthAssigned => "array length is read-only"
  | .missingTarget => "missing assignment target"
  | .notAssignable k => k ++ " expression is not assignable"
  | .missingReturn m t => Text.join [m, " returns ", t, " but does not end with a return statement"]
  | .typeDefined n => Text.join ["type ", n.quoted, " is already defined"]
  | .moduleTypeDefined n => Text.join ["type ", n, " already defined"]
  | .delegateDescribed n => Text.join ["delegate ", n.quoted, " is already described"]
  | .fieldDefined o n => Text.join ["field ", o, "::", n, " is already defined"]
  | .methodDefined o s => Text.join ["method ", o, "::", s, " is already defined"]
  | .constructorDefined o s => Text.join ["constructor ", o, "::", s, " is already defined"]
  | .repeatedParameter n => Text.join ["parameter ", n.quoted, " is declared twice"]
  | .repeatedLocal n m => Text.join [n.quoted, " is already declared in ", m]
  | .instanceInStatic w m => Text.join [w, " used in static method ", m]
  | .fieldNeedsObject o n => Text.join ["instance field ", o, "::", n, " needs an object"]
  | .staticFieldAssigned o n => Text.join ["static field ", o, "::", n, " assigned through an instance"]
  | .staticFieldAccessed o n => Text.join ["static field ", o, "::", n, " accessed through an instance"]
  | .instanceMethodInStatic n m => Text.join ["instance method ", n, " called from static method ", m]
  | .staticFieldInit o n => Text.join ["static field ", o, "::", n, " has an initializer"]
  | .wrongPhase w p => Text.join [w, " is not allowed in phase ", p]
  | .typeFinalized w t => Text.join ["cannot define ", w, " on finalized type ", t]
  | .badEntrySignature o s => Text.join [o, "::", s, " must take no parameters and return void or int"]

end ShapeCause

/-- An instruction offset as shown in messages. -/
def offsetText (pc : Nat) : Text := "IL_" ++ Text.padded 4 pc

/-- Something a module cannot record or finish. -/
inductive BackendCause where
  | notLocalOp (op : Text)
  | notArgumentOp (op : Text)
  | notIntegerOp (op : Text)
  | wrongOperand (op kind : Text)
  | noBranches (op : Text)
  | noLabels
  | fieldAccess (op owner name : Text)
  | staticVirtualPointer (name : Text)
  | labelMarkedTwice (label : Nat)
  | unsupportedBase (type base : Text)
  | localRange (index : Int)
  | argumentRange (index : Int)
  | noSuchArgument (index : Int) (method : Text)
  | noSuchParameter (position : Int) (method : Text)
  | foreign (what module : Text)
  | foreignLocal (method : Text)
  | unmarkedLabel (label pc : Nat)
  | underflow (op : Text) (needed held : Nat)
  | returnLeaves (count : Nat)
  | emptyBody
  | bodyLeaves (count : Nat)
  | labelAtEnd (label : Nat)
  | underflowAt (pc : Nat) (op : Text) (needed held : Nat)
  | returnLeavesAt (pc count : Nat)
  | fallsOffEnd (pc : Nat)
  | depthsDiffer (pc first second : Nat)
  | memberNotFinalized (owner name : Text)
  | typeNotFinalized (type : Text)
deriving DecidableEq

namespace BackendCause

def code : BackendCause → Code
  | .notLocalOp .. | .notArgumentOp .. | .notIntegerOp .. | .wrongOperand .. | .noBranches .. | .noLabels
  | .fieldAccess .. | .staticVirtualPointer .. | .labelMarkedTwice .. => .unsupportedOp
  | .unsupportedBase .. => .unsupportedBase
  | .localRange .. | .argumentRange .. | .noSuchArgument .. | .noSuchParameter .. => .operandRange
  | .foreign .. | .foreignLocal .. => .foreignObject
  | .unmarkedLabel .. => .unmarkedLabel
  | .underflow .. | .returnLeaves .. | .emptyBody | .bodyLeaves .. | .labelAtEnd .. | .underflowAt ..
  | .returnLeavesAt .. | .fallsOffEnd .. | .depthsDiffer .. => .stackImbalance
  | .memberNotFinalized .. | .typeNotFinalized .. => .notFinalized

def message : BackendCause → Text
  | .notLocalOp op => op ++ " does not take a local operand"
  | .notArgumentOp op => op ++ " does not take an argument operand"
  | .notIntegerOp op => op ++ " does not take an integer operand"
  | .wrongOperand op k => Text.join [op, " does not take a ", k, " operand"]
  | .noBranches op => "textual backend cannot emit " ++ op
  | .noLabels => "textual backend does not support labels"
  | .fieldAccess op o n => Text.join [op, " cannot access field ", o, "::", n]
  | .staticVirtualPointer n => "ldvirtftn needs an instance method, got static " ++ n
  | .labelMarkedTwice l => Text.join ["label ", Text.ofNat l, " marked twice"]
  | .unsupportedBase t b => Text.join ["type ", t, ": base type ", b, " is not supported"]
  | .localRange i => Text.join ["local index ", Text.ofInt i, " out of range"]
  | .argumentRange i => Text.join ["argument index ", Text.ofInt i, " out of range"]
  | .noSuchArgument i m => Text.join ["argument ", Text.ofInt i, " out of range for ", m]
  | .noSuchParameter i m => Text.join ["parameter position ", Text.ofInt i, " out of range for ", m]
  | .foreign w m => Text.join [w, " does not belong to module ", m]
  | .foreignLocal m => "local slot does not belong to " ++ m
  | .unmarkedLabel l pc => Text.join ["label ", Text.ofNat l, " used by ", offsetText pc, " was never marked"]
  | .underflow op n h => Text.join [op, " needs ", Text.ofNat n, " stack values, have ", Text.ofNat h]
  | .returnLeaves n => Text.join ["ret leaves ", Text.ofNat n, " values on the stack"]
  | .emptyBody => "method body is empty"
  | .bodyLeaves n => Text.join ["body ends with ", Text.ofNat n, " values on the stack"]
  | .labelAtEnd l => Text.join ["label ", Text.ofNat l, " marks the end of the body"]
  | .underflowAt pc op n h =>
    Text.join [offsetText pc, " ", op, " needs ", Text.ofNat n, " stack values, have ", Text.ofNat h]
  | .returnLeavesAt pc n => Text.join [offsetText pc, " ret leaves ", Text.ofNat n, " values on the stack"]
  | .fallsOffEnd pc => "control falls off the end after " ++ offsetText pc
  | .depthsDiffer pc a b =>
    Text.join [offsetText pc, " reached with stack depth ", Text.ofNat a, " and ", Text.ofNat b]
  | .memberNotFinalized o n => Text.join [o, "::", n, ": type is not finalized"]
  | .typeNotFinalized t => t ++ ": type is not finalized"

end BackendCause

/-- What an instruction could not do. -/
inductive InstrCause where
  | virtualPointerOnNull (method : Text)
  | constructorOnNull (owner : Text)
  | callOnNull (op owner name : Text)
  | fieldOf (op field kind : Text)
  | lengthOf (kind : Text)
  | elementOf (op kind : Text)
  | negativeSize (size : Int)
  | indexOutside (index : Int) (size : Nat)
  | divideByZero (op : Text)
  | overflow (op : Text) (value : Int)
  | controlLeft
  | operandKinds (op left right : Text)
  | operandKind (op kind : Text)
  | sizeKind (kind : Text)
  | delegateOperands (type : Text)
  | noFieldSlot (type owner name : Text)
  | indexKind (op kind : Text)
  | notExecutable (op : Text)
deriving DecidableEq

namespace InstrCause

def code : InstrCause → Code
  | .virtualPointerOnNull .. | .constructorOnNull .. | .callOnNull .. | .fieldOf .. | .lengthOf .. | .elementOf .. =>
    .nullReference
  | .negativeSize .. | .indexOutside .. => .indexRange
  | .divideByZero .. => .divideByZero
  | .overflow .. => .overflow
  | .controlLeft | .operandKinds .. | .operandKind .. | .sizeKind .. | .delegateOperands .. | .noFieldSlot ..
  | .indexKind .. => .badOperand
  | .notExecutable .. => .unsupportedOp

def message : InstrCause → Text
  | .virtualPointerOnNull m => Text.join ["ldvirtftn ", m, " on null"]
  | .constructorOnNull o => Text.join ["call ", o, "::.ctor on null"]
  | .callOnNull op o n => Text.join [op, " ", o, "::", n, " on null"]
  | .fieldOf op f k => Text.join [op, " ", f, " on ", k]
  | .lengthOf k => "ldlen on " ++ k
  | .elementOf op k => Text.join [op, " on ", k]
  | .negativeSize n => "negative array size " ++ Text.ofInt n
  | .indexOutside i n => Text.join ["index ", Text.ofInt i, " outside [0, ", Text.ofNat n, ")"]
  | .divideByZero op => op ++ " by zero"
  | .overflow op v => Text.join [op, " ", Text.ofInt v, " by -1: arithmetic overflow"]
  | .controlLeft => "control left the body"
  | .operandKinds op a b => Text.join [op, " on ", a, " and ", b]
  | .operandKind op a => Text.join [op, " on ", a]
  | .sizeKind k => "newarr size is " ++ k
  | .delegateOperands t => Text.join ["delegate ", t, " needs (object, native int)"]
  | .noFieldSlot t o n => Text.join [t, " has no field ", o, "::", n]
  | .indexKind op k => Text.join [op, " index is ", k]
  | .notExecutable op => Text.join ["opcode ", op, " not executable"]

end InstrCause

/-- Why a text is no 32-bit number. -/
inductive NumberCause where
  | malformed
  | outOfRange
deriving DecidableEq

/-- Something that goes wrong while a program runs. -/
inductive RuntimeCause where
  | instruction (owner name : Text) (pc : Nat) (cause : InstrCause)
  | parsedNull
  | stringReceiver (kind : Text)
  | builderReceiver (kind : Text)
  | nullDelegate (owner name : Text)
  | unboundDelegate (type : Text)
  | delegateWithoutReceiver (type : Text)
  | substringRange (start count : Int) (length : Nat)
  | stringTooLong
  | depthExceeded (limit : Nat) (owner name : Text)
  | argumentCount (owner name : Text) (expected given : Nat)
  | notABuilder (type : Text)
  | parsedText (given trimmed : Text) (why : NumberCause)
  | absoluteOverflow (value : Int)
  | noImplementation (owner name : Text)
  | notRuntimeMember (owner name : Text)
deriving DecidableEq

namespace RuntimeCause

def code : RuntimeCause → Code
  | .instruction _ _ _ c => c.code
  | .parsedNull | .stringReceiver .. | .builderReceiver .. | .nullDelegate .. | .unboundDelegate ..
  | .delegateWithoutReceiver .. => .nullReference
  | .substringRange .. | .stringTooLong => .indexRange
  | .depthExceeded .. => .callDepth
  | .argumentCount .. | .notABuilder .. => .badOperand
  | .parsedText .. | .absoluteOverflow .. | .noImplementation .. | .notRuntimeMember .. => .native

def message : RuntimeCause → Text
  | .instruction o n pc c => Text.join [o, "::", n, " ", offsetText pc, ": ", c.message]
  | .parsedNull => "Int32.Parse(null)"
  | .stringReceiver k => "string receiver is " ++ k
  | .builderReceiver k => "StringBuilder receiver is " ++ k
  | .nullDelegate o n => Text.join [o, "::", n, " on null delegate"]
  | .unboundDelegate t => Text.join ["delegate ", t, " has no target method"]
  | .delegateWithoutReceiver t => Text.join ["delegate ", t, " has a null receiver"]
  | .substringRange s n l =>
    Text.join ["Substring(", Text.ofInt s, ", ", Text.ofInt n, ") on string of length ", Text.ofNat l]
  | .stringTooLong => "string length"
  | .depthExceeded l o n => Text.join ["call depth exceeds ", Text.ofNat l, " at ", o, "::", n]
  | .argumentCount o n e g => Text.join [o, "::", n, " takes ", Text.ofNat e, " arguments, got ", Text.ofNat g]
  | .notABuilder t => t ++ " is not a StringBuilder"
  | .parsedText g _ _ => Text.join ["Int32.Parse(", g.quoted, ")"]
  | .absoluteOverflow v => "Math.Abs overflow for " ++ Text.ofInt v
  | .noImplementation o n => Text.join [o, "::", n, " has no implementation"]
  | .notRuntimeMember o n => Text.join [o, "::", n, " is not a runtime member"]

/-- The text of the cause beneath, where there is one. -/
def beneath? : RuntimeCause → Option Text
  | .parsedText _ t .malformed => some (Text.join ["strconv.ParseInt: parsing ", t.quoted, ": invalid syntax"])
  | .parsedText _ t .outOfRange => some (Text.join ["strconv.ParseInt: parsing ", t.quoted, ": value out of range"])
  | .stringTooLong => some "out of range"
  | _ => none

end RuntimeCause

/-- A cause of any category. -/
inductive Cause where
  | lookup (c : LookupCause)
  | typing (c : TypingCause)
  | shape (c : ShapeCause)
  | backend (c : BackendCause)
  | runtime (c : RuntimeCause)
deriving DecidableEq

/-- The report of a cause. -/
def Cause.diagnostic : Cause → Diagnostic
  | .lookup c => { code := c.code, message := c.message }
  | .typing c => { code := c.code, message := c.message }
  | .shape c => { code := c.code, message := c.message }
  | .backend c => { code := c.code, message := c.message }
  | .runtime c => { code := c.code, message := c.message, cause := c.beneath? }

end CilCompiler
