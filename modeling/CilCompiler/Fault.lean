import CilCompiler.Diagnostic.Cause

/-!
Faults: how an operation fails. A fault is a diagnosed cause, a cancellation, an input that cannot be
decoded, or a plain complaint, possibly inside the name of what was being worked on. The message of a
fault is what a user reads; its code is that of the first diagnosed cause inside it.

A crash is not a fault that anybody reports: the program stops where it is, so that nothing that has begun is
ended and nobody is answered. It passes through everything that takes a fault up.
-/

namespace CilCompiler

inductive Fault where
  | diagnosed (c : Cause)
  | canceled
  /-- A stored tree that does not decode. -/
  | undecodable
  /-- A manifest that is not well-formed TOML, or holds a value of the wrong type. -/
  | malformedManifest
  | plain (message : Text)
  /-- A fault met while working on something. -/
  | within (context : Text) (inner : Fault)
  /-- Two faults of one operation. -/
  | alongside (first second : Fault)
  /-- Something that is not there has been looked at. -/
  | crash
deriving DecidableEq

namespace Fault

def lookup (c : LookupCause) : Fault := .diagnosed (.lookup c)

def typing (c : TypingCause) : Fault := .diagnosed (.typing c)

def shape (c : ShapeCause) : Fault := .diagnosed (.shape c)

def backend (c : BackendCause) : Fault := .diagnosed (.backend c)

def runtime (c : RuntimeCause) : Fault := .diagnosed (.runtime c)

def message : Fault → Text
  | .diagnosed c => c.diagnostic.text
  | .canceled => "context canceled"
  | .undecodable => "decode syntax tree"
  | .malformedManifest => "failed to parse TOML"
  | .plain m => m
  | .within context f => Text.join [context, ": ", f.message]
  | .alongside f g => Text.join [f.message, "\n", g.message]
  | .crash => .empty

/-- The code of the first diagnosed cause. -/
def code? : Fault → Option Code
  | .diagnosed c => some c.diagnostic.code
  | .within _ f => f.code?
  | .alongside f g => f.code?.or g.code?
  | _ => none

/-- What a caller tells faults apart by: the code, if there is one. A crash is no answer. -/
def answer? : Fault → Option (Option Code)
  | .crash => none
  | f => some f.code?

/-- Whether a cancellation is part of the fault. -/
def isCanceled : Fault → Bool
  | .canceled => true
  | .within _ f => f.isCanceled
  | .alongside f g => f.isCanceled || g.isCanceled
  | _ => false

/-- The fault inside the name of what was being worked on. -/
def inside (context : Text) : Fault → Fault
  | .crash => .crash
  | f => .within context f

theorem inside_of_ne {f : Fault} {context : Text} (h : f ≠ .crash) : f.inside context = .within context f := by
  cases f with
  | crash => exact absurd rfl h
  | _ => rfl

@[simp] theorem answer?_inside (f : Fault) (context : Text) : (f.inside context).answer? = f.answer? := by
  cases f <;> rfl

theorem code?_of_answer {f g : Fault} (h : f.answer? = g.answer?) : f.code? = g.code? := by
  have code : ∀ f : Fault, f.code? = f.answer?.join := fun f => by cases f <;> rfl
  rw [code, code, h]

/-- One fault for several, if there are any. -/
def joined? : List Fault → Option Fault
  | [] => none
  | [f] => some f
  | f :: fs => some (match joined? fs with
    | some g => .alongside f g
    | none => f)

end Fault
end CilCompiler
