import CilCompiler.Compiler
import CilCompiler.Proofs.Outcome

/-!
A compilation that crashes. No instruction crashes but one in a listing whose type is missing
(`Emission.encode_eq_crash`). `T[]` is the array of `T` as long as no type is declared under that name. A class named
`int[]` is no array, so that an array of that name has no type of elements, and the instruction that makes it has no
operand: a module that can be run refuses the instruction, and a listing crashes on it (`Site.withoutType`).
-/

namespace CilCompiler

/-! ### Instructions -/

@[simp] theorem Fault.backend_ne_crash (c : BackendCause) : Fault.backend c ≠ .crash := nofun

@[simp] theorem Fault.shape_ne_crash (c : ShapeCause) : Fault.shape c ≠ .crash := nofun

@[simp] theorem Site.foreign_ne_crash (s : Site) (what : Text) : s.foreign what ≠ .crash := nofun

theorem ok_ne_crash {α : Type} (a : α) : (.ok a : Except Fault α) ≠ .error .crash := nofun

theorem bind_ne_crash {α β : Type} {x : Except Fault α} {f : α → Except Fault β} (hx : x ≠ .error .crash)
    (hf : ∀ a, f a ≠ .error .crash) : x >>= f ≠ .error .crash := by
  cases x with
  | ok a => exact hf a
  | error e => exact fun h => hx (congrArg Except.error (Except.error.inj h))

theorem Site.requireOpen_ne_crash (s : Site) (what : Text) : s.requireOpen what ≠ .error .crash := by
  unfold requireOpen
  split <;> simp

theorem Site.check_ne_crash (s : Site) (op : Opcode) (k : OperandKind) : s.check op k ≠ .error .crash := by
  refine bind_ne_crash (s.requireOpen_ne_crash _) fun _ => ?_
  split <;> simp

namespace ShortForm

theorem ofLocal_ne_crash (op : Opcode) (index : Int) : ofLocal op index ≠ .error .crash := by
  unfold ofLocal
  split
  · simp
  · dsimp only
    split <;> simp

theorem ofArg_ne_crash (op : Opcode) (index : Int) : ofArg op index ≠ .error .crash := by
  unfold ofArg
  split
  · simp
  · dsimp only
    split <;> simp

end ShortForm

namespace Emission
variable {s : Site}

theorem encodeField_ne_crash (op : Opcode) (f : Field) : encodeField s op f ≠ .error .crash := by
  refine bind_ne_crash (s.check_ne_crash op .field) fun _ => ?_
  repeat' split
  all_goals simp

theorem encodeMethod_ne_crash (op : Opcode) (m : Method) : encodeMethod s op m ≠ .error .crash := by
  refine bind_ne_crash (s.check_ne_crash op .method) fun _ => ?_
  repeat' split
  all_goals simp

theorem encodeCtor_ne_crash (op : Opcode) (c : Method) : encodeCtor s op c ≠ .error .crash := by
  refine bind_ne_crash (s.check_ne_crash op .ctor) fun _ => ?_
  split <;> simp

theorem encodeLocal_ne_crash (op : Opcode) (l : Option LocalSlot) : encodeLocal s op l ≠ .error .crash := by
  unfold encodeLocal
  cases l with
  | none =>
    cases s.backend with
    | textual => exact bind_ne_crash (s.requireOpen_ne_crash _) fun _ => by simp
    | dynamic => exact bind_ne_crash (s.check_ne_crash _ _) fun _ => by simp
  | some l =>
    have found {f : Fault} (hf : f ≠ .crash) :
        (if l.method = s.method then ShortForm.ofLocal op l.index else .error f) ≠ .error .crash := by
      split
      · exact ShortForm.ofLocal_ne_crash op l.index
      · exact fun h => hf (Except.error.inj h)
    cases s.backend with
    | textual => exact bind_ne_crash (s.requireOpen_ne_crash _) fun _ => found (Fault.backend_ne_crash _)
    | dynamic => exact bind_ne_crash (s.check_ne_crash _ _) fun _ => found (s.foreign_ne_crash _)

theorem encodeArg_ne_crash (op : Opcode) (i : Int) : encodeArg s op i ≠ .error .crash := by
  have found : (if i < 0 ∨ s.method.argCount ≤ i then .error (.backend (.noSuchArgument i s.method.name))
      else ShortForm.ofArg op i) ≠ .error .crash := by
    split
    · simp
    · exact ShortForm.ofArg_ne_crash op i
  unfold encodeArg
  dsimp only
  split
  · exact bind_ne_crash (s.requireOpen_ne_crash _) fun _ => found
  · exact bind_ne_crash (s.check_ne_crash _ _) fun _ => found

theorem encodeLabel_ne_crash (op : Opcode) (l : Option Label) : encodeLabel s op l ≠ .error .crash := by
  unfold encodeLabel
  split
  · simp
  · refine bind_ne_crash (s.check_ne_crash op .label) fun _ => ?_
    repeat' split
    all_goals simp

/-- Only an instruction of a listing crashes, and only where it is one of types that has none. -/
theorem encode_eq_crash {e : Emission} :
    e.encode s = .error .crash ↔ s.backend = .textual ∧ ∃ op, e = .type op none ∧ s.check op .type = .ok () := by
  constructor
  · intro h
    cases e with
    | plain op =>
      rw [encode] at h
      split at h
      · cases h
      · exact absurd h (bind_ne_crash (s.check_ne_crash op .none) fun _ => ok_ne_crash _)
    | int op v =>
      rw [encode] at h
      split at h
      · exact absurd h (bind_ne_crash (s.requireOpen_ne_crash _) fun _ => ok_ne_crash _)
      · cases h
    | str op t => exact absurd h (bind_ne_crash (s.check_ne_crash op .string) fun _ => ok_ne_crash _)
    | type op t =>
      cases t with
      | some t => exact absurd h (bind_ne_crash (s.check_ne_crash op .type) fun _ => ok_ne_crash _)
      | none =>
        cases hc : s.check op .type with
        | error f =>
          simp only [encode, hc] at h
          cases h
          exact absurd hc (s.check_ne_crash op .type)
        | ok u =>
          simp only [encode, hc] at h
          cases hb : s.backend with
          | textual => exact ⟨rfl, op, rfl, hc⟩
          | dynamic =>
            rw [Site.withoutType, hb] at h
            cases h
    | field op f => exact absurd h (encodeField_ne_crash op f)
    | method op m => exact absurd h (encodeMethod_ne_crash op m)
    | ctor op c => exact absurd h (encodeCtor_ne_crash op c)
    | «local» op l => exact absurd h (encodeLocal_ne_crash op l)
    | arg op i => exact absurd h (encodeArg_ne_crash op i)
    | label op l => exact absurd h (encodeLabel_ne_crash op l)
  · rintro ⟨hb, op, rfl, hc⟩
    simp only [encode, hc, Site.withoutType, hb]
    rfl

end Emission

namespace Compilation

/-- A class with the name of an array, and a method that makes such an array. -/
def bracketed : Program where
  delegates := []
  classes := [{ name := "int[]", fields := [], ctors := [], methods := [] }, {
    name := "Row", fields := [], ctors := []
    methods := [{
      name := "Main", isStatic := true, ret := .empty, params := []
      body := [.local "cells" .empty (.newArray "int" (.int 3))] }] }]

end Compilation
end CilCompiler
