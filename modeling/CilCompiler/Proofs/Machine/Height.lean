import CilCompiler.Machine.Step
import CilCompiler.Proofs.Typed.Balance

/-!
Runs of a single frame. `Goes` says that the frame comes from one place of its body to another, and `Ends` how the run of
it ends; both are put together from single instructions. They speak of machines that have not been canceled, where it
does not matter how many instructions were run before.

The height of the stack. An instruction other than `ret` takes its operands off the stack and leaves what the table of
effects says, does not look at what lies below its operands, and changes nothing else of its frame. `Acts` says so of
each of the functions that run instructions, and `Frame.exec_acts` of all instructions.
-/

namespace CilCompiler

/-- The frame at another place, with other values on its stack. -/
def Frame.place (f : Frame) (pc : Nat) (stack : List Value) : Frame := { f with pc, stack }

namespace Machine

variable {m : Machine}

@[simp] theorem run_done (n : Nat) (v : Value) (w : World) : m.run n (.done v w) = .done v w := by
  cases n <;> rfl

@[simp] theorem run_halted (n : Nat) (h : Halt) (w : World) : m.run n (.halted h w) = .halted h w := by
  cases n <;> rfl

theorem run_add (n k : Nat) (p : Progress) : m.run (n + k) p = m.run k (m.run n p) := by
  induction n generalizing p with
  | zero =>
    rw [Nat.zero_add]
    cases p <;> rfl
  | succ n ih =>
    cases p with
    | running s =>
      rw [Nat.add_right_comm]
      exact ih (m.step s)
    | done v w => simp
    | halted e w => simp

/-- The only frame comes to another place, and the world to another state. -/
def Goes (m : Machine) (f : Frame) (w : World) (f' : Frame) (w' : World) : Prop :=
  ∀ steps, ∃ n steps', m.run n (.running { frames := [f], world := w, steps }) =
    .running { frames := [f'], world := w', steps := steps' }

/-- The run of the only frame ends. -/
def Ends (m : Machine) (f : Frame) (w : World) (p : Progress) : Prop :=
  ∀ steps, ∃ n, m.run n (.running { frames := [f], world := w, steps }) = p

variable {f f' f'' : Frame} {w w' w'' : World} {i : Instr} {p : Progress}

theorem Goes.refl (f : Frame) (w : World) : m.Goes f w f w := fun steps => ⟨0, steps, rfl⟩

theorem Goes.trans (h : m.Goes f w f' w') (h' : m.Goes f' w' f'' w'') : m.Goes f w f'' w'' := by
  intro steps
  obtain ⟨n, steps', hn⟩ := h steps
  obtain ⟨k, steps'', hk⟩ := h' steps'
  exact ⟨n + k, steps'', by rw [run_add, hn, hk]⟩

theorem Goes.ends (h : m.Goes f w f' w') (h' : m.Ends f' w' p) : m.Ends f w p := by
  intro steps
  obtain ⟨n, steps', hn⟩ := h steps
  obtain ⟨k, hk⟩ := h' steps'
  exact ⟨n + k, by rw [run_add, hn, hk]⟩

section
variable (hm : m.isCanceled = false) (hi : f.body.code[f.pc]? = some i)
include hm hi

/-! ### One instruction -/

theorem Goes.next (he : f.exec m w i = (.next f', w')) : m.Goes f w { f' with pc := f'.pc + 1 } w' :=
  fun steps => ⟨1, steps + 1, by simp [run, step, hi, hm, he]⟩

theorem Goes.jump {n : Nat} (he : f.exec m w i = (.jump f' n, w')) : m.Goes f w { f' with pc := n } w' :=
  fun steps => ⟨1, steps + 1, by simp [run, step, hi, hm, he]⟩

/-- A return of a call from outside. -/
theorem Ends.ret {v : Value} (hu : f.use = .push) (he : f.exec m w i = (.ret v, w')) : m.Ends f w (.done v w') :=
  fun steps => ⟨1, by simp [run, step, hi, hm, he, hu, deliver]⟩

theorem Ends.fail {c : InstrCause} (he : f.exec m w i = (.fail c, w')) :
    m.Ends f w (.halted (faultAt f.method f.pc c) w') :=
  fun steps => ⟨1, by simp [run, step, hi, hm, he]⟩

end

end Machine

/-- How many values the result of a call adds to the stack of the frame below. -/
def ResultUse.pushes : ResultUse → Nat
  | .drop => 0
  | .push | .object _ => 1

namespace Effect

/-- The same effect with more values below those on the stack. -/
def above (rest : List Value) : Effect → Effect
  | .next f => .next { f with stack := f.stack ++ rest }
  | .jump f target => .jump { f with stack := f.stack ++ rest } target
  | .call f use r args => .call { f with stack := f.stack ++ rest } use r args
  | e => e

/-- What an instruction other than `ret` leaves of a frame: its stack is `depth` values high, the result of a call that
    begins included. A jump is to the target. -/
def Leaves (f : Frame) (depth : Nat) (target : Option Nat) : Effect → Prop
  | .next g => g = { f with stack := g.stack } ∧ g.stack.length = depth
  | .jump g n => g = { f with stack := g.stack } ∧ g.stack.length = depth ∧ target = some n
  | .call g use _ _ => g = { f with stack := g.stack } ∧ g.stack.length + use.pushes = depth
  | .ret _ => False
  | .fail c => c ≠ .controlLeft
  | .missing => True

end Effect

/-- A way to run an instruction takes `pops` values off the stack of `f` and leaves `pushes`, whatever lies below. -/
structure Acts (f : Frame) (pops pushes : Nat) (target : Option Nat) (run : Frame → Effect × World) : Prop where
  leaves : (run f).1.Leaves f (f.stack.length - pops + pushes) target
  above : ∀ rest, run { f with stack := f.stack ++ rest } = ((run f).1.above rest, (run f).2)

namespace Acts

variable {f : Frame} {w : World} {pops pushes : Nat} {target : Option Nat} {run : Frame → Effect × World}

theorem push (v : Value) : Acts f 0 1 none fun f => (.next (f.push v), w) where
  leaves := ⟨rfl, rfl⟩
  above _ := rfl

theorem fail {c : InstrCause} (hc : c ≠ .controlLeft) : Acts f pops pushes target fun _ => (.fail c, w) where
  leaves := hc
  above _ := rfl

/-! A stack that holds the operands is looked at with the operands on top. -/

theorem one (hs : 1 ≤ f.stack.length) (h : ∀ a rest, Acts { f with stack := a :: rest } 1 pushes target run) :
    Acts f 1 pushes target run := by
  obtain ⟨method, body, args, argCount, locals, stack, pc, levels, use⟩ := f
  match stack, hs with
  | a :: rest, _ => exact h a rest

theorem two (hs : 2 ≤ f.stack.length) (h : ∀ b a rest, Acts { f with stack := b :: a :: rest } 2 pushes target run) :
    Acts f 2 pushes target run := by
  obtain ⟨method, body, args, argCount, locals, stack, pc, levels, use⟩ := f
  match stack, hs with
  | b :: a :: rest, _ => exact h b a rest

theorem three (hs : 3 ≤ f.stack.length)
    (h : ∀ c b a rest, Acts { f with stack := c :: b :: a :: rest } 3 pushes target run) : Acts f 3 pushes target run := by
  obtain ⟨method, body, args, argCount, locals, stack, pc, levels, use⟩ := f
  match stack, hs with
  | c :: b :: a :: rest, _ => exact h c b a rest

end Acts

namespace Frame

variable {m : Machine} {f : Frame} {w : World} {op : Opcode}

/-! ### Loads, stores and operators -/

section Cells
variable {p : Frame → Option Nat} (hp : ∀ s, p { f with stack := s } = p f)
include hp

theorem load_acts : Acts f 0 1 none fun f => (f.loadCell w.heap (p f), w) := by
  cases hc : p f with
  | none => exact ⟨by simp [hc, loadCell, Effect.Leaves], fun s => by simp [hp, hc, loadCell, Effect.above]⟩
  | some c => exact ⟨by simp [hc, loadCell, Effect.Leaves, push], fun s => by simp [hp, hc, loadCell, Effect.above, push]⟩

theorem loadAddress_acts : Acts f 0 1 none fun f => (f.loadCellAddress (p f), w) := by
  cases hc : p f with
  | none => exact ⟨by simp [hc, loadCellAddress, Effect.Leaves], fun s => by simp [hp, hc, loadCellAddress, Effect.above]⟩
  | some c =>
    exact ⟨by simp [hc, loadCellAddress, Effect.Leaves, push],
        fun s => by simp [hp, hc, loadCellAddress, Effect.above, push]⟩

end Cells

theorem storeTo_acts (a : Address) (hs : 1 ≤ f.stack.length) : Acts f 1 0 none fun f => f.storeTo w a :=
  .one hs fun _ _ => ⟨⟨rfl, rfl⟩, fun _ => rfl⟩

theorem storeCell_acts {p : Frame → Option Nat} (hp : ∀ s, p { f with stack := s } = p f)
    (hs : 1 ≤ f.stack.length) : Acts f 1 0 none fun f => f.storeCell w (p f) := by
  cases hc : p f with
  | none => exact ⟨by simp [hc, storeCell, Effect.Leaves], fun s => by simp [hp, hc, storeCell, Effect.above]⟩
  | some c =>
    obtain ⟨leaves, above⟩ := storeTo_acts (w := w) (.cell c) hs
    exact ⟨by simpa only [hc, storeCell] using leaves, fun s => by simpa only [hp, hc, storeCell] using above s⟩

theorem execDup_acts (hs : 1 ≤ f.stack.length) : Acts f 1 2 none fun f => (f.execDup, w) :=
  .one hs fun _ _ => ⟨⟨rfl, rfl⟩, fun _ => rfl⟩

theorem execPop_acts (hs : 1 ≤ f.stack.length) : Acts f 1 0 none fun f => (f.execPop, w) :=
  .one hs fun _ _ => ⟨⟨rfl, rfl⟩, fun _ => rfl⟩

theorem execEqual_acts (hs : 2 ≤ f.stack.length) : Acts f 2 1 none fun f => (f.execEqual w.heap, w) :=
  .two hs fun _ _ _ => ⟨⟨rfl, rfl⟩, fun _ => rfl⟩

theorem arithmeticResult_error {a b : Int32} {c : InstrCause} (h : arithmeticResult op a b = .error c) :
    c ≠ .controlLeft := by
  rintro rfl
  unfold arithmeticResult at h
  split at h <;> (try split at h) <;> (try split at h) <;> cases h

theorem execBinary_acts (hs : 2 ≤ f.stack.length) : Acts f 2 1 none fun f => (f.execBinary w.heap op, w) := by
  refine .two hs fun b a rest => ?_
  constructor
  · dsimp only [execBinary]
    split
    · split
      · exact ⟨rfl, rfl⟩
      · exact arithmeticResult_error ‹_›
    · exact fun h => by cases h
  · intro rest'
    dsimp only [execBinary, List.cons_append]
    split
    · split <;> rfl
    · rfl

theorem execUnary_acts (g : Int32 → Int32) (hs : 1 ≤ f.stack.length) :
    Acts f 1 1 none fun f => (f.execUnary w.heap op g, w) := by
  refine .one hs fun a rest => ?_
  constructor
  · dsimp only [execUnary]
    split
    · exact ⟨rfl, rfl⟩
    · exact fun h => by cases h
  · intro rest'
    dsimp only [execUnary, List.cons_append]
    split <;> rfl

theorem execConvert_acts (hs : 1 ≤ f.stack.length) : Acts f 1 1 none fun f => f.execConvert m w op := by
  refine .one hs fun a rest => ?_
  constructor
  · dsimp only [execConvert]
    split
    · exact ⟨rfl, rfl⟩
    · exact ⟨rfl, rfl⟩
    · exact fun h => by cases h
  · intro rest'
    dsimp only [execConvert, List.cons_append]
    split <;> rfl

theorem execBranch_acts (x : Operand) (taken : Value → Bool) (hs : 1 ≤ f.stack.length) :
    Acts f 1 0 (Instr.offset? { op, operand := x }) fun f => (f.execBranch x taken, w) := by
  refine .one hs fun v rest => ?_
  cases x with
  | offset n =>
    constructor
    · dsimp only [execBranch]
      split
      · exact ⟨rfl, rfl, rfl⟩
      · exact ⟨rfl, rfl⟩
    · intro rest'
      dsimp only [execBranch, List.cons_append]
      split <;> rfl
  | _ => exact ⟨trivial, fun _ => rfl⟩

/-! ### Fields and elements -/

/-- How looking for a cell fails. -/
def IsFailure (e : Effect) : Prop := e = .missing ∨ ∃ c, e = .fail c ∧ c ≠ .controlLeft

theorem fieldCell_error {h : Heap} {x : Field} {v : Value} {e : Effect}
    (he : fieldCell h op x v = .error e) : IsFailure e := by
  unfold fieldCell at he
  repeat' split at he
  all_goals cases he
  all_goals simp [IsFailure]

theorem elementCell_error {h : Heap} {a v : Value} {e : Effect} (he : elementCell h op a v = .error e) : IsFailure e := by
  unfold elementCell at he
  repeat' split at he
  all_goals cases he
  all_goals simp [IsFailure]

section Found
variable {found : Except Effect Nat} {rest : List Value} (hf : ∀ {e : Effect}, found = .error e → IsFailure e)
include hf

theorem loadFound_leaves (h : Heap) (byAddress : Bool) :
    (f.loadFound h rest byAddress found).Leaves f (rest.length + 1) none := by
  cases found with
  | ok c => exact ⟨rfl, rfl⟩
  | error e =>
    rcases hf rfl with rfl | ⟨c, rfl, hc⟩
    · trivial
    · exact hc

theorem storeFound_leaves (v : Value) : (f.storeFound w rest v found).1.Leaves f rest.length none := by
  cases found with
  | ok c => exact ⟨rfl, rfl⟩
  | error e =>
    rcases hf rfl with rfl | ⟨c, rfl, hc⟩
    · trivial
    · exact hc

theorem loadFound_above (h : Heap) (s more : List Value) (byAddress : Bool) :
    ({ f with stack := s } : Frame).loadFound h (rest ++ more) byAddress found =
      (f.loadFound h rest byAddress found).above more := by
  cases found with
  | ok c => rfl
  | error e => rcases hf rfl with rfl | ⟨c, rfl, hc⟩ <;> rfl

theorem storeFound_above (v : Value) (s more : List Value) :
    ({ f with stack := s } : Frame).storeFound w (rest ++ more) v found =
      ((f.storeFound w rest v found).1.above more, (f.storeFound w rest v found).2) := by
  cases found with
  | ok c => rfl
  | error e => rcases hf rfl with rfl | ⟨c, rfl, hc⟩ <;> rfl

end Found

theorem execField_acts {x : Field} (hop : op = .ldfld ∨ op = .ldflda ∨ op = .stfld) (hs : op.row.pops ≤ f.stack.length) :
    Acts f op.row.pops op.row.pushes none fun f => f.execField w op x := by
  rcases hop with rfl | rfl | rfl
  · exact .one hs fun _ _ => ⟨loadFound_leaves fieldCell_error .., fun _ => by
      dsimp only [execField, List.cons_append]; rw [loadFound_above fieldCell_error]; rfl⟩
  · exact .one hs fun _ _ => ⟨loadFound_leaves fieldCell_error .., fun _ => by
      dsimp only [execField, List.cons_append]; rw [loadFound_above fieldCell_error]; rfl⟩
  · exact .two hs fun _ _ _ => ⟨storeFound_leaves fieldCell_error .., fun _ => by
      dsimp only [execField, List.cons_append]; rw [storeFound_above fieldCell_error]; rfl⟩

theorem execElement_acts (hop : op = .ldelem ∨ op = .ldelema ∨ op = .stelem) (hs : op.row.pops ≤ f.stack.length) :
    Acts f op.row.pops op.row.pushes none fun f => f.execElement w op := by
  rcases hop with rfl | rfl | rfl
  · exact .two hs fun _ _ _ => ⟨loadFound_leaves elementCell_error .., fun _ => by
      dsimp only [execElement, List.cons_append]; rw [loadFound_above elementCell_error]; rfl⟩
  · exact .two hs fun _ _ _ => ⟨loadFound_leaves elementCell_error .., fun _ => by
      dsimp only [execElement, List.cons_append]; rw [loadFound_above elementCell_error]; rfl⟩
  · exact .three hs fun _ _ _ _ => ⟨storeFound_leaves elementCell_error .., fun _ => by
      dsimp only [execElement, List.cons_append]; rw [storeFound_above elementCell_error]; rfl⟩

theorem execNewArray_acts (t : Ty) (hs : 1 ≤ f.stack.length) : Acts f 1 1 none fun f => f.execNewArray w t := by
  refine .one hs fun v rest => ?_
  constructor
  · dsimp only [execNewArray]
    split
    · split
      · exact fun h => by cases h
      · exact ⟨rfl, rfl⟩
    · exact fun h => by cases h
  · intro rest'
    dsimp only [execNewArray, List.cons_append]
    split
    · split <;> rfl
    · rfl

theorem execLength_acts (hs : 1 ≤ f.stack.length) : Acts f 1 1 none fun f => (f.execLength w.heap, w) := by
  refine .one hs fun v rest => ?_
  constructor
  · dsimp only [execLength]
    split
    · split
      · exact ⟨rfl, rfl⟩
      · trivial
    · exact fun h => by cases h
  · intro rest'
    dsimp only [execLength, List.cons_append]
    split
    · split <;> rfl
    · rfl

theorem execBox_acts (t : Ty) (hs : 1 ≤ f.stack.length) : Acts f 1 1 none fun f => f.execBox m w t := by
  refine .one hs fun v rest => ?_
  constructor
  · dsimp only [execBox]
    split
    · split
      · exact ⟨rfl, rfl⟩
      · trivial
    · exact ⟨rfl, rfl⟩
  · intro rest'
    dsimp only [execBox, List.cons_append]
    split
    · split <;> rfl
    · rfl

/-! ### Calls -/

theorem execVirtualPointer_acts (r : Method) (hs : 1 ≤ f.stack.length) :
    Acts f 1 1 none fun f => (f.execVirtualPointer m w.heap r, w) := by
  refine .one hs fun v rest => ?_
  constructor
  · dsimp only [execVirtualPointer]
    split
    · exact fun h => by cases h
    · exact ⟨rfl, rfl⟩
  · intro rest'
    dsimp only [execVirtualPointer, List.cons_append]
    split <;> rfl

/-- The topmost values are taken off the stack where there are so many. -/
theorem popN?_above {n : Nat} (hs : n ≤ f.stack.length) (rest : List Value) :
    f.popN? n = some ((f.stack.take n).reverse, { f with stack := f.stack.drop n }) ∧
      ({ f with stack := f.stack ++ rest } : Frame).popN? n =
        some ((f.stack.take n).reverse, { f with stack := f.stack.drop n ++ rest }) := by
  have hle : ¬f.stack.length < n := by omega
  have hle' : ¬(f.stack ++ rest).length < n := by simp; omega
  simp only [popN?, if_neg hle, if_neg hle', List.take_append_of_le_length hs, List.drop_append_of_le_length hs, and_self]

theorem execCall_acts (r : Method) (hs : r.argCount ≤ f.stack.length) :
    Acts f r.argCount (if r.returnsVoid then 0 else 1) none fun f => (f.execCall m w.heap op r, w) := by
  have height : (f.stack.drop r.argCount).length + (if r.returnsVoid then ResultUse.drop else .push).pushes =
      f.stack.length - r.argCount + if r.returnsVoid then 0 else 1 := by
    rw [List.length_drop]
    split <;> rfl
  constructor
  · dsimp only [execCall]
    rw [(popN?_above hs []).1, ← height]
    generalize (if r.returnsVoid = true then ResultUse.drop else .push) = use
    dsimp only
    split
    · exact ⟨rfl, rfl⟩
    · split
      · trivial
      · split
        · exact fun h => by cases h
        · exact ⟨rfl, rfl⟩
  · intro rest
    dsimp only [execCall]
    rw [(popN?_above hs rest).1, (popN?_above hs rest).2]
    dsimp only
    repeat' split
    all_goals rfl

/-- A constructor takes the object it is called on and its arguments; a static one takes what counts as its arguments
    only. -/
theorem execCtorCall_acts (c : Method) (hs : c.argCount ≤ f.stack.length) :
    Acts f c.argCount 0 none fun f => (f.execCtorCall w.heap c, w) := by
  constructor
  · dsimp only [execCtorCall]
    rw [(popN?_above hs []).1]
    cases (f.stack.take c.argCount).reverse with
    | nil => trivial
    | cons self more =>
      dsimp only
      split
      · exact fun h => by cases h
      · exact ⟨rfl, by simp [ResultUse.pushes]⟩
  · intro rest
    dsimp only [execCtorCall]
    rw [(popN?_above hs rest).1, (popN?_above hs rest).2]
    cases (f.stack.take c.argCount).reverse with
    | nil => rfl
    | cons self more =>
      dsimp only
      split <;> rfl

theorem execNew_acts (c : Method) (hs : c.params.length ≤ f.stack.length) :
    Acts f c.params.length 1 none fun f => f.execNew m w c := by
  constructor
  · dsimp only [execNew]
    rw [(popN?_above hs []).1]
    cases m.def? c.owner with
    | none => trivial
    | some d =>
      cases m.routine? c with
      | none => trivial
      | some x =>
        dsimp only
        split
        · split
          · exact ⟨rfl, by simp [push]⟩
          · exact fun h => by cases h
        · exact ⟨rfl, by simp [ResultUse.pushes]⟩
  · intro rest
    dsimp only [execNew]
    rw [(popN?_above hs rest).1, (popN?_above hs rest).2]
    cases m.def? c.owner with
    | none => rfl
    | some d =>
      cases m.routine? c with
      | none => rfl
      | some x =>
        dsimp only
        split
        · split <;> rfl
        · rfl

/-! ### All instructions -/

/-- A long form other than `ret`. Constructors that are called are not static. -/
theorem execLong_acts {i : Instr} {ret : Option Ty} (hr : i.op ≠ .ret)
    (hc : ∀ c, i = { op := .call, operand := .ctor c } → c.isStatic = false)
    (hs : (i.effect ret).1 ≤ f.stack.length) :
    Acts f (i.effect ret).1 (i.effect ret).2 (if i.op.isBranch then i.offset? else none) fun f => f.execLong m w i := by
  obtain ⟨op, x⟩ := i
  cases op
  case ret => exact absurd rfl hr
  case nop => exact ⟨⟨rfl, rfl⟩, fun _ => rfl⟩
  case ldnull | ldc => exact .push _
  case ldarg => exact load_acts (p := (·.arg? x.number)) fun _ => rfl
  case ldloc => exact load_acts (p := (·.local? x.number)) fun _ => rfl
  case ldarga => exact loadAddress_acts (p := (·.arg? x.number)) fun _ => rfl
  case ldloca => exact loadAddress_acts (p := (·.local? x.number)) fun _ => rfl
  case starg => exact storeCell_acts (p := (·.arg? x.number)) (fun _ => rfl) hs
  case stloc => exact storeCell_acts (p := (·.local? x.number)) (fun _ => rfl) hs
  case dup => exact execDup_acts hs
  case pop => exact execPop_acts hs
  case brtrue | brfalse => exact execBranch_acts x _ hs
  case ceq => exact execEqual_acts hs
  case neg | not => exact execUnary_acts _ hs
  case convI4 => exact execConvert_acts hs
  case add | sub | mul | div | rem | and | or | xor | cgt | clt => exact execBinary_acts hs
  case ldlen => exact execLength_acts hs
  case ldelem | ldelema | stelem => exact execElement_acts (by simp) hs
  case ldstr =>
    cases x with
    | str s => exact .push _
    | _ => exact .fail fun h => by cases h
  case br =>
    cases x with
    | offset n => exact ⟨⟨rfl, rfl, rfl⟩, fun _ => rfl⟩
    | _ => exact .fail fun h => by cases h
  case call =>
    cases x with
    | method r => exact execCall_acts r hs
    | ctor c =>
      -- The table counts the object among the operands.
      have hcount : c.argCount = c.params.length + 1 := by simp [Method.argCount, hc c rfl]
      have acts : Acts f c.argCount 0 none fun f => (f.execCtorCall w.heap c, w) := execCtorCall_acts c (hcount ▸ hs)
      rw [hcount] at acts
      exact acts
    | _ => exact .fail fun h => by cases h
  case callvirt =>
    cases x with
    | method r => exact execCall_acts r hs
    | _ => exact .fail fun h => by cases h
  case newobj =>
    cases x with
    | ctor c => exact execNew_acts c hs
    | _ => exact .fail fun h => by cases h
  case ldftn =>
    cases x with
    | method r => exact .push _
    | _ => exact .fail fun h => by cases h
  case ldvirtftn =>
    cases x with
    | method r => exact execVirtualPointer_acts r hs
    | _ => exact .fail fun h => by cases h
  case ldfld | ldflda | stfld =>
    cases x with
    | field x => exact execField_acts (by simp) hs
    | _ => exact .fail fun h => by cases h
  case ldsfld | ldsflda =>
    cases x with
    | field x => exact .push _
    | _ => exact .fail fun h => by cases h
  case stsfld =>
    cases x with
    | field x => exact storeTo_acts _ hs
    | _ => exact .fail fun h => by cases h
  case newarr =>
    cases x with
    | type t => exact execNewArray_acts t hs
    | _ => exact .fail fun h => by cases h
  case box =>
    cases x with
    | type t => exact execBox_acts t hs
    | _ => exact .fail fun h => by cases h
  -- What is left are the short forms, which are run as long ones, and numbers without an instruction.
  all_goals exact .fail fun h => by cases h

theorem target_expanded (i : Instr) :
    (if i.expanded.op.isBranch then i.expanded.offset? else none) = if i.op.isBranch then i.offset? else none := by
  rw [Instr.isBranch_expanded]
  split
  · rw [Instr.expanded_of_branch ‹_›]
  · rfl

theorem expanded_op_ne_ret {i : Instr} (h : i.op ≠ .ret) : i.expanded.op ≠ .ret := by
  obtain ⟨op, x⟩ := i
  cases op <;> first | exact absurd rfl h | exact fun h => by cases h

/-- An instruction other than `ret` acts on the stack as the table of effects says. -/
theorem exec_acts {i : Instr} {ret : Option Ty} (hr : i.op ≠ .ret)
    (hc : ∀ c, i = { op := .call, operand := .ctor c } → c.isStatic = false)
    (hs : (i.effect ret).1 ≤ f.stack.length) :
    Acts f (i.effect ret).1 (i.effect ret).2 (if i.op.isBranch then i.offset? else none) fun f => f.exec m w i := by
  rw [← Instr.effect_expanded] at hs ⊢
  rw [← target_expanded]
  exact execLong_acts (expanded_op_ne_ret hr) (fun c h => hc c (Instr.expanded_eq_call h)) hs

end Frame
end CilCompiler
