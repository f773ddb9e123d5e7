import CilCompiler.Module.Draft

/-!
Stack balance. A dynamic body is finished by turning labels into positions and checking the stack along
every path from its first instruction: each instruction is reached with one depth only, finds its operands,
`ret` leaves nothing behind, and no path runs off the end. `Flow.run` finds the depths; what it keeps in
`depths` is the depth at every instruction that can be reached.
-/

namespace CilCompiler

/-- A finished body. -/
structure Body where
  code : Array Instr
  locals : Array Ty
  maxStack : Nat
deriving DecidableEq, Inhabited

/-- The state of the search for depths. -/
structure Flow where
  /-- The depth at each instruction that has been reached. -/
  depths : Array (Option Nat)
  /-- Instructions that have been reached and not looked at. -/
  work : List Nat
  /-- The most values found on the stack. -/
  peak : Nat
deriving DecidableEq

namespace Flow

/-- Before the search: the first instruction is reached with an empty stack. -/
def start (size : Nat) : Flow :=
  { depths := (Array.replicate size none).setIfInBounds 0 (some 0), work := [0], peak := 0 }

/-- An instruction is reached with a depth. -/
def reach (f : Flow) (pc depth : Nat) : Except Fault Flow :=
  match f.depths[pc]? with
  | some (some d) => if d = depth then .ok f else .error (.backend (.depthsDiffer pc d depth))
  | _ => .ok { f with depths := f.depths.setIfInBounds pc (some depth), work := pc :: f.work }

/-- The positions control goes to behind an instruction: a branch's target first. -/
def successors (size pc : Nat) (i : Instr) : Except Fault (List Nat) :=
  let targets := match i.operand with
    | .offset target => [target]
    | _ => []
  if i.op.terminates then .ok targets
  else if pc + 1 < size then .ok (targets ++ [pc + 1])
  else .error (.backend (.fallsOffEnd pc))

/-- Looks at one instruction. -/
def visit (ret : Option Ty) (code : Array Instr) (f : Flow) (pc : Nat) : Except Fault Flow :=
  match code[pc]?, f.depths[pc]? with
  | some i, some (some depth) =>
    let (pops, pushes) := i.effect ret
    if depth < pops then .error (.backend (.underflowAt pc i.op.mnemonic pops depth))
    else
      let after := depth - pops + pushes
      let f := { f with peak := max f.peak after }
      if i.op = .ret then
        if after = 0 then .ok f else .error (.backend (.returnLeavesAt pc after))
      else do
        let next ← successors code.size pc i
        next.foldlM (fun f n => f.reach n after) f
  | _, _ => .ok f

/-- Looks at instructions until none is left, at most `fuel` of them. -/
def run (ret : Option Ty) (code : Array Instr) : (fuel : Nat) → Flow → Except Fault Flow
  | 0, f => .ok f
  | fuel + 1, f =>
    match f.work with
    | [] => .ok f
    | pc :: rest => do
      let f ← visit ret code { f with work := rest } pc
      run ret code fuel f

/-- The depths of a body; every instruction is looked at once at most. -/
def ofCode (ret : Option Ty) (code : Array Instr) : Except Fault Flow := run ret code code.size (start code.size)

end Flow

namespace Draft

/-- An instruction with its label turned into the marked position. -/
def resolve (d : Draft) (pc : Nat) (i : Instr) : Except Fault Instr :=
  match i.operand with
  | .label id =>
    match d.marks[id]? with
    | some (some target) =>
      if target < d.code.size then .ok { i with operand := .offset target }
      else .error (.backend (.labelAtEnd id))
    | _ => .error (.backend (.unmarkedLabel id pc))
  | _ => .ok i

/-- The instructions from `pc` on with their labels resolved. -/
def resolveFrom (d : Draft) (pc : Nat) : List Instr → Except Fault (List Instr)
  | [] => .ok []
  | i :: rest => do
    let i ← d.resolve pc i
    let rest ← d.resolveFrom (pc + 1) rest
    return i :: rest

/-- Finishes the body of a method that returns `ret`. -/
def verify (d : Draft) (ret : Option Ty) : Except Fault Body := do
  let code := (← d.resolveFrom 0 d.code.toList).toArray
  if code.isEmpty then .error (.backend .emptyBody)
  else
    let flow ← Flow.ofCode ret code
    return { code, locals := d.locals, maxStack := flow.peak }

/-- Finishes a body without branches, whose stack was counted as it grew. -/
def settle (d : Draft) : Except Fault Body :=
  if d.code.isEmpty then .error (.backend .emptyBody)
  else if d.depth ≠ 0 then .error (.backend (.bodyLeaves d.depth))
  else .ok { code := d.code, locals := d.locals, maxStack := d.peak }

end Draft
end CilCompiler
