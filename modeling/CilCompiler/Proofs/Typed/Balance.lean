import CilCompiler.Proofs.Typed.Stmt

/-!
Typed bodies are balanced. Where no array has void elements, an instruction takes as many values off the stack
as it takes slots, so the number of slots in front of each instruction is its depth, and a complete body can be
finished. The depth behind code can be counted straight through it.

The statements that lowering comes to, at any depth of loops and choices, have the work done until then. At each of
them the stack is empty, and the code of the body goes on from there.
-/

namespace CilCompiler

theorem Instr.terminates_expanded (i : Instr) : i.expanded.op.terminates = i.op.terminates := by
  obtain ⟨op, x⟩ := i
  cases op <;> rfl

theorem Instr.expanded_of_branch {i : Instr} (h : i.op.isBranch = true) : i.expanded = i := by
  obtain ⟨op, x⟩ := i
  rcases Draft.isBranch_iff.mp h with rfl | rfl | rfl <;> rfl

/-- The depth behind an instruction and in front of the next one, which counts as empty where control does not
    go on. -/
def Instr.depthPast (ret : Option Ty) (depth : Nat) (i : Instr) : Nat :=
  if i.op.terminates then 0 else i.depthAfter ret depth

/-- The depth in front of position `n` of code, counted straight through what is before it. -/
def depthAt (ret : Option Ty) (code : Array Instr) (n : Nat) : Nat := (code.toList.take n).foldl (Instr.depthPast ret) 0

/-- The depth behind code. -/
def depthBehind (ret : Option Ty) (code : Array Instr) : Nat := depthAt ret code code.size

/-- Code that goes on does not change the depth where it stood. -/
theorem depthAt_of_start {ret : Option Ty} {code code' : Array Instr} (h : code.toList <+: code'.toList) :
    depthAt ret code' code.size = depthBehind ret code := by
  obtain ⟨rest, hrest⟩ := h
  rw [depthBehind, depthAt, depthAt, ← hrest, ← Array.length_toList, List.take_left, List.take_length]

namespace Setting
variable {Γ : Setting} {locals : Array Ty} {labels : Nat} {i : Instr} {S S' : List Slot} {d : Draft}

/-- Slots count as values. -/
theorem Types.depth (hv : Γ.Voidless) (h : Γ.Types locals labels i S S') :
    (i.effect (some Γ.scope.ret)).1 ≤ S.length ∧ S'.length = i.depthAfter (some Γ.scope.ret) S.length := by
  refine ⟨h.shifts.1, h.shifts.2.resolve_right ?_⟩
  rintro ⟨-, -, e, he, ha⟩
  rw [hv ha] at he
  cases he

/-- Where control does not go on, nothing is on the stack. -/
theorem Types.past (hv : Γ.Voidless) (h : Γ.Types locals labels i.expanded S S') :
    S'.length = i.depthPast (some Γ.scope.ret) S.length := by
  have hd := (h.depth hv).2
  rw [Instr.depthAfter, Instr.effect_expanded, ← Instr.depthAfter] at hd
  unfold Instr.depthPast
  split
  · rename_i ht
    rw [← Instr.terminates_expanded] at ht
    generalize i.expanded = j at h ht
    cases h with
    | leave _ | «return» _ _ | jump _ => rfl
    | arithmetic hop _ _ | order hop _ _ | unary hop _ | test hop _ _ =>
      simp only [List.mem_cons, List.not_mem_nil, or_false] at hop
      rcases hop with rfl | rfl | rfl | rfl | rfl | rfl | rfl <;> cases ht
    | callInstance _ _ _ hr => cases hr <;> cases ht
    | _ => cases ht
  · exact hd

/-- A branch has a label, and nothing on the stack behind it. -/
theorem Types.branch (h : Γ.Types locals labels i.expanded S S') (hb : i.op.isBranch = true) :
    S' = [] ∧ ∃ id, i.operand = .label id ∧ id < labels := by
  rw [Instr.expanded_of_branch hb] at h
  cases h with
  | jump hid => exact ⟨rfl, _, rfl, hid⟩
  | test _ hid _ => exact ⟨rfl, _, rfl, hid⟩
  | arithmetic hop _ _ | order hop _ _ | unary hop _ =>
    simp only [List.mem_cons, List.not_mem_nil, or_false] at hop
    rcases hop with rfl | rfl | rfl | rfl | rfl | rfl | rfl <;> cases hb
  | callInstance _ _ _ hr => cases hr <;> cases hb
  | _ => cases hb

theorem Certified.stack {layout : List (List Slot)} (hc : Γ.Certified d layout) {n : Nat} (hn : n ≤ d.code.size) :
    ∃ T, layout[n]? = some T := by
  have := hc.length
  exact ⟨_, List.getElem?_eq_getElem (by omega)⟩

/-- The slots in front of every instruction are as many as are counted behind those before it. -/
theorem Certified.depthAt (hv : Γ.Voidless) {layout : List (List Slot)} (hc : Γ.Certified d layout)
    {n : Nat} {T : List Slot}
    (hn : n ≤ d.code.size) (hT : layout[n]? = some T) : depthAt (some Γ.scope.ret) d.code n = T.length := by
  induction n generalizing T with
  | zero =>
    rw [hc.start] at hT
    cases hT
    rfl
  | succ n ih =>
    have hi : d.code[n]? = some d.code[n] := Array.getElem?_eq_getElem (by omega)
    obtain ⟨T₀, hT₀⟩ := hc.stack (show n ≤ d.code.size by omega)
    have hcount := ih (by omega) hT₀
    unfold CilCompiler.depthAt at hcount ⊢
    rw [List.take_add_one, List.foldl_append, hcount, (hc.step hi hT₀ hT).past hv]
    simp [hi]

/-- The stack of a typed body is as deep as counting finds. -/
theorem Typed.depthBehind (hv : Γ.Voidless) (h : Γ.Typed d S) : depthBehind (some Γ.scope.ret) d.code = S.length := by
  obtain ⟨layout, hc, hS⟩ := h
  exact hc.depthAt hv (Nat.le_refl _) hS

/-- A branch goes to a label that is marked inside. -/
theorem Complete.target (h : Γ.Complete d) {pc : Nat} (hi : d.code[pc]? = some i) (hb : i.op.isBranch = true) :
    ∃ n, d.target? i = some n ∧ n < d.code.size := by
  obtain ⟨layout, hc, -⟩ := h.typed
  have hlt := (Array.getElem?_eq_some_iff.mp hi).1
  obtain ⟨T, hT⟩ := hc.stack (show pc ≤ d.code.size by omega)
  obtain ⟨T', hT'⟩ := hc.stack (show pc + 1 ≤ d.code.size by omega)
  obtain ⟨-, id, hop, hid⟩ := (hc.step hi hT hT').branch hb
  obtain ⟨p, hp, hlt⟩ := h.labels id hid
  exact ⟨p, by simp [Draft.target?, hop, hp], hlt⟩

/-- Counting straight through a body gives a depth assignment. -/
theorem Complete.assignment (hv : Γ.Voidless) (h : Γ.Complete d) :
    DepthAssignment (some Γ.scope.ret) d.code d.target? (depthAt (some Γ.scope.ret) d.code) := by
  obtain ⟨layout, hc, -⟩ := h.typed
  obtain ⟨code, hlast⟩ := h.last
  refine ⟨rfl, fun {pc i} _ hi => ?_⟩
  have hlt := (Array.getElem?_eq_some_iff.mp hi).1
  obtain ⟨T, hT⟩ := hc.stack (show pc ≤ d.code.size by omega)
  obtain ⟨T', hT'⟩ := hc.stack (show pc + 1 ≤ d.code.size by omega)
  have hdepth := hc.depthAt hv (show pc ≤ d.code.size by omega) hT
  have ht := hc.step hi hT hT'
  obtain ⟨hpops, hafter⟩ := ht.depth hv
  rw [Instr.depthAfter, Instr.effect_expanded, ← Instr.depthAfter] at hafter
  rw [Instr.effect_expanded] at hpops
  have hpast := ht.past hv
  -- Behind an instruction that does not go on the count is empty, and so is what the instruction leaves.
  have ends : i.op.terminates = true → T'.length = 0 := fun h => by rw [hpast, Instr.depthPast, if_pos h]
  refine ⟨by rw [hdepth]; exact hpops, fun hop => ?_, fun hterm => ?_, fun {n} hn => ?_⟩
  · rw [hdepth, ← hafter]
    exact ends (by rw [hop]; rfl)
  · by_contra hend
    rw [hlast, Array.getElem?_push, if_pos (by rw [hlast, Array.size_push] at hlt hend; omega)] at hi
    cases hi
    cases hterm
  · rw [hdepth, ← hafter]
    cases hn with
    | @branch j n hj hb hn =>
      rw [hi] at hj
      cases hj
      obtain ⟨rfl, id, hop, hid⟩ := ht.branch hb
      obtain ⟨p, hp, hlt⟩ := h.labels id hid
      simp only [Draft.target?, hop, hp, Option.join_some, Option.some_inj] at hn
      rw [← hn, hc.depthAt hv (Nat.le_of_lt hlt) (hc.marks hp)]
    | @fall j hj hterm => rw [hc.depthAt hv (by omega) hT']

theorem Complete.finishes (hdyn : Γ.scope.site.backend = .dynamic) (hv : Γ.Voidless) (h : Γ.Complete d) :
    ∃ b, d.verify (some Γ.scope.ret) = .ok b ∧ d.Finishes (some Γ.scope.ret) b := by
  obtain ⟨code, hlast⟩ := h.last
  refine (h.built hdyn).finishes (fun hempty => ?_) (fun hi hb => h.target hi hb) (h.assignment hv)
  have := congrArg Array.size (hlast.symm.trans hempty)
  simp at this

end Setting

namespace Lower

/-- What stands before the body of a loop. -/
def loopStart : Lower Unit := do
  let start ← defineLabel
  let test ← defineLabel
  emit (.label .br (some test))
  markLabel start

/-- What stands before the first part of a choice. -/
def firstStart (cond : Expr) : Lower Unit := do
  let other ← defineLabel
  let _ ← defineLabel
  condition cond
  emit (.label .brfalse (some other))

/-- What stands before the second part of a choice. -/
def secondStart (cond : Expr) (yes : List Stmt) : Lower Unit := do
  let other ← defineLabel
  let done ← defineLabel
  condition cond
  emit (.label .brfalse (some other))
  block yes
  emit (.label .br (some done))
  markLabel other

/-- Lowering statements from some work comes to a statement, with other work. -/
inductive Reaches (c : Scope) : List Stmt → Work → Stmt → Work → Prop
  | here {s rest w} : Reaches c (s :: rest) w s w
  | later {s rest w w₁ t w'} : stmt s c w = .ok ((), w₁) → Reaches c rest w₁ t w' → Reaches c (s :: rest) w t w'
  | loop {cond body rest w w₁ t w'} : loopStart c w = .ok ((), w₁) → Reaches c body w₁ t w' →
      Reaches c (.while cond body :: rest) w t w'
  | first {cond yes no rest w w₁ t w'} : firstStart cond c w = .ok ((), w₁) → Reaches c yes w₁ t w' →
      Reaches c (.if cond yes no :: rest) w t w'
  | second {cond yes no rest w w₁ t w'} : secondStart cond yes c w = .ok ((), w₁) → Reaches c no w₁ t w' →
      Reaches c (.if cond yes no :: rest) w t w'

theorem unit_ok {c : Scope} {w w' : Work} {u : Unit} {x : Lower Unit} (h : x c w = .ok (u, w')) : x c w = .ok ((), w') := h

end Lower

namespace Setting
variable {Γ : Setting} {w w' wₑ : Work} {u : Unit}

/-- Where lowering a loop comes to its body, and where it leaves it. -/
theorem whileLoop_parts (hΓ : Γ.Ok) {cond : Expr} {body : List Stmt} (hn : ∀ n ∈ cond.typeNames, Γ.Named n)
    (h : Γ.Sound w [])
    (hb : ∀ n ∈ Stmt.typeNamesAll body, Γ.Named n)
    (hw : Lower.whileLoop cond (Lower.block body) Γ.scope w = .ok (u, w')) :
    ∃ w₁ w₂, Lower.loopStart Γ.scope w = .ok ((), w₁) ∧ Γ.Sound w₁ [] ∧ Lower.block body Γ.scope w₁ = .ok ((), w₂) ∧
      w₂.draft.code.toList <+: w'.draft.code.toList := by
  simp only [Lower.whileLoop, Lower.bind_ok] at hw
  obtain ⟨start, w₁, h1, test, w₂, h2, _, w₃, h3, _, w₄, h4, _, w₅, h5, _, w₆, h6, _, w₇, h7, h8⟩ := hw
  obtain ⟨s1, -, -, -, -⟩ := defineLabel_sound h h1
  obtain ⟨s2, htest, -, -, -⟩ := defineLabel_sound s1 h2
  obtain ⟨-, s3⟩ := s2.emit h3 fun _ => .jump htest
  obtain ⟨s4, -, -, -⟩ := markLabel_sound s3 h4
  obtain ⟨s6, -, c6, -⟩ := markLabel_sound (block_runs hΓ body hb s4 h5).sound h6
  obtain ⟨k7, -, -, -⟩ := condition_sound hΓ hn s6 h7
  refine ⟨w₄, w₅, ?_, s4, Lower.unit_ok h5, (c6 ▸ k7.code).trans (Lower.emit_kept h8).code⟩
  simp only [Lower.loopStart, Lower.bind_ok]
  exact ⟨start, w₁, h1, test, w₂, h2, _, w₃, h3, Lower.unit_ok h4⟩

/-- Where lowering a choice comes to its parts, and where it leaves them. -/
theorem choice_parts (hΓ : Γ.Ok) {cond : Expr} {yes no : List Stmt} (hn : ∀ n ∈ cond.typeNames, Γ.Named n)
    (h : Γ.Sound w [])
    (hy : ∀ n ∈ Stmt.typeNamesAll yes, Γ.Named n) (hno : ∀ n ∈ Stmt.typeNamesAll no, Γ.Named n)
    (hw : Lower.choice cond (Lower.block yes) (Lower.block no) Γ.scope w = .ok (u, w')) :
    ∃ w₁ w₂ w₃ w₄, Lower.firstStart cond Γ.scope w = .ok ((), w₁) ∧ Γ.Sound w₁ [] ∧
      Lower.block yes Γ.scope w₁ = .ok ((), w₂) ∧
      Lower.secondStart cond yes Γ.scope w = .ok ((), w₃) ∧ Γ.Sound w₃ [] ∧ Lower.block no Γ.scope w₃ = .ok ((), w₄) ∧
      w₂.draft.code.toList <+: w'.draft.code.toList ∧ w₄.draft.code.toList <+: w'.draft.code.toList := by
  simp only [Lower.choice, Lower.bind_ok] at hw
  obtain ⟨other, w₁, h1, done, w₂, h2, _, w₃, h3, _, w₄, h4, _, w₅, h5, _, w₆, h6, _, w₇, h7, _, w₈, h8, h9⟩ := hw
  obtain ⟨s1, hother, -, -, -⟩ := defineLabel_sound h h1
  obtain ⟨s2, hdone, z2, -, -⟩ := defineLabel_sound s1 h2
  obtain ⟨k3, t, ht, s3⟩ := condition_sound hΓ hn s2 h3
  have z3 := congrArg Array.size k3.marks
  obtain ⟨k4, s4⟩ := s3.emit h4 fun _ => .test (by decide) (by omega) ht
  have z4 := congrArg Array.size k4.marks
  have r5 := block_runs hΓ yes hy s4 h5
  have z5 := r5.labels
  obtain ⟨k6, s6⟩ := r5.sound.emit h6 fun _ => .jump (by omega)
  obtain ⟨s7, -, c7, -⟩ := markLabel_sound s6 h7
  have r8 := block_runs hΓ no hno s7 h8
  obtain ⟨-, -, c9, -⟩ := markLabel_sound r8.sound h9
  have last : w₈.draft.code.toList <+: w'.draft.code.toList := c9 ▸ List.prefix_refl _
  refine ⟨w₄, w₅, w₇, w₈, ?_, s4, Lower.unit_ok h5, ?_, s7, Lower.unit_ok h8,
      k6.code.trans ((c7 ▸ r8.code).trans last), last⟩
  · simp only [Lower.firstStart, Lower.bind_ok]
    exact ⟨other, w₁, h1, done, w₂, h2, _, w₃, h3, Lower.unit_ok h4⟩
  · simp only [Lower.secondStart, Lower.bind_ok]
    exact ⟨other, w₁, h1, done, w₂, h2, _, w₃, h3, _, w₄, h4, _, w₅, h5, _, w₆, h6, Lower.unit_ok h7⟩

/-- A statement is lowered with an empty stack before it, and what it leaves is the start of some code. -/
structure Lowers (Γ : Setting) (t : Stmt) (w : Work) (code : Array Instr) : Prop where
  names : ∀ n ∈ t.typeNames, Γ.Named n
  sound : Γ.Sound w []
  done : ∃ w', Lower.stmt t Γ.scope w = .ok ((), w') ∧ w'.draft.code.toList <+: code.toList

theorem Lowers.trans {t : Stmt} {code code' : Array Instr} (h : Γ.Lowers t w code) (hc : code.toList <+: code'.toList) :
    Γ.Lowers t w code' := by
  obtain ⟨w', hs, hw⟩ := h.done
  exact ⟨h.names, h.sound, w', hs, hw.trans hc⟩

/-- A statement that lowering comes to starts with an empty stack, and the code it leaves stays. -/
theorem reaches_lowers (hΓ : Γ.Ok) {ss : List Stmt} {t : Stmt} (hr : Lower.Reaches Γ.scope ss w t w')
    (hn : ∀ n ∈ Stmt.typeNamesAll ss, Γ.Named n) (h : Γ.Sound w []) (hb : Lower.block ss Γ.scope w = .ok (u, wₑ)) :
    Γ.Lowers t w' wₑ.draft.code := by
  induction hr generalizing u wₑ with
  | @here s rest w =>
    simp only [Lower.block, Lower.bind_ok] at hb
    obtain ⟨_, w₁, h1, h2⟩ := hb
    simp only [Stmt.typeNamesAll, List.mem_append] at hn
    have hs := (stmt_runs hΓ s (fun n hm => hn n (.inl hm)) h h1).sound
    exact ⟨fun n hm => hn n (.inl hm), h, w₁, Lower.unit_ok h1,
        (block_runs hΓ rest (fun n hm => hn n (.inr hm)) hs h2).code⟩
  | @later s rest w w₁ t w' hs _ ih =>
    simp only [Lower.block, Lower.bind_ok] at hb
    obtain ⟨_, w₂, h1, h2⟩ := hb
    simp only [Stmt.typeNamesAll, List.mem_append] at hn
    cases hs.symm.trans h1
    exact ih (fun n hm => hn n (.inr hm)) (stmt_runs hΓ s (fun n hm => hn n (.inl hm)) h h1).sound h2
  | @loop cond body rest w w₁ t w' hs _ ih =>
    simp only [Lower.block, Lower.bind_ok] at hb
    obtain ⟨_, w₂, h1, h2⟩ := hb
    simp only [Stmt.typeNamesAll, Stmt.typeNames, List.mem_append] at hn
    rw [Lower.stmt] at h1
    have hbody : ∀ n ∈ Stmt.typeNamesAll body, Γ.Named n := fun n hm => hn n (.inl (.inr hm))
    have hcond : ∀ n ∈ cond.typeNames, Γ.Named n := fun n hm => hn n (.inl (.inl hm))
    obtain ⟨v₁, v₂, hv, hs₁, hb, hcode⟩ := whileLoop_parts hΓ hcond h hbody h1
    cases hs.symm.trans hv
    have after := (whileLoop_runs hΓ hcond (fun h hb => block_runs hΓ body hbody h hb) h h1).sound
    exact ((ih hbody hs₁ hb).trans hcode).trans (block_runs hΓ rest (fun n hm => hn n (.inr hm)) after h2).code
  | @first cond yes no rest w w₁ t w' hs _ ih =>
    simp only [Lower.block, Lower.bind_ok] at hb
    obtain ⟨_, w₂, h1, h2⟩ := hb
    simp only [Stmt.typeNamesAll, Stmt.typeNames, List.mem_append] at hn
    rw [Lower.stmt] at h1
    have hcond : ∀ n ∈ cond.typeNames, Γ.Named n := fun n hm => hn n (.inl (.inl hm))
    have hyes : ∀ n ∈ Stmt.typeNamesAll yes, Γ.Named n := fun n hm => hn n (.inl (.inr (.inl hm)))
    have hno : ∀ n ∈ Stmt.typeNamesAll no, Γ.Named n := fun n hm => hn n (.inl (.inr (.inr hm)))
    obtain ⟨v₁, v₂, v₃, v₄, hv, hs₁, hb, -, -, -, hcode, -⟩ := choice_parts hΓ hcond h hyes hno h1
    cases hs.symm.trans hv
    have after :=
      (choice_runs hΓ hcond (fun h hb => block_runs hΓ yes hyes h hb) (fun h hb => block_runs hΓ no hno h hb) h h1).sound
    exact ((ih hyes hs₁ hb).trans hcode).trans (block_runs hΓ rest (fun n hm => hn n (.inr hm)) after h2).code
  | @second cond yes no rest w w₁ t w' hs _ ih =>
    simp only [Lower.block, Lower.bind_ok] at hb
    obtain ⟨_, w₂, h1, h2⟩ := hb
    simp only [Stmt.typeNamesAll, Stmt.typeNames, List.mem_append] at hn
    rw [Lower.stmt] at h1
    have hcond : ∀ n ∈ cond.typeNames, Γ.Named n := fun n hm => hn n (.inl (.inl hm))
    have hyes : ∀ n ∈ Stmt.typeNamesAll yes, Γ.Named n := fun n hm => hn n (.inl (.inr (.inl hm)))
    have hno : ∀ n ∈ Stmt.typeNamesAll no, Γ.Named n := fun n hm => hn n (.inl (.inr (.inr hm)))
    obtain ⟨v₁, v₂, v₃, v₄, -, -, -, hv, hs₁, hb, -, hcode⟩ := choice_parts hΓ hcond h hyes hno h1
    cases hs.symm.trans hv
    have after :=
      (choice_runs hΓ hcond (fun h hb => block_runs hΓ yes hyes h hb) (fun h hb => block_runs hΓ no hno h hb) h h1).sound
    exact ((ih hno hs₁ hb).trans hcode).trans (block_runs hΓ rest (fun n hm => hn n (.inr hm)) after h2).code

end Setting

end CilCompiler
