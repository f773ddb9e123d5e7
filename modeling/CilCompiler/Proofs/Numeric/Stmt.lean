import CilCompiler.Proofs.Numeric.Scoping

/-!
Statements over numbers and booleans. From where the code of statements begins, the machine does what the reference
semantics says: it comes to their end with the names holding the same numbers, returns the same number, or traps alike. The
proof is by induction on the fuel of the reference semantics. A loop goes on from its test, which is not where its code
begins, so runs from there are a second statement, proved along with the first (`LoopsFor`).
-/

namespace CilCompiler.Numeric

/-- From one place in a frame's body, the run ends as statements do; where control goes on behind them, it comes to
    another. -/
def Simulates (m : Machine) (c : Scope) (W : Work) (f : Frame) (world : World) (pc pc' : Nat) : Ending → Prop
  | .falls σ => ∃ world', m.Goes (f.place pc []) world (f.place pc' []) world' ∧ Holds c W f world' σ
  | .returns v => ∃ world', m.Ends (f.place pc []) world (.done (v.elim .null .int) world')
  | .traps t => Traps m (f.place pc []) world t

/-- From a place, control comes to another with a number stored under a name. -/
def Stores (m : Machine) (c : Scope) (W : Work) (f : Frame) (world : World) (pc pc' : Nat) (σ : Slots) (x : Text) :
    Except Trap Int32 → Prop
  | .ok v => ∃ world', m.Goes (f.place pc []) world (f.place pc' []) world' ∧ Holds c W f world' (σ.set x v)
  | .error t => Traps m (f.place pc []) world t

/-- From a place, control goes to one of two others, as a number is zero or not. -/
def Chooses (m : Machine) (f : Frame) (world : World) (pc no yes : Nat) : Except Trap Int32 → Prop
  | .ok v => m.Goes (f.place pc []) world (f.place (if v = 0 then no else yes) []) world
  | .error t => Traps m (f.place pc []) world t

/-- Statements are lowered between two points of the way to `W`. -/
structure Stands (kindOf : Text → Option Kind) (c : Scope) (W : Work) (κ : Kinds) (ss : List Stmt)
    (w w' : Work) : Prop where
  block : isBlock kindOf κ ss = true
  fits : Fits kindOf c κ w
  lowered : Lower.block ss c w = .ok ((), w')
  later : Later w' W

variable {kindOf : Text → Option Kind} {m : Machine} {c : Scope} {W w w₁ w' : Work} {f : Frame} {κ : Kinds} {σ : Slots}
  {world world' : World} {u : Unit} {pc pc₁ pc' n : Nat} {ending : Ending} {x : Text} {e : Expr} {s : Stmt}
  {rest : List Stmt}

theorem Simulates.after (h : m.Goes (f.place pc []) world (f.place pc₁ []) world')
    (h' : Simulates m c W f world' pc₁ pc' ending) :
    Simulates m c W f world pc pc' ending := by
  cases ending with
  | falls σ =>
    obtain ⟨world'', hg, hσ⟩ := h'
    exact ⟨world'', h.trans hg, hσ⟩
  | returns v =>
    obtain ⟨world'', he⟩ := h'
    exact ⟨world'', h.ends he⟩
  | traps t => exact Traps.after h h'

theorem Stands.cons (hr : Ready c) (h : Stands kindOf c W κ (s :: rest) w w') :
    ∃ w₁, isStmt kindOf κ s = true ∧ Lower.stmt s c w = .ok ((), w₁) ∧ Later w₁ W ∧
      Stands kindOf c W (after kindOf κ s) rest w₁ w' := by
  obtain ⟨hs, hw, hl, hlater⟩ := h
  simp only [isBlock, Bool.and_eq_true] at hs
  simp only [Lower.block, Lower.bind_ok] at hl
  obtain ⟨⟨⟩, w₁, h₁, h₂⟩ := hl
  obtain ⟨-, hf⟩ := stmt_leads hr s hs.1 hw h₁
  obtain ⟨hl₂, -⟩ := block_leads hr rest hs.2 hf h₂
  exact ⟨w₁, hs.1, h₁, hl₂.trans hlater, hs.2, hf, h₂, hlater⟩

/-! ### Assignments -/

section
variable (h : Hosts m c W f)
include h

/-- Storing in a local of a name, or in one that has no name. -/
theorem stloc_goes {l : LocalSlot} (he : Lower.emit (.local .stloc (some l)) c w = .ok (u, w')) (hg : w'.Grows W)
    (hlt : l.index < W.draft.locals.size) (hσ : Holds c W f world σ)
    (hx : W.local? x = some l ∨ cell? c W f x = none ∧ ∀ e ∈ W.locals, e.2.index ≠ l.index) (v : Int32) :
    ∃ world', m.Goes (f.place w.draft.code.size [.int v]) world (f.place w'.draft.code.size []) world' ∧
      Holds c W f world' (σ.set x v) := by
  obtain ⟨i, hi, -⟩ := (Lower.emit_ok h.dynamic).mp he
  have hcell := h.local?_cell hlt (Emission.local_le hi)
  refine ⟨{ world with heap := world.heap.store (.cell (f.locals + l.index)) (.int v) }, h.next he hg rfl ?_, ?_⟩
  · show (f.place _ [.int v]).storeCell world (f.local? (Int32.ofNat l.index)) = _
    rw [hcell]
    rfl
  · rcases hx with hx | ⟨hx, hne⟩
    · have hx := (h.local?_eq hx (Emission.local_le hi)).1
      exact Hosts.store hσ (fun hz => h.cell?_inj hz hx) (fun hk => Option.some_inj.mp (hk.symm.trans hx)) v
    · refine Hosts.store hσ (fun {z} hz => ?_) (fun hk => by rw [hx] at hk; cases hk) v
      have apart := h.apart
      unfold cell? at hz
      split at hz
      · rename_i k hk
        exact absurd (by simpa using hz) (hne _ (find?_name hk))
      · obtain ⟨q, hq, hz⟩ := Option.map_eq_some_iff.mp hz
        have := h.params _ (find?_name hq)
        dsimp only at this
        omega

/-- Storing in a parameter. -/
theorem starg_goes {i : Nat} {t : Ty} (he : Lower.emit (.arg .starg i) c w = .ok (u, w')) (hg : w'.Grows W)
    (hσ : Holds c W f world σ) (hx : c.param? x = some (i, t)) (v : Int32) :
    ∃ world', m.Goes (f.place w.draft.code.size [.int v]) world (f.place w'.draft.code.size []) world' ∧
      Holds c W f world' (σ.set x v) := by
  obtain ⟨j, hj, -⟩ := (Lower.emit_ok h.dynamic).mp he
  obtain ⟨hx, hcell⟩ := h.arg?_eq (h.tidy.local?_param hx) hx (Emission.arg_le hj)
  refine ⟨{ world with heap := world.heap.store (.cell (f.args + i)) (.int v) }, h.next he hg rfl ?_, ?_⟩
  · show (f.place _ [.int v]).storeCell world (f.arg? (Int32.ofNat i)) = _
    rw [hcell]
    rfl
  · exact Hosts.store hσ (fun hz => h.cell?_inj hz hx) (fun hk => Option.some_inj.mp (hk.symm.trans hx)) v

/-- The value of an expression is stored by the code behind it. -/
theorem Computes.stores {p : Pushed} (hc : Computes c κ e w p w₁) (hg : w₁.Grows W) (hσ : Holds c W f world σ)
    (hst : ∀ v, ∃ world', m.Goes (f.place w₁.draft.code.size [.int v]) world (f.place w'.draft.code.size []) world' ∧
      Holds c W f world' (σ.set x v)) :
    Stores m c W f world w.draft.code.size w'.draft.code.size σ x (eval κ σ e) := by
  have hy := hc.yields (S := []) h hg hσ
  cases hv : eval κ σ e with
  | error t =>
    rw [hv] at hy
    exact hy
  | ok v =>
    rw [hv] at hy
    obtain ⟨world', hgo, hσ'⟩ := hst v
    exact ⟨world', Machine.Goes.trans hy hgo, hσ'⟩

theorem assign_stores (hr : Ready c) (hw : Fits kindOf c κ w) (hs : isStmt kindOf κ (.assign (.ident x) e) = true)
    (hl : Lower.assignStmt (.ident x) e c w = .ok (u, w')) (hlater : Later w' W) (hσ : Holds c W f world σ) :
    Stores m c W f world w.draft.code.size w'.draft.code.size σ x (eval κ σ e) := by
  obtain ⟨p, w₁, hc, ⟨l, hx, he⟩ | ⟨i, t, -, hx, he⟩⟩ := assignStmt_cases hr hw hs hl
  · have hg := (Steady.emit hr.dynamic he).toGrows.trans hlater.toGrows
    have hW := h.tidy.local?_kept (hc.steady.toGrows.trans hg) hx
    exact hc.stores h hg hσ fun v => stloc_goes h he hlater.toGrows (h.tidy.index _ (find?_name hW)) hσ (.inl hW) v
  · have hg := (Steady.emit hr.dynamic he).toGrows.trans hlater.toGrows
    exact hc.stores h hg hσ fun v => starg_goes h he hlater.toGrows hσ hx v

/-- The local that a declaration adds is that of its name, or of none. -/
theorem declared_slot {type : Ty} {l : LocalSlot} (hw : Fits kindOf c κ w) (hp : c.param? x = none)
    (hl : Lower.declareLocal x type c w = .ok (l, w')) (hlater : Later w' W) :
    l.index < W.draft.locals.size ∧ (W.local? x = some l ∨ cell? c W f x = none ∧ ∀ e ∈ W.locals, e.2.index ≠ l.index) := by
  obtain ⟨rfl, rfl⟩ := Lower.declareLocal_ok hl
  have hsize := hlater.size
  simp only [Array.size_push] at hsize
  refine ⟨hsize, ?_⟩
  by_cases hn : x.isEmpty
  · refine .inr ⟨?_, fun e he => ?_⟩
    · have hx : W.local? x = none := by
        cases hx : W.local? x with
        | none => rfl
        | some l =>
          have := (h.tidy.fresh _ (find?_name hx)).2
          rw [hn] at this
          cases this
      simp [cell?, hx, hp]
    · rcases hlater.added e he with he | he
      · simp only [hn, if_true] at he
        exact Nat.ne_of_lt (hw.tidy.index e he)
      · simp only [Array.size_push] at he
        exact Nat.ne_of_gt he
  · refine .inl (h.tidy.local?_of_mem (hlater.names.subset ?_))
    simp [hn]

theorem local_stores {type : Text} {init : Expr} (hr : Ready c) (hw : Fits kindOf c κ w)
    (hs : isStmt kindOf κ (.local x type init) = true) (hl : Lower.localStmt x type init c w = .ok (u, w'))
    (hlater : Later w' W)
    (hσ : Holds c W f world σ) : init.isMissing = true ∧ w'.draft.code = w.draft.code ∨
      init.isMissing = false ∧ Stores m c W f world w.draft.code.size w'.draft.code.size σ x (eval κ σ init) := by
  obtain ⟨hx, hp, t, ht, ⟨hm, l, hd⟩ | ⟨hm, p, w₁, l, w₂, hc, hd, he⟩⟩ := localStmt_cases hr hw hs hl
  · exact .inl ⟨hm, (declareLocal_leads hw hx hp ht hd).2.1⟩
  · have hw₁ := hc.steady.fits hw
    obtain ⟨hl₁, hcode, -⟩ := declareLocal_leads hw₁ (by rw [hc.steady.local?, hx]) hp ht hd
    have hl₂ := (Steady.emit hr.dynamic he).later.trans hlater
    obtain ⟨hlt, hslot⟩ := declared_slot h hw₁ hp hd hl₂
    refine .inr ⟨hm, hc.stores h (hl₁.trans hl₂).toGrows hσ fun v => ?_⟩
    rw [← hcode]
    exact stloc_goes h he hlater.toGrows hlt hσ hslot v

/-! ### Returns -/

theorem return_simulates (hr : Ready c) (hw : Fits kindOf c κ w) (hs : isStmt kindOf κ (.return e) = true)
    (hl : Lower.returnStmt e c w = .ok (u, w')) (hlater : Later w' W) (hσ : Holds c W f world σ) :
    Simulates m c W f world w.draft.code.size pc' (if e.isMissing then .returns none
      else match eval κ σ e with
        | .ok v => .returns (some v)
        | .error t => .traps t) := by
  rcases returnStmt_cases hr hw hs hl with ⟨hm, he⟩ | ⟨hm, p, w₁, hc, he⟩
  · rw [if_pos hm]
    exact ⟨world, h.returns he hlater.toGrows []⟩
  · rw [if_neg (by simp [hm])]
    have hy := hc.yields (S := []) h ((Steady.emit hr.dynamic he).toGrows.trans hlater.toGrows) hσ
    cases hv : eval κ σ e with
    | error t =>
      rw [hv] at hy
      exact hy
    | ok v =>
      rw [hv] at hy
      exact ⟨world, Machine.Goes.ends hy (h.returns he hlater.toGrows [.int v])⟩

/-! ### Branches -/

theorem br_goes {l : Label} (he : Lower.emit (.label .br (some l)) c w = .ok (u, w')) (hg : w'.Grows W)
    (hl : W.draft.marks[l.id]? = some (some n)) :
    m.Goes (f.place w.draft.code.size []) world (f.place n []) world :=
  h.branches he hg hl true rfl

/-- A condition and the branch behind it. -/
theorem condition_chooses (hr : Ready c) (hw : Fits kindOf c κ w) (hx : isExpr κ e = true)
    (hc : Lower.condition e c w = .ok (u, w₁))
    {op : Opcode} {l : Label} (he : Lower.emit (.label op (some l)) c w₁ = .ok (u, w')) (hg : w'.Grows W)
    (hl : W.draft.marks[l.id]? = some (some n)) {no yes : Nat}
    (hop : op = .brtrue ∧ no = w'.draft.code.size ∧ yes = n ∨ op = .brfalse ∧ no = n ∧ yes = w'.draft.code.size) :
    ∀ ⦃world σ⦄, Holds c W f world σ → Chooses m f world w.draft.code.size no yes (eval κ σ e) := by
  intro world σ hσ
  obtain ⟨p, hp⟩ := condition_computes hr hw hx hc
  have hy := hp.yields (S := []) h ((Steady.emit hr.dynamic he).toGrows.trans hg) hσ
  cases hv : eval κ σ e with
  | error t =>
    rw [hv] at hy
    exact hy
  | ok v =>
    rw [hv] at hy
    refine Machine.Goes.trans hy ?_
    rcases hop with ⟨rfl, rfl, rfl⟩ | ⟨rfl, rfl, rfl⟩
    · have hb : m.Goes (f.place w₁.draft.code.size [.int v]) world
          (f.place (if v != 0 then yes else w'.draft.code.size) []) world := h.branches he hg hl (v != 0) rfl
      by_cases hz : v = 0 <;> simpa [hz] using hb
    · have hb : m.Goes (f.place w₁.draft.code.size [.int v]) world
          (f.place (if !(v != 0) then no else w'.draft.code.size) []) world := h.branches he hg hl (!(v != 0)) rfl
      by_cases hz : v = 0 <;> simpa [hz] using hb

end

/-! ### Loops and choices -/

/-- The code of a loop: its body is between `w₁` and `w₂`, and its test at `test`. -/
structure LoopCode (kindOf : Text → Option Kind) (m : Machine) (c : Scope) (W : Work) (f : Frame) (κ : Kinds) (cond : Expr)
    (body : List Stmt) (w₁ w₂ w' : Work) (test : Nat) : Prop where
  round : Stands kindOf c W κ body w₁ w₂
  back : w₂.draft.code.size = test
  test : ∀ ⦃world σ⦄, Holds c W f world σ →
    Chooses m f world test w'.draft.code.size w₁.draft.code.size (eval (afterAll kindOf κ body) σ cond)

theorem loop_code (h : Hosts m c W f) (hr : Ready c) (hw : Fits kindOf c κ w) {cond : Expr} {body : List Stmt}
    (hs : isStmt kindOf κ (.while cond body) = true) (hl : Lower.whileLoop cond (Lower.block body) c w = .ok (u, w'))
    (hlater : Later w' W) :
    ∃ w₁ w₂ test, LoopCode kindOf m c W f κ cond body w₁ w₂ w' test ∧
      ∀ world, m.Goes (f.place w.draft.code.size []) world (f.place test []) world := by
  simp only [isStmt, Bool.and_eq_true] at hs
  simp only [Lower.whileLoop, Lower.bind_ok] at hl
  obtain ⟨start, wₐ, ha, test, wᵦ, hb, _, w₀, hbr, _, w₁, hm, ⟨⟩, w₂, hbody, _, w₃, hm', ⟨⟩, w₄, hcond, he⟩ := hl
  obtain ⟨hsa, hca⟩ := defineLabel_steady ha
  obtain ⟨hsb, hcb⟩ := defineLabel_steady hb
  obtain ⟨hs₁, hc₁, hmark₁⟩ := markLabel_steady hm
  have hw₁ := (((hsa.trans hsb).trans (.emit hr.dynamic hbr)).trans hs₁).fits hw
  obtain ⟨hl₂, hw₂⟩ := block_leads hr body hs.1 hw₁ hbody
  obtain ⟨hs₃, hc₃, hmark₃⟩ := markLabel_steady hm'
  obtain ⟨p, hp⟩ := condition_computes hr (hs₃.fits hw₂) hs.2 hcond
  have hl₃ := (hp.steady.trans (.emit hr.dynamic he)).later.trans hlater
  have hl₂W := hs₃.later.trans hl₃
  have hl₁W := hl₂.trans hl₂W
  refine ⟨w₁, w₂, w₃.draft.code.size, ⟨⟨hs.1, hw₁, hbody, hl₂W⟩, by rw [hc₃], ?_⟩, fun world => ?_⟩
  · refine condition_chooses h hr (hs₃.fits hw₂) hs.2 hcond he hlater.toGrows (hl₁W.marks hmark₁) (.inl ⟨rfl, rfl, ?_⟩)
    rw [hc₁]
  · have hsize : w.draft.code.size = wᵦ.draft.code.size := by rw [hcb, hca]
    rw [hsize, hc₃]
    exact br_goes h hbr (hs₁.toGrows.trans hl₁W.toGrows) (hl₃.marks hmark₃)

/-- The code of a choice: one part between `w₁` and `w₂`, the other between `w₃` and `w₄`. -/
structure ChoiceCode (kindOf : Text → Option Kind) (m : Machine) (c : Scope) (W : Work) (f : Frame)
    (κ : Kinds) (cond : Expr)
    (yes no : List Stmt) (w w₁ w₂ w₃ w₄ w' : Work) : Prop where
  first : Stands kindOf c W κ yes w₁ w₂
  second : Stands kindOf c W (afterAll kindOf κ yes) no w₃ w₄
  test : ∀ ⦃world σ⦄, Holds c W f world σ →
    Chooses m f world w.draft.code.size w₃.draft.code.size w₁.draft.code.size (eval κ σ cond)
  skip : ∀ world, m.Goes (f.place w₂.draft.code.size []) world (f.place w'.draft.code.size []) world
  done : w₄.draft.code.size = w'.draft.code.size

theorem choice_code (h : Hosts m c W f) (hr : Ready c) (hw : Fits kindOf c κ w) {cond : Expr} {yes no : List Stmt}
    (hs : isStmt kindOf κ (.if cond yes no) = true)
    (hl : Lower.choice cond (Lower.block yes) (Lower.block no) c w = .ok (u, w')) (hlater : Later w' W) :
    ∃ w₁ w₂ w₃ w₄, ChoiceCode kindOf m c W f κ cond yes no w w₁ w₂ w₃ w₄ w' := by
  simp only [isStmt, Bool.and_eq_true] at hs
  simp only [Lower.choice, Lower.bind_ok] at hl
  obtain ⟨other, wₐ, ha, done, wᵦ, hb, ⟨⟩, w₀, hcond, ⟨⟩, w₁, hbr, ⟨⟩, w₂, hyes, _, w₂', hbr', _, w₃, hm, ⟨⟩,
      w₄, hno, hm'⟩ := hl
  obtain ⟨hsa, hca⟩ := defineLabel_steady ha
  obtain ⟨hsb, hcb⟩ := defineLabel_steady hb
  have hwᵦ := (hsa.trans hsb).fits hw
  obtain ⟨p, hp⟩ := condition_computes hr hwᵦ hs.1.1 hcond
  have hw₁ := (hp.steady.trans (.emit hr.dynamic hbr)).fits hwᵦ
  obtain ⟨hl₂, hw₂⟩ := block_leads hr yes hs.1.2 hw₁ hyes
  have hs₂ := Steady.emit hr.dynamic hbr'
  obtain ⟨hs₃, hc₃, hmark₃⟩ := markLabel_steady hm
  have hw₃ := (hs₂.trans hs₃).fits hw₂
  obtain ⟨hl₄, -⟩ := block_leads hr no hs.2 hw₃ hno
  obtain ⟨hs₅, hc₅, hmark₅⟩ := markLabel_steady hm'
  have hl₄W := hs₅.later.trans hlater
  have hl₃W := hl₄.trans hl₄W
  have hl₂W := (hs₂.trans hs₃).later.trans hl₃W
  refine ⟨w₁, w₂, w₃, w₄, ⟨hs.1.2, hw₁, hyes, hl₂W⟩, ⟨hs.2, hw₃, hno, hl₄W⟩, ?_, fun world => ?_, by rw [hc₅]⟩
  · have hsize : w.draft.code.size = wᵦ.draft.code.size := by rw [hcb, hca]
    rw [hsize]
    refine condition_chooses h hr hwᵦ hs.1.1 hcond hbr (hl₂.trans hl₂W).toGrows (hl₃W.marks hmark₃) (.inr ⟨rfl, ?_, rfl⟩)
    rw [hc₃]
  · rw [hc₅]
    exact br_goes h hbr' (hs₃.toGrows.trans hl₃W.toGrows) (hlater.marks hmark₅)

/-! ### Runs -/

/-- Statements are simulated from where they begin. -/
def RunsFor (kindOf : Text → Option Kind) (m : Machine) (c : Scope) (W : Work) (f : Frame) (fuel : Nat) : Prop :=
  ∀ ⦃κ : Kinds⦄ ⦃σ : Slots⦄ ⦃ss : List Stmt⦄ ⦃w w' : Work⦄ ⦃world : World⦄ ⦃ending : Ending⦄, Stands kindOf c W κ ss w w' →
    Holds c W f world σ → run kindOf fuel κ σ ss = some ending →
    Simulates m c W f world w.draft.code.size w'.draft.code.size ending

/-- Loops and what is behind them are simulated from the loop's test. -/
def LoopsFor (kindOf : Text → Option Kind) (m : Machine) (c : Scope) (W : Work) (f : Frame) (fuel : Nat) : Prop :=
  ∀ ⦃κ : Kinds⦄ ⦃σ : Slots⦄ ⦃cond : Expr⦄ ⦃body rest : List Stmt⦄ ⦃w₁ w₂ w₃ w' : Work⦄ ⦃test : Nat⦄ ⦃world : World⦄
    ⦃ending : Ending⦄,
    LoopCode kindOf m c W f κ cond body w₁ w₂ w₃ test → Stands kindOf c W (afterAll kindOf κ body) rest w₃ w' →
    Holds c W f world σ → run kindOf fuel κ σ (.while cond body :: rest) = some ending →
    Simulates m c W f world test w'.draft.code.size ending

/-- A loop is tested, and left or run once more. -/
theorem LoopsFor.succ {fuel : Nat} (hruns : RunsFor kindOf m c W f fuel) (hloops : LoopsFor kindOf m c W f fuel) :
    LoopsFor kindOf m c W f (fuel + 1) := by
  intro κ σ cond body rest w₁ w₂ w₃ w' test world ending hloop hrest hσ hrun
  have htest := hloop.test hσ
  simp only [run] at hrun
  cases hv : eval (afterAll kindOf κ body) σ cond with
  | error t =>
    simp only [hv, Option.some.injEq] at hrun htest
    subst hrun
    exact htest
  | ok v =>
    simp only [hv] at hrun htest
    by_cases hz : v = 0
    · simp only [Chooses, hz, if_true] at hrun htest
      exact .after htest (hruns hrest hσ hrun)
    · simp only [Chooses, hz, if_false] at hrun htest
      refine .after htest ?_
      cases hbody : run kindOf fuel κ σ body with
      | none =>
        rw [hbody] at hrun
        cases hrun
      | some inner =>
        have hsim := hruns hloop.round hσ hbody
        rw [hbody] at hrun
        cases inner with
        | falls σ' =>
          obtain ⟨world', hgo, hσ'⟩ := hsim
          rw [hloop.back] at hgo
          exact .after hgo (hloops hloop hrest hσ' hrun)
        | returns v =>
          cases hrun
          exact hsim
        | traps t =>
          cases hrun
          exact hsim

/-- What statements come to that are followed by others, unless they have ended the body. -/
def Ending.continued (behind : Slots → Option Ending) : Option Ending → Option Ending
  | some (.falls σ) => behind σ
  | ending => ending

/-- A number is stored, and what is behind is run with it. -/
theorem RunsFor.stored {fuel : Nat} (hruns : RunsFor kindOf m c W f fuel) {r : Except Trap Int32}
    (hst : Stores m c W f world pc w₁.draft.code.size σ x r) (hrest : Stands kindOf c W κ rest w₁ w')
    (hrun : ∀ v, r = .ok v → run kindOf fuel κ (σ.set x v) rest = some ending)
    (htrap : ∀ t, r = .error t → some (.traps t) = some ending) :
    Simulates m c W f world pc w'.draft.code.size ending := by
  cases r with
  | error t =>
    cases htrap t rfl
    exact hst
  | ok v =>
    obtain ⟨world', hgo, hσ'⟩ := hst
    exact .after hgo (hruns hrest hσ' (hrun v rfl))

/-- A part of a choice is run, and control comes from its end to what is behind the choice. -/
theorem RunsFor.joined {fuel : Nat} (hruns : RunsFor kindOf m c W f fuel) (hσ : Holds c W f world σ) {κ' : Kinds}
    {part : List Stmt}
    {wᵢ wⱼ : Work} (hpart : Stands kindOf c W κ part wᵢ wⱼ) (hrest : Stands kindOf c W κ' rest w₁ w')
    (hend : ∀ world, m.Goes (f.place wⱼ.draft.code.size []) world (f.place w₁.draft.code.size []) world)
    (hgo : m.Goes (f.place pc []) world (f.place wᵢ.draft.code.size []) world)
    (hrun : Ending.continued (fun σ => run kindOf fuel κ' σ rest) (run kindOf fuel κ σ part) = some ending) :
    Simulates m c W f world pc w'.draft.code.size ending := by
  refine .after hgo ?_
  cases hp : run kindOf fuel κ σ part with
  | none =>
    rw [hp] at hrun
    cases hrun
  | some inner =>
    have hsim := hruns hpart hσ hp
    rw [hp] at hrun
    cases inner with
    | falls σ' =>
      obtain ⟨world', hgo', hσ'⟩ := hsim
      exact .after (hgo'.trans (hend world')) (hruns hrest hσ' hrun)
    | returns v =>
      cases hrun
      exact hsim
    | traps t =>
      cases hrun
      exact hsim

/-- One statement is run, and then those behind it. -/
theorem RunsFor.succ (h : Hosts m c W f) (hr : Ready c) {fuel : Nat} (hruns : RunsFor kindOf m c W f fuel)
    (hloops : LoopsFor kindOf m c W f (fuel + 1)) : RunsFor kindOf m c W f (fuel + 1) := by
  intro κ σ ss w w' world ending hstands hσ hrun
  cases ss with
  | nil =>
    have hl := hstands.lowered
    simp only [Lower.block, Lower.pure_ok] at hl
    obtain ⟨-, rfl⟩ := hl
    simp only [run, Option.some.injEq] at hrun
    subst hrun
    exact ⟨world, .refl _ _, hσ⟩
  | cons s rest =>
    have hw := hstands.fits
    obtain ⟨w₁, hs, hl, hlater, hrest⟩ := hstands.cons hr
    cases s with
    | «return» e =>
      rw [Lower.stmt] at hl
      have hsim : Simulates m c W f world w.draft.code.size w'.draft.code.size _ := return_simulates h hr hw hs hl hlater hσ
      simp only [run] at hrun
      split at hrun
      · cases hrun
        simpa only [*, if_true] using hsim
      · simp only [*, Bool.false_eq_true, if_false] at hsim
        split at hrun <;> cases hrun <;> simpa only [*] using hsim
    | «local» x type init =>
      rw [Lower.stmt] at hl
      simp only [run] at hrun
      rcases local_stores h hr hw hs hl hlater hσ with ⟨hm, hcode⟩ | ⟨hm, hst⟩
      · rw [if_pos hm] at hrun
        rw [← hcode]
        exact hruns hrest hσ hrun
      · rw [if_neg (by simp [hm])] at hrun
        exact hruns.stored hst hrest (fun v hv => by rw [hv] at hrun; exact hrun) fun t ht => by rw [ht] at hrun; exact hrun
    | assign target e =>
      rw [Lower.stmt] at hl
      cases target <;> try (simp [isStmt] at hs; done)
      rename_i x
      simp only [run] at hrun
      exact hruns.stored (assign_stores h hr hw hs hl hlater hσ) (by simpa only [after] using hrest)
        (fun v hv => by rw [hv] at hrun; exact hrun) fun t ht => by rw [ht] at hrun; exact hrun
    | «while» cond body =>
      rw [Lower.stmt] at hl
      obtain ⟨w₂, w₃, test, hloop, hgo⟩ := loop_code h hr hw hs hl hlater
      exact .after (hgo world) (hloops hloop (by simpa only [after] using hrest) hσ hrun)
    | «if» cond yes no =>
      rw [Lower.stmt] at hl
      obtain ⟨wᵧ, wᵧ', wₙ, wₙ', hcode⟩ := choice_code h hr hw hs hl hlater
      have htest := hcode.test hσ
      simp only [run] at hrun
      cases hv : eval κ σ cond with
      | error t =>
        simp only [hv, Option.some.injEq] at hrun htest
        subst hrun
        exact htest
      | ok v =>
        simp only [hv] at hrun htest
        have hrest : Stands kindOf c W (afterAll kindOf (afterAll kindOf κ yes) no) rest w₁ w' :=
          by simpa only [after] using hrest
        by_cases hz : v = 0
        · simp only [Chooses, hz, if_true] at hrun htest
          exact hruns.joined hσ hcode.second hrest (fun world => by rw [hcode.done]; exact .refl _ _) htest hrun
        · simp only [Chooses, hz, if_false] at hrun htest
          exact hruns.joined hσ hcode.first hrest hcode.skip htest hrun
    | expr e => simp [isStmt] at hs
    | baseCall => simp [isStmt] at hs

theorem runs_for (h : Hosts m c W f) (hr : Ready c) (fuel : Nat) :
    RunsFor kindOf m c W f fuel ∧ LoopsFor kindOf m c W f fuel := by
  induction fuel with
  | zero =>
    constructor
    · intro κ σ ss w w' world ending hs hσ hrun
      cases hrun
    · intro κ σ cond body rest w₁ w₂ w₃ w' test world ending hl hs hσ hrun
      cases hrun
  | succ fuel ih =>
    have hloops := LoopsFor.succ ih.1 ih.2
    exact ⟨.succ h hr ih.1 hloops, hloops⟩

/-- The code of statements does what the reference semantics says. -/
theorem block_simulates (h : Hosts m c W f) (hr : Ready c) {ss : List Stmt} (hs : Stands kindOf c W κ ss w w')
    (hσ : Holds c W f world σ) {fuel : Nat} (hrun : run kindOf fuel κ σ ss = some ending) :
    Simulates m c W f world w.draft.code.size w'.draft.code.size ending :=
  (runs_for h hr fuel).1 hs hσ hrun

end CilCompiler.Numeric
