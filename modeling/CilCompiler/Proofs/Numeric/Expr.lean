import CilCompiler.Proofs.Numeric.Layout

/-!
Expressions over numbers and booleans. The code of such an expression pushes the number that the reference semantics
gives it, or fails as it says; it changes no cell. The type that lowering finds is the one of the expression's kind.
-/

namespace CilCompiler

def Trap.code : Trap → Code
  | .divideByZero => .divideByZero
  | .overflow => .overflow

namespace Numeric

/-! ### Kinds of types -/

theorem kind?_eq_int {t : Ty} : t.kind? = some .int ↔ t.name = TypeName.int32 := by
  unfold Ty.kind?
  split
  · simp [*]
  · rename_i h
    split <;> simp [h]

theorem kind?_eq_bool {t : Ty} : t.kind? = some .bool ↔ t.name = TypeName.boolean := by
  unfold Ty.kind?
  split
  · rename_i h
    simp only [h, Option.some.injEq, reduceCtorEq, false_iff]
    decide
  · split <;> simp [*]

theorem same_some {a b : Ty} : Ty.same (some a) (some b) = true ↔ a.name = b.name := by simp [Ty.same]

/-- What lowering numbers and booleans relies on. -/
structure Ready (c : Scope) : Prop where
  dynamic : c.site.backend = .dynamic
  int32 : c.roles.int32.name = TypeName.int32
  boolean : c.roles.boolean.name = TypeName.boolean
  string : c.roles.string.name = TypeName.string

variable {c : Scope}

theorem Ready.int (h : Ready c) : c.roles.int32.kind? = some .int := kind?_eq_int.mpr h.int32

theorem Ready.bool (h : Ready c) : c.roles.boolean.kind? = some .bool := kind?_eq_bool.mpr h.boolean

theorem Ready.same_int (h : Ready c) {t : Ty} : Ty.same (some t) (some c.roles.int32) = true ↔ t.kind? = some .int := by
  rw [same_some, h.int32, kind?_eq_int]

theorem Ready.same_bool (h : Ready c) {t : Ty} : Ty.same (some t) (some c.roles.boolean) = true ↔ t.kind? = some .bool := by
  rw [same_some, h.boolean, kind?_eq_bool]

theorem Ready.same_string (h : Ready c) {t : Ty} {k : Kind} (ht : t.kind? = some k) :
    Ty.same (some t) (some c.roles.string) = false := by
  rw [← Bool.not_eq_true, same_some, h.string]
  cases k with
  | int => rw [kind?_eq_int.mp ht]; decide
  | bool => rw [kind?_eq_bool.mp ht]; decide

/-! ### Code that adds no names -/

/-- Lowering has gone on, with the names and locals that there were. -/
structure Steady (w w' : Work) : Prop extends w.Grows w' where
  symbols : w'.symbols = w.symbols
  same : w'.locals = w.locals
  slots : w'.draft.locals = w.draft.locals

theorem Steady.refl (w : Work) : Steady w w := ⟨.refl w, rfl, rfl, rfl⟩

theorem Steady.trans {a b d : Work} (h : Steady a b) (h' : Steady b d) : Steady a d :=
  ⟨h.toGrows.trans h'.toGrows, h'.symbols.trans h.symbols, h'.same.trans h.same, h'.slots.trans h.slots⟩

theorem Steady.local? {w w' : Work} (h : Steady w w') (x : Text) : w'.local? x = w.local? x := by
  rw [Work.local?, h.same]
  rfl

theorem Steady.emit (hc : c.site.backend = .dynamic) {w w' : Work} {e : Emission} {u : Unit}
    (h : Lower.emit e c w = .ok (u, w')) : Steady w w' := by
  obtain ⟨i, -, rfl⟩ := (Lower.emit_ok hc).mp h
  exact ⟨⟨by simp [Draft.push], id, List.suffix_refl _⟩, rfl, rfl, rfl⟩

/-! ### What code does -/

/-- The run of a frame stops with the fault of a trap. -/
def Traps (m : Machine) (f : Frame) (world : World) (t : Trap) : Prop :=
  ∃ fault world', m.Ends f world (.halted (.fault fault) world') ∧ fault.code? = some t.code

/-- Code between two places replaces the values `S` by a number on top of `S₀`, or traps. -/
def Yields (m : Machine) (f : Frame) (world : World) (pc : Nat) (S : List Value) (pc' : Nat) (S₀ : List Value) :
    Except Trap Int32 → Prop
  | .ok v => m.Goes (f.place pc S) world (f.place pc' (.int v :: S₀)) world
  | .error t => Traps m (f.place pc S) world t

variable {m : Machine} {f : Frame} {world : World} {W w w₁ w' : Work} {S S₀ : List Value} {u : Unit}

theorem Traps.after {f' : Frame} {world' : World} {t : Trap} (h : m.Goes f world f' world') (h' : Traps m f' world' t) :
    Traps m f world t := by
  obtain ⟨fault, world'', he, hc⟩ := h'
  exact ⟨fault, world'', h.ends he, hc⟩

theorem Yields.after {r : Except Trap Int32} {pc pc₁ pc' : Nat} {S₁ : List Value}
    (h : m.Goes (f.place pc S) world (f.place pc₁ S₁) world) (h' : Yields m f world pc₁ S₁ pc' S₀ r) :
    Yields m f world pc S pc' S₀ r := by
  cases r with
  | ok v => exact h.trans h'
  | error t => exact Traps.after h h'

/-! ### Operators -/

theorem ofInt_tdiv (a b : Int32) : Int32.ofInt (a.toInt.tdiv b.toInt) = a / b := by
  rw [← Int32.toInt_inj, Int32.toInt_div, Int32.toInt_ofInt]

theorem ofInt_tmod (a b : Int32) : Int32.ofInt (a.toInt.tmod b.toInt) = a % b := by
  rw [← Int32.toInt_mod, Int32.ofInt_toInt]

/-- An instruction gives the result that an operator has. -/
def Agrees : Except Trap Int32 → Except InstrCause Int32 → Prop
  | .ok v, .ok v' => v = v'
  | .error t, .error c => c.code = t.code
  | _, _ => False

theorem divide_agrees {g : Int32 → Int32 → Int32} {k : Int → Int → Int} (name : Text)
    (hk : ∀ a b, Int32.ofInt (k a.toInt b.toInt) = g a b) (a b : Int32) :
    Agrees (divide k a b) (if b = 0 then .error (.divideByZero name)
      else if a.toInt = -2147483648 ∧ b = -1 then .error (.overflow name a.toInt) else .ok (g a b)) := by
  have hzero : b.toInt = 0 ↔ b = 0 := by rw [← Int32.toInt_inj]; rfl
  have hone : b.toInt = -1 ↔ b = -1 := by rw [← Int32.toInt_inj]; rfl
  simp only [divide, hzero, hone, hk]
  split
  · rfl
  · split <;> rfl

theorem arithmetic_agrees {op : BinaryOp} (hop : op.isComparison = false) (a b : Int32) :
    Agrees (applyBinary op a b) (arithmeticResult (Lower.arithmetic op) a b) := by
  cases op <;> try cases hop
  · simp [applyBinary, arithmeticResult, Lower.arithmetic, Agrees]
  · simp [applyBinary, arithmeticResult, Lower.arithmetic, Agrees]
  · simp [applyBinary, arithmeticResult, Lower.arithmetic, Agrees]
  · exact divide_agrees _ ofInt_tdiv a b
  · exact divide_agrees _ ofInt_tmod a b
  · rfl
  · rfl

/-- An instruction on two numbers. -/
theorem binary_yields (h : Hosts m c W f) {op : Opcode}
    (hop : op ∈ [Opcode.add, .sub, .mul, .div, .rem, .and, .or, .cgt, .clt])
    (he : Lower.emit (.plain op) c w = .ok (u, w')) (hg : w'.Grows W) {a b : Int32} {r : Except Trap Int32}
    (hr : Agrees r (arithmeticResult op a b)) :
    Yields m f world w.draft.code.size (.int b :: .int a :: S) w'.draft.code.size S r := by
  have hlong : (Emission.plain op).long = { op } ∧ op.isBranch = false ∧ ∀ g : Frame,
      g.execLong m world { op } = (g.execBinary world.heap op, world) := by
    simp only [List.mem_cons, List.not_mem_nil, or_false] at hop
    rcases hop with rfl | rfl | rfl | rfl | rfl | rfl | rfl | rfl | rfl <;> exact ⟨rfl, rfl, fun _ => rfl⟩
  obtain ⟨hlong, hbranch, hexec⟩ := hlong
  cases hres : arithmeticResult op a b with
  | ok v =>
    rw [hres] at hr
    cases r with
    | error t => exact hr.elim
    | ok v' =>
      cases hr
      refine h.next he hg (by rw [hlong]; exact hbranch) ?_
      rw [hlong, hexec]
      simp [Frame.execBinary, Frame.place, Heap.deref, hres]
  | error k =>
    rw [hres] at hr
    cases r with
    | ok v => exact hr.elim
    | error t =>
      have hfail : (f.place w.draft.code.size (.int b :: .int a :: S)).execLong m world (Emission.plain op).long =
          (.fail k, world) := by
        rw [hlong, hexec]
        simp [Frame.execBinary, Frame.place, Heap.deref, hres]
      exact ⟨_, _, h.fails he hg (by rw [hlong]; exact hbranch) hfail, congrArg some hr⟩

theorem ldc_goes (h : Hosts m c W f) {v : Int32} (he : Lower.emit (.int .ldc v) c w = .ok (u, w')) (hg : w'.Grows W) :
    m.Goes (f.place w.draft.code.size S) world (f.place w'.draft.code.size (.int v :: S)) world :=
  h.next he hg rfl rfl

theorem ceq_goes (h : Hosts m c W f) {a b : Int32} (he : Lower.emit (.plain .ceq) c w = .ok (u, w')) (hg : w'.Grows W) :
    m.Goes (f.place w.draft.code.size (.int b :: .int a :: S)) world
      (f.place w'.draft.code.size (.int (truth (a.toInt = b.toInt)) :: S)) world := by
  refine h.next he hg rfl ?_
  have hsame : world.heap.same (.int a) (.int b) = decide (a.toInt = b.toInt) := by
    simp [Heap.same, Heap.deref, Int32.toInt_inj]
  show (Effect.next { f.place w.draft.code.size _ with stack := .bool (world.heap.same (.int a) (.int b)) :: S }, world) = _
  rw [hsame]
  rfl

theorem negate_steady (hc : c.site.backend = .dynamic) (hn : Lower.negate c w = .ok (u, w')) : Steady w w' := by
  simp only [Lower.negate, Lower.bind_ok] at hn
  obtain ⟨_, w₁, h1, h2⟩ := hn
  exact (Steady.emit hc h1).trans (.emit hc h2)

theorem negate_goes (h : Hosts m c W f) {a : Int32} (hn : Lower.negate c w = .ok (u, w')) (hg : w'.Grows W) :
    m.Goes (f.place w.draft.code.size (.int a :: S)) world
      (f.place w'.draft.code.size (.int (truth (a.toInt = 0)) :: S)) world := by
  simp only [Lower.negate, Lower.bind_ok] at hn
  obtain ⟨_, w₁, h1, h2⟩ := hn
  exact (ldc_goes h h1 ((Steady.emit h.dynamic h2).toGrows.trans hg)).trans (ceq_goes h h2 hg)

theorem emitComparison_steady (hc : c.site.backend = .dynamic) {op : BinaryOp}
    (he : Lower.emitComparison op c w = .ok (u, w')) :
    Steady w w' := by
  unfold Lower.emitComparison at he
  split at he
  · exact .emit hc he
  · exact .emit hc he
  · obtain ⟨_, w₁, h1, h2⟩ := Lower.bind_ok.mp he
    exact (Steady.emit hc h1).trans (negate_steady hc h2)
  · obtain ⟨_, w₁, h1, h2⟩ := Lower.bind_ok.mp he
    exact (Steady.emit hc h1).trans (negate_steady hc h2)
  · obtain ⟨_, w₁, h1, h2⟩ := Lower.bind_ok.mp he
    exact (Steady.emit hc h1).trans (negate_steady hc h2)
  · exact .emit hc he

/-- A comparison leaves what it says; three are the negations of others. -/
theorem emitComparison_yields (h : Hosts m c W f) {op : BinaryOp} (hop : op.isComparison = true) {a b : Int32}
    (he : Lower.emitComparison op c w = .ok (u, w')) (hg : w'.Grows W) :
    Yields m f world w.draft.code.size (.int b :: .int a :: S) w'.draft.code.size S (applyBinary op a b) := by
  have order : ∀ {op : Opcode} {w w' : Work} {u : Unit} (p : Prop) [Decidable p],
      op ∈ [Opcode.add, .sub, .mul, .div, .rem, .and, .or, .cgt, .clt] →
      arithmeticResult op a b = .ok (truth p) → Lower.emit (.plain op) c w = .ok (u, w') → w'.Grows W →
      Yields m f world w.draft.code.size (.int b :: .int a :: S) w'.draft.code.size S (.ok (truth p)) :=
    fun p _ hop hr he hg => binary_yields h hop he hg (by rw [hr]; rfl)
  have less : arithmeticResult .clt a b = .ok (truth (a.toInt < b.toInt)) := by
    simp [arithmeticResult, truth, Int32.lt_iff_toInt_lt]
  have greater : arithmeticResult .cgt a b = .ok (truth (b.toInt < a.toInt)) := by
    simp [arithmeticResult, truth, Int32.lt_iff_toInt_lt]
  -- The negation of a truth value.
  have negated : ∀ (p q : Prop) [Decidable p] [Decidable q], (p ↔ ¬q) → truth ((truth q).toInt = 0) = truth p := by
    intro p q _ _ hpq
    by_cases hq : q <;> simp [truth, hq, hpq]
  cases op <;> try cases hop
  case eq => exact ceq_goes h he hg
  case ne =>
    obtain ⟨_, w₁, h1, h2⟩ := Lower.bind_ok.mp he
    have hw := (negate_steady h.dynamic h2).toGrows.trans hg
    simp only [applyBinary]
    rw [← negated _ (a.toInt = b.toInt) Iff.rfl]
    exact (ceq_goes h h1 hw).trans (negate_goes h h2 hg)
  case lt => exact order _ (by simp) less he hg
  case gt => exact order _ (by simp) greater he hg
  case le =>
    obtain ⟨_, w₁, h1, h2⟩ := Lower.bind_ok.mp he
    have hw := (negate_steady h.dynamic h2).toGrows.trans hg
    simp only [applyBinary]
    rw [← negated _ (b.toInt < a.toInt) (by omega)]
    exact Machine.Goes.trans (order _ (by simp) greater h1 hw) (negate_goes h h2 hg)
  case ge =>
    obtain ⟨_, w₁, h1, h2⟩ := Lower.bind_ok.mp he
    have hw := (negate_steady h.dynamic h2).toGrows.trans hg
    simp only [applyBinary]
    rw [← negated _ (a.toInt < b.toInt) (by omega)]
    exact Machine.Goes.trans (order _ (by simp) less h1 hw) (negate_goes h h2 hg)

/-- What an operator on two numbers is lowered to. -/
theorem applyBinary_cases (hr : Ready c) {op : BinaryOp} {t : Ty} {o : Option Ty} {k : Kind} {p : Pushed}
    (ht : t.kind? = some k)
    (hb : Lower.applyBinary op (some t) o c w = .ok (p, w')) :
    op.isComparison = true ∧ p = { type := some c.roles.boolean } ∧ Lower.emitComparison op c w = .ok ((), w') ∨
      op.isComparison = false ∧ p = { type := some t } ∧ Lower.emit (.plain (Lower.arithmetic op)) c w = .ok ((), w') := by
  simp only [Lower.applyBinary, Lower.compare, Lower.bind_ok, Lower.read_ok, Lower.ite_ok, Lower.fail_ok, and_false,
      false_or, or_false,
    false_and, exists_false, Lower.pure_ok, Bool.not_eq_true] at hb
  obtain ⟨_, _, ⟨rfl, rfl⟩, -, ⟨hop, _, _, ⟨rfl, rfl⟩, hc⟩ | ⟨hop, -, ha⟩⟩ := hb
  · rcases hc with ⟨-, -, _, _, he, rfl, rfl⟩ | ⟨-, -, _, _, he, rfl, rfl⟩ <;> exact .inl ⟨hop, rfl, he⟩
  · rcases ha with ⟨-, -, _, _, he, rfl, rfl⟩ | ⟨-, ⟨⟨-, hstring⟩, -⟩ | ⟨-, -, _, _, he, rfl, rfl⟩⟩
    · exact .inr ⟨hop, rfl, he⟩
    · rw [hr.same_string ht] at hstring
      cases hstring
    · exact .inr ⟨hop, rfl, he⟩

/-- What an operator on a number is lowered to. -/
theorem applyUnary_cases (hr : Ready c) {op : UnaryOp} {t : Ty} {k : Kind} {p : Pushed} (ht : t.kind? = some k)
    (hu : Lower.applyUnary op (some t) c w = .ok (p, w')) : p = { type := some t } ∧
      (op = .neg ∧ Lower.emit (.plain .neg) c w = .ok ((), w') ∨ op = .not ∧ k = .bool ∧ Lower.negate c w = .ok ((), w') ∨
        op = .not ∧ k = .int ∧ Lower.emit (.plain .not) c w = .ok ((), w')) := by
  simp only [Lower.applyUnary, Lower.bind_ok, Lower.read_ok, Lower.ite_ok, Lower.fail_ok, and_false, exists_false, or_false,
    false_and, Lower.pure_ok] at hu
  obtain ⟨_, _, ⟨rfl, rfl⟩, ⟨⟨hop, -⟩, _, _, he, rfl, rfl⟩ | ⟨-,
      ⟨⟨hop, hk⟩, _, _, he, rfl, rfl⟩ | ⟨-, ⟨hop, hk⟩, _, _, he, rfl, rfl⟩⟩⟩ := hu
  · exact ⟨rfl, .inl ⟨hop, he⟩⟩
  · exact ⟨rfl, .inr (.inl ⟨hop, Option.some_inj.mp (ht.symm.trans (hr.same_bool.mp hk)), he⟩)⟩
  · exact ⟨rfl, .inr (.inr ⟨hop, Option.some_inj.mp (ht.symm.trans (hr.same_int.mp hk)), he⟩)⟩

/-- An instruction on one number. -/
theorem unary_goes (h : Hosts m c W f) {op : Opcode} {g : Int32 → Int32}
    (hop : op = .neg ∧ g = (fun v => -v) ∨ op = .not ∧ g = fun v => ~~~v)
    (he : Lower.emit (.plain op) c w = .ok (u, w')) (hg : w'.Grows W) (a : Int32) :
    m.Goes (f.place w.draft.code.size (.int a :: S)) world (f.place w'.draft.code.size (.int (g a) :: S)) world := by
  rcases hop with ⟨rfl, rfl⟩ | ⟨rfl, rfl⟩ <;> exact h.next he hg rfl rfl

/-! ### Expressions -/

/-- Names of a kind are those of locals or parameters of its type. -/
def InScope (c : Scope) (w : Work) (κ : Kinds) : Prop :=
  ∀ {x : Text} {k : Kind}, κ.kind? x = some k → (∃ l, w.local? x = some l ∧ l.type.kind? = some k) ∨
    w.local? x = none ∧ ∃ i t, c.param? x = some (i, t) ∧ t.kind? = some k

/-- Lowering an expression adds code that computes it, and finds its kind. -/
structure Computes (c : Scope) (κ : Kinds) (e : Expr) (w : Work) (p : Pushed) (w' : Work) : Prop where
  steady : Steady w w'
  type : ∃ t, p = { type := some t } ∧ t.kind? = some (kind κ e)
  yields : ∀ {m : Machine} {W : Work} {f : Frame} {world : World} {σ : Slots} {S : List Value}, Hosts m c W f → w'.Grows W →
    Holds c W f world σ → Yields m f world w.draft.code.size S w'.draft.code.size S (eval κ σ e)

variable {κ : Kinds} {p : Pushed}

theorem ident_computes (hr : Ready c) (hs : InScope c w κ) {x : Text} {hint : Option Ty} (hx : (κ.kind? x).isSome = true)
    (he : Lower.ident x hint false c w = .ok (p, w')) : Computes c κ (.ident x) w p w' := by
  obtain ⟨k, hk⟩ := Option.isSome_iff_exists.mp hx
  have hkind : kind κ (.ident x) = k := by simp [kind, hk]
  simp only [Lower.ident, Lower.bind_ok, Lower.read_ok, Lower.local?_ok] at he
  obtain ⟨_, _, ⟨rfl, rfl⟩, _, _, ⟨rfl, rfl⟩, he⟩ := he
  obtain ⟨l, hl, ht⟩ | ⟨hl, i, t, hp, ht⟩ := hs hk
  · simp only [hl, Bool.false_and, Bool.false_eq_true, if_false, Lower.bind_ok, Lower.pure_ok] at he
    obtain ⟨_, _, he, rfl, rfl⟩ := he
    refine ⟨.emit hr.dynamic he, ⟨l.type, rfl, by rw [hkind, ht]⟩, fun {m W f world σ S} h hg hσ => ?_⟩
    obtain ⟨i, hi, -⟩ := (Lower.emit_ok hr.dynamic).mp he
    obtain ⟨hcell, hloc⟩ :=
      h.local?_eq (h.tidy.local?_kept ((Steady.emit hr.dynamic he).toGrows.trans hg) hl) (Emission.local_le hi)
    refine h.next he hg rfl ?_
    show ((f.place _ S).loadCell world.heap (f.local? (Int32.ofNat l.index)), world) = _
    rw [hloc]
    simp only [Frame.loadCell, Hosts.load hσ hcell]
    rfl
  · simp only [hl, hp, Bool.false_and, Bool.false_eq_true, if_false, Lower.bind_ok, Lower.pure_ok] at he
    obtain ⟨_, _, he, rfl, rfl⟩ := he
    refine ⟨.emit hr.dynamic he, ⟨t, rfl, by rw [hkind, ht]⟩, fun {m W f world σ S} h hg hσ => ?_⟩
    obtain ⟨_, hi, -⟩ := (Lower.emit_ok hr.dynamic).mp he
    obtain ⟨hcell, harg⟩ := h.arg?_eq (h.tidy.local?_param hp) hp (Emission.arg_le hi)
    refine h.next he hg rfl ?_
    show ((f.place _ S).loadCell world.heap (f.arg? (Int32.ofNat i)), world) = _
    rw [harg]
    simp only [Frame.loadCell, Hosts.load hσ hcell]
    rfl

theorem unary_computes (hr : Ready c) {op : UnaryOp} {e : Expr} {p₁ : Pushed} (h₁ : Computes c κ e w p₁ w₁)
    (hu : Lower.applyUnary op p₁.type c w₁ = .ok (p, w')) : Computes c κ (.unary op e) w p w' := by
  obtain ⟨t, rfl, ht⟩ := h₁.type
  obtain ⟨rfl, hop⟩ := applyUnary_cases hr ht hu
  have hs : Steady w₁ w' := by
    rcases hop with ⟨-, he⟩ | ⟨-, -, he⟩ | ⟨-, -, he⟩
    · exact .emit hr.dynamic he
    · exact negate_steady hr.dynamic he
    · exact .emit hr.dynamic he
  refine ⟨h₁.steady.trans hs, ⟨t, rfl, ht⟩, fun {m W f world σ S} h hg hσ => ?_⟩
  have hy := h₁.yields (S := S) h (hs.toGrows.trans hg) hσ
  simp only [eval]
  cases hv : eval κ σ e with
  | error t =>
    rw [hv] at hy
    exact hy
  | ok v =>
    rw [hv] at hy
    refine Yields.after hy ?_
    rcases hop with ⟨rfl, he⟩ | ⟨rfl, hk, he⟩ | ⟨rfl, hk, he⟩
    · have hgo :
          m.Goes (f.place w₁.draft.code.size (.int v :: S)) world (f.place w'.draft.code.size (.int (-v) :: S)) world :=
        unary_goes h (.inl ⟨rfl, rfl⟩) he hg v
      simpa [Yields, applyUnary] using hgo
    · rw [hk]
      exact negate_goes h he hg
    · rw [hk]
      exact unary_goes h (.inr ⟨rfl, rfl⟩) he hg v

theorem binary_computes (hr : Ready c) {op : BinaryOp} {l r : Expr} {p₁ p₂ : Pushed} {w₂ : Work}
    (h₁ : Computes c κ l w p₁ w₁)
    (h₂ : Computes c κ r w₁ p₂ w₂) (hb : Lower.applyBinary op p₁.type p₂.type c w₂ = .ok (p, w')) :
    Computes c κ (.binary op l r) w p w' := by
  obtain ⟨t, rfl, ht⟩ := h₁.type
  obtain ⟨u, rfl, -⟩ := h₂.type
  have hb := applyBinary_cases hr ht hb
  have hs : Steady w₂ w' := by
    rcases hb with ⟨-, -, he⟩ | ⟨-, -, he⟩
    · exact emitComparison_steady hr.dynamic he
    · exact .emit hr.dynamic he
  refine ⟨(h₁.steady.trans h₂.steady).trans hs, ?_, fun {m W f world σ S} h hg hσ => ?_⟩
  · rcases hb with ⟨hop, rfl, -⟩ | ⟨hop, rfl, -⟩
    · exact ⟨_, rfl, by simp [kind, hop, hr.bool]⟩
    · exact ⟨_, rfl, by simp [kind, hop, ht]⟩
  · have hg₂ := hs.toGrows.trans hg
    have hl := h₁.yields (S := S) h (h₂.steady.toGrows.trans hg₂) hσ
    simp only [eval]
    cases hv : eval κ σ l with
    | error t =>
      rw [hv] at hl
      exact hl
    | ok a =>
      rw [hv] at hl
      refine Yields.after hl ?_
      have hr := h₂.yields (S := .int a :: S) h hg₂ hσ
      cases hv' : eval κ σ r with
      | error t =>
        rw [hv'] at hr
        exact hr
      | ok b =>
        rw [hv'] at hr
        refine Yields.after hr ?_
        rcases hb with ⟨hop, -, he⟩ | ⟨hop, -, he⟩
        · exact emitComparison_yields h hop he hg
        · refine binary_yields h ?_ he hg (arithmetic_agrees hop a b)
          cases op <;> first | decide | cases hop

/-- Expressions over numbers are computed. -/
theorem expr_computes (hr : Ready c) {hint : Option Ty} {w w' : Work} {p : Pushed} :
    ∀ e : Expr, isExpr κ e = true → InScope c w κ →
    Lower.expr e hint false c w = .ok (p, w') → Computes c κ e w p w'
  | .int v, _, _, he => by
    simp only [Lower.expr, Lower.bind_ok, Lower.read_ok, Lower.pure_ok] at he
    obtain ⟨_, w₁, he, _, _, ⟨rfl, rfl⟩, rfl, rfl⟩ := he
    exact ⟨.emit hr.dynamic he, ⟨_, rfl, hr.int⟩, fun h hg _ => ldc_goes h he hg⟩
  | .bool b, _, _, he => by
    simp only [Lower.expr, Lower.bind_ok, Lower.read_ok, Lower.pure_ok] at he
    obtain ⟨_, w₁, he, _, _, ⟨rfl, rfl⟩, rfl, rfl⟩ := he
    exact ⟨.emit hr.dynamic he, ⟨_, rfl, hr.bool⟩, fun h hg _ => ldc_goes h he hg⟩
  | .ident x, hx, hs, he => ident_computes hr hs hx (by simpa only [Lower.expr] using he)
  | .unary op e, hx, hs, he => by
    simp only [Lower.expr, Lower.bind_ok] at he
    obtain ⟨p₁, w₁, h₁, hu⟩ := he
    exact unary_computes hr (expr_computes hr e hx hs h₁) hu
  | .binary op l r, hx, hs, he => by
    simp only [isExpr, Bool.and_eq_true] at hx
    simp only [Lower.expr, Lower.bind_ok] at he
    obtain ⟨p₁, w₁, h₁, p₂, w₂, h₂, hb⟩ := he
    have hl := expr_computes hr l hx.1 hs h₁
    exact binary_computes hr hl (expr_computes hr r hx.2 (fun hk => by simpa only [hl.steady.local?] using hs hk) h₂) hb
  | .missing, hx, _, _ | .string _, hx, _, _ | .null, hx, _, _ | .this, hx, _, _ | .member .., hx, _, _
  | .index .., hx, _, _
  | .call .., hx, _, _ | .new .., hx, _, _ | .newArray .., hx, _, _ | .methodRef .., hx, _, _ => nomatch hx

end Numeric
end CilCompiler
