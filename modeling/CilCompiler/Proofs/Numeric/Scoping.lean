import CilCompiler.Proofs.Numeric.Expr

/-!
Names in bodies over numbers and booleans. Lowering a statement brings those names into scope that the reference semantics
has in scope behind it, and every name gets a local of its own (`stmt_leads`).
-/

namespace CilCompiler.Numeric

/-- Lowering has gone on. Locals that have been added have new numbers. -/
structure Later (w w' : Work) : Prop extends w.Grows w' where
  size : w.draft.locals.size ≤ w'.draft.locals.size
  added : ∀ e ∈ w'.locals, e ∈ w.locals ∨ w.draft.locals.size ≤ e.2.index

theorem Later.trans {a b d : Work} (h : Later a b) (h' : Later b d) : Later a d where
  toGrows := h.toGrows.trans h'.toGrows
  size := Nat.le_trans h.size h'.size
  added e he := by
    rcases h'.added e he with he | he
    · exact h.added e he
    · exact .inr (Nat.le_trans h.size he)

theorem Steady.later {w w' : Work} (h : Steady w w') : Later w w' where
  toGrows := h.toGrows
  size := Nat.le_of_eq (congrArg Array.size h.slots.symm)
  added _ he := .inl (h.same ▸ he)

theorem Later.refl (w : Work) : Later w w := (Steady.refl w).later

/-- The names of types of a kind stand for such types. -/
def Reads (kindOf : Text → Option Kind) (s : Symbols) : Prop :=
  ∀ ⦃n : Text⦄ ⦃k : Kind⦄ ⦃t : Ty⦄ ⦃s' : Symbols⦄, kindOf n = some k → s.lookup n = .ok (t, s') → t.kind? = some k ∧ s' = s

/-- The names in scope are those that lowering knows. -/
structure Fits (kindOf : Text → Option Kind) (c : Scope) (κ : Kinds) (w : Work) : Prop where
  tidy : Tidy c w
  scope : InScope c w κ
  reads : Reads kindOf w.symbols

variable {kindOf : Text → Option Kind} {c : Scope} {κ κ' : Kinds} {w w₁ w' : Work} {u : Unit} {l : LocalSlot} {t : Ty}
    {k : Kind} {x : Text}

theorem Steady.fits (h : Steady w w') (hw : Fits kindOf c κ w) : Fits kindOf c κ w' where
  tidy := by
    constructor
    · rw [h.same, h.slots]; exact hw.tidy.numbers
    · rw [h.same]; exact hw.tidy.distinct
    · rw [h.same]; exact hw.tidy.names
    · rw [h.same]; exact hw.tidy.fresh
  scope hk := by simpa only [h.local?] using hw.scope hk
  reads := by
    rw [h.symbols]
    exact hw.reads

/-! ### Labels -/

theorem defineLabel_steady {l : Label} (h : Lower.defineLabel c w = .ok (l, w')) :
    Steady w w' ∧ w'.draft.code = w.draft.code := by
  have hg := Lower.defineLabel_grows h
  obtain ⟨-, rfl⟩ := Lower.defineLabel_ok h
  exact ⟨⟨hg, rfl, rfl, rfl⟩, rfl⟩

theorem markLabel_steady {l : Label} (h : Lower.markLabel l c w = .ok (u, w')) :
    Steady w w' ∧ w'.draft.code = w.draft.code ∧ w'.draft.marks[l.id]? = some (some w.draft.code.size) := by
  have hg := Lower.markLabel_grows h
  obtain ⟨hl, rfl⟩ := Lower.markLabel_ok h
  have hlt := (Array.getElem?_eq_some_iff.mp hl).1
  exact ⟨⟨hg, rfl, rfl, rfl⟩, rfl, by simp [hlt]⟩

/-! ### Declarations -/

theorem declareLocal_leads (hw : Fits kindOf c κ w) (hx : w.local? x = none) (hp : c.param? x = none)
    (ht : t.kind? = some k)
    (h : Lower.declareLocal x t c w = .ok (l, w')) :
    Later w w' ∧ w'.draft.code = w.draft.code ∧ Fits kindOf c (if x.isEmpty then κ else (x, k) :: κ) w' := by
  have hg := Lower.declareLocal_grows h
  obtain ⟨rfl, rfl⟩ := Lower.declareLocal_ok h
  have numbers : ∀ e ∈ w.locals, ∃ t' k, (w.draft.locals.push t)[e.2.index]? = some t' ∧ t'.kind? = some k := by
    intro e he
    rw [Array.getElem?_push, if_neg (Nat.ne_of_lt (hw.tidy.index e he))]
    exact hw.tidy.numbers e he
  by_cases hn : x.isEmpty
  · -- A local without a name is in nobody's scope.
    simp only [hn, if_true] at hg ⊢
    refine ⟨⟨hg, by simp, fun e he => .inl he⟩, trivial,
        ⟨⟨numbers, hw.tidy.distinct, hw.tidy.names, hw.tidy.fresh⟩, hw.scope, hw.reads⟩⟩
  · simp only [hn, Bool.false_eq_true, if_false] at hg ⊢
    refine ⟨⟨hg, by simp, ?_⟩, trivial, ⟨⟨?_, ?_, ?_, ?_⟩, ?_, hw.reads⟩⟩
    · rintro e (_ | ⟨_, he⟩)
      · exact .inr (Nat.le_refl _)
      · exact .inl he
    · rintro e (_ | ⟨_, he⟩)
      · exact ⟨t, k, by simp, ht⟩
      · exact numbers e he
    · refine List.nodup_cons.mpr ⟨fun hmem => ?_, hw.tidy.distinct⟩
      obtain ⟨e, he, hidx⟩ := List.mem_map.mp hmem
      exact absurd (hw.tidy.index e he) (Nat.not_lt_of_le (Nat.le_of_eq hidx.symm))
    · refine List.nodup_cons.mpr ⟨fun hmem => ?_, hw.tidy.names⟩
      obtain ⟨⟨y, l⟩, he, rfl⟩ := List.mem_map.mp hmem
      rw [hw.tidy.local?_of_mem he] at hx
      cases hx
    · rintro e (_ | ⟨_, he⟩)
      · exact ⟨hp, by simpa using hn⟩
      · exact hw.tidy.fresh e he
    · intro y j hy
      by_cases hyx : x = y
      · subst hyx
        have hjk : k = j := by simpa [Kinds.kind?] using hy
        exact .inl ⟨{ method := c.site.method, index := w.draft.locals.size, type := t }, by simp [Work.local?],
            ht.trans (by rw [hjk])⟩
      · have hsame (l' : LocalSlot) (d : Draft) : Work.local? { w with draft := d, locals := (x, l') :: w.locals } y =
            w.local? y := by
          simp [Work.local?, hyx]
        rw [hsame]
        exact hw.scope (by simpa [Kinds.kind?, hyx] using hy)

theorem declaredType_cases (hr : Reads kindOf w.symbols) {type : Text} {o : Option Ty}
    (hk : type.isEmpty || (kindOf type).isSome)
    (h : Lower.declaredType x type c w = .ok (o, w')) :
    w' = w ∧ (type.isEmpty = true ∧ o = none ∨ type.isEmpty = false ∧ ∃ t k, o = some t ∧ kindOf type = some k ∧
      t.kind? = some k) := by
  simp only [Lower.declaredType, Lower.bind_ok, Lower.ite_ok, Lower.lookupType_ok, Lower.pure_ok, Lower.fail_ok,
      and_false, false_or] at h
  rcases h with ⟨he, rfl, rfl⟩ | ⟨he, t, w₁, ⟨s, hl, rfl⟩, -, rfl, rfl⟩
  · exact ⟨rfl, .inl ⟨he, rfl⟩⟩
  · have he : type.isEmpty = false := by simpa using he
    obtain ⟨k, hk⟩ := Option.isSome_iff_exists.mp (by simpa [he] using hk)
    obtain ⟨ht, rfl⟩ := hr hk hl
    exact ⟨rfl, .inr ⟨he, t, k, rfl, hk, ht⟩⟩

theorem initializedType_cases {declared initial : Option Ty}
    (h : Lower.initializedType x declared initial c w = .ok (t, w')) :
    w' = w ∧ (declared = some t ∨ declared = none ∧ initial = some t) := by
  unfold Lower.initializedType at h
  split at h
  · simp only [Lower.bind_ok, Lower.pure_ok] at h
    obtain ⟨_, _, he, rfl, rfl⟩ := h
    exact ⟨(Lower.expect_ok he).2.2.symm, .inl rfl⟩
  · split at h
    · cases h
    · simp only [Lower.ite_ok, Lower.fail_ok, and_false, false_or, Lower.pure_ok] at h
      obtain ⟨-, rfl, rfl⟩ := h
      exact ⟨rfl, .inr ⟨rfl, rfl⟩⟩

/-- Lowering for a value is lowering. -/
theorem value_computes (hr : Ready c) (hw : Fits kindOf c κ w) {e : Expr} {hint o : Option Ty} (he : isExpr κ e = true)
    (h : Lower.value e hint c w = .ok (o, w')) :
      ∃ t, o = some t ∧ t.kind? = some (kind κ e) ∧ Computes c κ e w { type := o } w' := by
  simp only [Lower.value, Lower.bind_ok, Lower.pure_ok] at h
  obtain ⟨p, w₁, h, rfl, rfl⟩ := h
  have hc := expr_computes hr e he hw.scope h
  obtain ⟨t, rfl, ht⟩ := hc.type
  exact ⟨t, rfl, ht, hc⟩

/-- What a declaration is lowered to. -/
theorem localStmt_cases (hr : Ready c) (hw : Fits kindOf c κ w) {type : Text} {init : Expr}
    (hs : isStmt kindOf κ (.local x type init) = true)
    (h : Lower.localStmt x type init c w = .ok (u, w')) :
    w.local? x = none ∧ c.param? x = none ∧ ∃ t, t.kind? = some (declared kindOf κ type init) ∧
      (init.isMissing = true ∧ (∃ l, Lower.declareLocal x t c w = .ok (l, w')) ∨
        init.isMissing = false ∧ ∃ p w₁ l w₂, Computes c κ init w p w₁ ∧ Lower.declareLocal x t c w₁ = .ok (l, w₂) ∧
          Lower.emit (.local .stloc (some l)) c w₂ = .ok ((), w')) := by
  simp only [isStmt, Bool.and_eq_true] at hs
  simp only [Lower.localStmt, Lower.bind_ok, Lower.read_ok, Lower.local?_ok, Lower.ite_ok, Lower.fail_ok,
      and_false, false_or,
    Bool.or_eq_true, not_or, Bool.not_eq_true, Option.isSome_eq_false_iff, Option.isNone_iff_eq_none] at h
  obtain ⟨_, _, ⟨rfl, rfl⟩, _, _, ⟨rfl, rfl⟩, ⟨hx, hp⟩, o, _, htype, h⟩ := h
  refine ⟨hx, hp, ?_⟩
  obtain ⟨rfl, hd⟩ := declaredType_cases hw.reads hs.1 htype
  rcases h with ⟨hm, h⟩ | ⟨hm, h⟩
  · rcases hd with ⟨-, rfl⟩ | ⟨he, t, k, rfl, hk, ht⟩
    · cases h
    · obtain ⟨l, _, hl, -, rfl⟩ := Lower.bind_ok.mp h
      exact ⟨t, by simp [declared, he, hk, ht], .inl ⟨hm, l, hl⟩⟩
  · obtain ⟨i, w₁, hv, t, _, hinit, l, w₂, hl, he⟩ := h
    obtain ⟨v, rfl, hkv, hc⟩ := value_computes hr hw (by simpa [hm] using hs.2) hv
    obtain ⟨rfl, hi⟩ := initializedType_cases hinit
    refine ⟨t, ?_, .inr ⟨hm, _, _, l, w₂, hc, hl, he⟩⟩
    rcases hd with ⟨he, rfl⟩ | ⟨he, t', k, rfl, hk, ht⟩
    · rcases hi with hi | ⟨-, hi⟩ <;> cases hi
      simp [declared, he, hkv]
    · rcases hi with hi | ⟨hi, -⟩ <;> cases hi
      simp [declared, he, hk, ht]

theorem localStmt_leads (hr : Ready c) (hw : Fits kindOf c κ w) {type : Text} {init : Expr}
    (hs : isStmt kindOf κ (.local x type init) = true) (h : Lower.localStmt x type init c w = .ok (u, w')) :
    Later w w' ∧ Fits kindOf c (after kindOf κ (.local x type init)) w' := by
  obtain ⟨hx, hp, t, ht, ⟨-, l, hl⟩ | ⟨-, p, w₁, l, w₂, hc, hl, he⟩⟩ := localStmt_cases hr hw hs h
  · obtain ⟨hlater, -, hf⟩ := declareLocal_leads hw hx hp ht hl
    exact ⟨hlater, by simpa only [after] using hf⟩
  · obtain ⟨hlater, -, hf⟩ := declareLocal_leads (hc.steady.fits hw) (by rw [hc.steady.local?, hx]) hp ht hl
    have hs := Steady.emit hr.dynamic he
    exact ⟨(hc.steady.later.trans hlater).trans hs.later, hs.fits (by simpa only [after] using hf)⟩

/-! ### Other statements -/

/-- Lowering a condition is lowering its value. -/
theorem condition_computes (hr : Ready c) (hw : Fits kindOf c κ w) {e : Expr} (he : isExpr κ e = true)
    (h : Lower.condition e c w = .ok (u, w')) : ∃ p, Computes c κ e w p w' := by
  simp only [Lower.condition, Lower.bind_ok, Lower.read_ok, Lower.ite_ok, Lower.fail_ok, and_false, or_false,
      Lower.pure_ok] at h
  obtain ⟨_, _, ⟨rfl, rfl⟩, o, w₁, hv, -, -, rfl⟩ := h
  obtain ⟨t, -, -, hc⟩ := value_computes hr hw he hv
  exact ⟨_, hc⟩

/-- What an assignment is lowered to. -/
theorem assignStmt_cases (hr : Ready c) (hw : Fits kindOf c κ w) {e : Expr}
    (hs : isStmt kindOf κ (.assign (.ident x) e) = true)
    (h : Lower.assignStmt (.ident x) e c w = .ok (u, w')) : ∃ p w₁, Computes c κ e w p w₁ ∧
      ((∃ l, w.local? x = some l ∧ Lower.emit (.local .stloc (some l)) c w₁ = .ok ((), w')) ∨
        ∃ i t, w.local? x = none ∧ c.param? x = some (i, t) ∧ Lower.emit (.arg .starg i) c w₁ = .ok ((), w')) := by
  simp only [isStmt, Bool.and_eq_true] at hs
  obtain ⟨k, hk⟩ := Option.isSome_iff_exists.mp hs.1
  simp only [Lower.assignStmt, Lower.place, Lower.identPlace, Lower.bind_ok, Lower.read_ok, Lower.local?_ok] at h
  obtain ⟨⟨p, o⟩, w₁, ⟨_, _, ⟨rfl, rfl⟩, _, _, ⟨rfl, rfl⟩, hp⟩, v, w₂, hv, _, _, he, hst⟩ := h
  obtain ⟨-, -, rfl⟩ := Lower.expect_ok he
  obtain ⟨l, hl, -⟩ | ⟨hl, i, t, hparam, -⟩ := hw.scope hk
  · simp only [hl, Lower.pure_ok, Prod.mk.injEq] at hp
    obtain ⟨⟨rfl, rfl⟩, rfl⟩ := hp
    obtain ⟨_, -, -, hc⟩ := value_computes hr hw hs.2 hv
    exact ⟨_, w₂, hc, .inl ⟨l, hl, hst⟩⟩
  · simp only [hl, hparam, Lower.pure_ok, Prod.mk.injEq] at hp
    obtain ⟨⟨rfl, rfl⟩, rfl⟩ := hp
    obtain ⟨_, -, -, hc⟩ := value_computes hr hw hs.2 hv
    exact ⟨_, w₂, hc, .inr ⟨i, t, hl, hparam, hst⟩⟩

/-- What a return is lowered to. -/
theorem returnStmt_cases (hr : Ready c) (hw : Fits kindOf c κ w) {e : Expr} (hs : isStmt kindOf κ (.return e) = true)
    (h : Lower.returnStmt e c w = .ok (u, w')) : e.isMissing = true ∧ Lower.emit (.plain .ret) c w = .ok ((), w') ∨
      e.isMissing = false ∧ ∃ p w₁, Computes c κ e w p w₁ ∧ Lower.emit (.plain .ret) c w₁ = .ok ((), w') := by
  simp only [Lower.returnStmt, Lower.bind_ok, Lower.read_ok, Lower.ite_ok, Lower.fail_ok, and_false,
      or_false, false_or] at h
  obtain ⟨_, _, ⟨rfl, rfl⟩, ⟨hm, -, he⟩ | ⟨hm, -, o, w₁, hv, _, _, hx, he⟩⟩ := h
  · exact .inl ⟨hm, he⟩
  · have hm : e.isMissing = false := by simpa using hm
    obtain ⟨-, -, rfl⟩ := Lower.expect_ok hx
    obtain ⟨_, -, -, hc⟩ := value_computes hr hw (by simpa [isStmt, hm] using hs) hv
    exact .inr ⟨hm, _, w₁, hc, he⟩

mutual

/-- Lowering a statement brings into scope what it declares. -/
theorem stmt_leads (hr : Ready c) {κ : Kinds} {w w' : Work} {u : Unit} :
    ∀ s : Stmt, isStmt kindOf κ s = true → Fits kindOf c κ w →
    Lower.stmt s c w = .ok (u, w') → Later w w' ∧ Fits kindOf c (after kindOf κ s) w'
  | .return e, hs, hw, h => by
    rw [Lower.stmt] at h
    simp only [after]
    rcases returnStmt_cases hr hw hs h with ⟨-, he⟩ | ⟨-, p, w₁, hc, he⟩
    · exact ⟨(Steady.emit hr.dynamic he).later, (Steady.emit hr.dynamic he).fits hw⟩
    · have hsteady := hc.steady.trans (.emit hr.dynamic he)
      exact ⟨hsteady.later, hsteady.fits hw⟩
  | .local x type init, hs, hw, h => by
    rw [Lower.stmt] at h
    exact localStmt_leads hr hw hs h
  | .assign (.ident x) e, hs, hw, h => by
    rw [Lower.stmt] at h
    simp only [after]
    obtain ⟨p, w₁, hc, ⟨l, -, he⟩ | ⟨i, t, -, -, he⟩⟩ := assignStmt_cases hr hw hs h <;>
    · have hsteady := hc.steady.trans (.emit hr.dynamic he)
      exact ⟨hsteady.later, hsteady.fits hw⟩
  | .while cond body, hs, hw, h => by
    simp only [isStmt, Bool.and_eq_true] at hs
    simp only [Lower.stmt, Lower.whileLoop, Lower.bind_ok] at h
    obtain ⟨start, wₐ, ha, test, wᵦ, hb, _, w₀, hbr, _, w₁, hm, _, w₂, hbody, _, w₃, hm', _, w₄, hcond, he⟩ := h
    have h₁ := (((defineLabel_steady ha).1.trans (defineLabel_steady hb).1).trans (.emit hr.dynamic hbr)).trans
      (markLabel_steady hm).1
    obtain ⟨h₂, hf⟩ := block_leads hr body hs.1 (h₁.fits hw) hbody
    have h₃ := (markLabel_steady hm').1
    obtain ⟨p, hc⟩ := condition_computes hr (h₃.fits hf) hs.2 hcond
    have h₄ := (h₃.trans hc.steady).trans (.emit hr.dynamic he)
    exact ⟨(h₁.later.trans h₂).trans h₄.later, by simpa only [after] using h₄.fits hf⟩
  | .if cond yes no, hs, hw, h => by
    simp only [isStmt, Bool.and_eq_true] at hs
    simp only [Lower.stmt, Lower.choice, Lower.bind_ok] at h
    obtain ⟨other, wₐ, ha, done, wᵦ, hb, _, w₀, hcond, _, w₁, hbr, _, w₂, hyes, _, w₃, hbr', _, w₄, hm, _,
        w₅, hno, hm'⟩ := h
    have h₀ := (defineLabel_steady ha).1.trans (defineLabel_steady hb).1
    obtain ⟨p, hc⟩ := condition_computes hr (h₀.fits hw) hs.1.1 hcond
    have h₁ := (h₀.trans hc.steady).trans (.emit hr.dynamic hbr)
    obtain ⟨h₂, hf₂⟩ := block_leads hr yes hs.1.2 (h₁.fits hw) hyes
    have h₃ := (Steady.emit hr.dynamic hbr').trans (markLabel_steady hm).1
    obtain ⟨h₄, hf₄⟩ := block_leads hr no hs.2 (h₃.fits hf₂) hno
    have h₅ := (markLabel_steady hm').1
    exact ⟨(((h₁.later.trans h₂).trans h₃.later).trans h₄).trans h₅.later, by simpa only [after] using h₅.fits hf₄⟩
  | .assign .missing _, hs, _, _ | .assign (.int _) _, hs, _, _ | .assign (.string _) _, hs, _, _
  | .assign (.bool _) _, hs, _, _
  | .assign .null _, hs, _, _ | .assign .this _, hs, _, _ | .assign (.member ..) _, hs, _, _
  | .assign (.index ..) _, hs, _, _
  | .assign (.binary ..) _, hs, _, _ | .assign (.unary ..) _, hs, _, _ | .assign (.call ..) _, hs, _, _
  | .assign (.new ..) _, hs, _, _
  | .assign (.newArray ..) _, hs, _, _ | .assign (.methodRef ..) _, hs, _, _ | .expr _, hs, _, _ | .baseCall, hs, _, _ => by
    simp [isStmt] at hs

theorem block_leads (hr : Ready c) {κ : Kinds} {w w' : Work} {u : Unit} : ∀ ss : List Stmt, isBlock kindOf κ ss = true →
    Fits kindOf c κ w → Lower.block ss c w = .ok (u, w') → Later w w' ∧ Fits kindOf c (afterAll kindOf κ ss) w'
  | [], _, hw, h => by
    simp only [Lower.block, Lower.pure_ok] at h
    obtain ⟨-, rfl⟩ := h
    exact ⟨.refl w, by simpa only [afterAll] using hw⟩
  | s :: rest, hs, hw, h => by
    simp only [isBlock, Bool.and_eq_true] at hs
    simp only [Lower.block, Lower.bind_ok] at h
    obtain ⟨_, w₁, h₁, h₂⟩ := h
    obtain ⟨hl₁, hf₁⟩ := stmt_leads hr s hs.1 hw h₁
    obtain ⟨hl₂, hf₂⟩ := block_leads hr rest hs.2 hf₁ h₂
    exact ⟨hl₁.trans hl₂, by simpa only [afterAll] using hf₂⟩

end

end CilCompiler.Numeric
