import CilCompiler.Proofs.Lowering.Stepwise
import CilCompiler.Proofs.Typed.Parts

/-! The code of expressions. Each of its instructions goes on to the next one, and stores to no argument and to no
    local but those that were added for the expression (`Work.Inner`). The same code would be added behind any other
    code (`Lower.Relocates`), so it needs nothing of what is on the stack before it (`Setting.Fits.straight`).

Calls where static and other overloads compete. Behind the code of the arguments stands code that moves them into
temporaries, the last one first, and puts them back behind the receiver of the overload that is called
(`Lower.Spills`). -/

namespace CilCompiler

/-! ### Instructions -/

/-- An instruction goes on to the next one, and stores to no argument and to no local but those from `a` to `b`. -/
structure Instr.Inner (a b : Nat) (i : Instr) : Prop where
  ret : i.op ≠ .ret
  branch : i.op.isBranch = false
  ctor : ∀ k, i ≠ { op := .call, operand := .ctor k }
  arg : i.expanded.op ≠ .starg
  slot : i.expanded.op = .stloc → ∃ n, i.expanded.operand = .int (Int32.ofNat n) ∧ a ≤ n ∧ n < b ∧ n ≤ 65534

theorem Instr.Inner.mono {a b a' b' : Nat} {i : Instr} (h : i.Inner a b) (ha : a' ≤ a) (hb : b ≤ b') : i.Inner a' b' := by
  refine ⟨h.ret, h.branch, h.ctor, h.arg, fun hop => ?_⟩
  obtain ⟨n, hn, hlo, hhi, hmax⟩ := h.slot hop
  exact ⟨n, hn, Nat.le_trans ha hlo, Nat.lt_of_lt_of_le hhi hb, hmax⟩

namespace Emission
variable {e : Emission} {s : Site} {i : Instr}

theorem ne_ctorCall (hc : e.callsCtor = false) (h : e.encode s = .ok i) (k : Method) :
    i ≠ { op := .call, operand := .ctor k } := by
  rintro rfl
  have hlong : e.long = { op := .call, operand := .ctor k } := (encode_long h).symm
  have plain : ∀ {op : Opcode} {x : Operand}, Instr.expanded { op, operand := x } = { op := .call, operand := .ctor k } →
      x = .ctor k := fun h => congrArg Instr.operand (Instr.expanded_eq_call h)
  cases e with
  | ctor op c =>
    cases congrArg Instr.op (Instr.expanded_eq_call hlong)
    cases hc
  | plain op => cases plain hlong
  | str op t => cases plain hlong
  | field op f => cases plain hlong
  | method op m => cases plain hlong
  | type op t => cases t <;> cases plain hlong
  | label op l => cases l <;> cases plain hlong
  | int op v => cases hlong
  | «local» op l => cases l <;> cases hlong
  | arg op n => cases hlong

theorem inner (he : e.isInner = true) (h : e.encode s = .ok i) (a b : Nat) : i.Inner a b := by
  simp only [isInner, Bool.and_eq_true, Bool.not_eq_true', bne_iff_ne, ne_eq] at he
  obtain ⟨⟨⟨⟨⟨⟨-, hc⟩, hbranch⟩, hret⟩, hloc⟩, harg⟩, -⟩ := he
  have hlong := encode_long h
  rw [← hlong] at hbranch hret hloc harg
  refine ⟨fun hop => hret ?_, by rw [← Instr.isBranch_expanded]; exact hbranch, ne_ctorCall hc h, harg,
      fun hop => absurd hop hloc⟩
  obtain ⟨op, x⟩ := i
  cases hop
  rfl

theorem inner_take {m : Method} (h : (Emission.method .ldvirtftn m).encode s = .ok i) (a b : Nat) : i.Inner a b := by
  have hi : i = { op := .ldvirtftn, operand := .method m } := encodeMethod_ok h
  rw [hi]
  exact ⟨fun hop => (by cases hop), rfl, fun k hk => (by cases hk), fun hop => (by cases hop), fun hop => (by cases hop)⟩

theorem inner_stloc {l : LocalSlot} (h : (Emission.local .stloc (some l)).encode s = .ok i) :
    i.Inner l.index (l.index + 1) := by
  have hlong : i.expanded = { op := .stloc, operand := .int (Int32.ofNat l.index) } := encode_long h
  refine ⟨fun hop => ?_, ?_, ne_ctorCall rfl h, fun hop => ?_, fun _ => ?_⟩
  · obtain ⟨op, x⟩ := i
    cases hop
    cases hlong
  · rw [← Instr.isBranch_expanded, hlong]
    rfl
  · rw [hlong] at hop
    cases hop
  · exact ⟨l.index, by rw [hlong], Nat.le_refl _, Nat.lt_succ_self _, local_le h⟩

end Emission

/-! ### Works -/

/-- What lowering an expression adds: code, and locals without names. -/
structure Work.Inner (w w' : Work) : Prop where
  names : w'.locals = w.locals
  locals : w.draft.locals.size ≤ w'.draft.locals.size
  code : ∃ js, w'.draft.code.toList = w.draft.code.toList ++ js ∧ ∀ i ∈ js, i.Inner w.draft.locals.size w'.draft.locals.size

namespace Work.Inner

theorem refl (w : Work) : w.Inner w := ⟨rfl, Nat.le_refl _, [], by simp, fun _ hi => (by cases hi)⟩

theorem trans {w w₁ w₂ : Work} (h : w.Inner w₁) (h' : w₁.Inner w₂) : w.Inner w₂ := by
  obtain ⟨js, hjs, hin⟩ := h.code
  obtain ⟨js', hjs', hin'⟩ := h'.code
  refine ⟨h'.names.trans h.names, Nat.le_trans h.locals h'.locals, js ++ js',
      by rw [hjs', hjs, List.append_assoc], fun i hi => ?_⟩
  rcases List.mem_append.mp hi with hi | hi
  · exact (hin i hi).mono (Nat.le_refl _) h'.locals
  · exact (hin' i hi).mono h.locals (Nat.le_refl _)

theorem expressive : Expressive (@Lower.Keeps Work.Inner) := by
  have emitted : ∀ {e : Emission}, (∀ {s i}, e.encode s = .ok i → ∀ a b, i.Inner a b) →
      (Lower.emit e).Keeps Work.Inner := by
    intro e he c w w' u h
    obtain ⟨i, n, k, hi, rfl⟩ := Lower.emit_eq h
    refine ⟨rfl, Nat.le_refl _, [i], by simp [Draft.push], fun j hj => ?_⟩
    cases List.mem_singleton.mp hj
    exact he hi _ _
  refine Lower.Keeps.expressive refl trans (fun name c w w' t h => ?_) (fun t c w w' l h => ?_)
    (fun he => emitted fun hi => Emission.inner he hi) fun m c w w' u h => ?_
  · obtain ⟨s, hs, rfl⟩ := Lower.lookupType_ok.mp h
    exact ⟨rfl, Nat.le_refl _, [], by simp, fun _ hi => (by cases hi)⟩
  · obtain ⟨l, w₁, h1, h⟩ := Lower.bind_ok.mp h
    obtain ⟨_, w₂, h2, h⟩ := Lower.bind_ok.mp h
    obtain ⟨-, rfl⟩ := Lower.pure_ok.mp h
    obtain ⟨rfl, rfl⟩ := Lower.declareLocal_ok h1
    obtain ⟨i, n, k, hi, rfl⟩ := Lower.emit_eq h2
    refine ⟨rfl, by simp [Draft.push], [i], by simp [Draft.push], fun j hj => ?_⟩
    cases List.mem_singleton.mp hj
    exact (Emission.inner_stloc hi).mono (Nat.le_refl _) (by simp [Draft.push])
  · obtain ⟨_, w₁, h1, h2⟩ := Lower.bind_ok.mp h
    exact trans (emitted (fun hi => Emission.inner rfl hi) h1) (emitted Emission.inner_take h2)

end Work.Inner

/-! ### The same code elsewhere -/

/-- Lowering adds the same code behind any other code, where there are the same locals. -/
def Lower.Relocates {α : Type} (x : Lower α) : Prop :=
  ∀ ⦃c : Scope⦄ ⦃w w' : Work⦄ ⦃a : α⦄, c.site.backend = .dynamic → x c w = .ok (a, w') →
    ∃ js, w'.draft.code.toList = w.draft.code.toList ++ js ∧ ∀ d : Draft, d.locals = w.draft.locals →
      ∃ d', x c { w with draft := d } = .ok (a, { w' with draft := d' }) ∧ d'.code.toList = d.code.toList ++ js ∧
        d'.locals = w'.draft.locals

namespace Lower.Relocates
variable {α β : Type}

/-- A step that records nothing. -/
theorem still {x : Lower α} (h : ∀ {c w w' a}, x c w = .ok (a, w') → w'.draft = w.draft ∧
    ∀ d, x c { w with draft := d } = .ok (a, { w' with draft := d })) : Relocates x := by
  intro c w w' a _ hx
  obtain ⟨hd, hx⟩ := h hx
  exact ⟨[], by simp [hd], fun d hl => ⟨d, hx d, by simp, by rw [hl, hd]⟩⟩

theorem bind {x : Lower α} {f : α → Lower β} (hx : Relocates x) (hf : ∀ a, Relocates (f a)) : Relocates (x >>= f) := by
  intro c w w' b hdyn h
  obtain ⟨a, w₁, h1, h2⟩ := bind_ok.mp h
  obtain ⟨js, hjs, hx⟩ := hx hdyn h1
  obtain ⟨js', hjs', hf⟩ := hf a hdyn h2
  refine ⟨js ++ js', by rw [hjs', hjs, List.append_assoc], fun d hd => ?_⟩
  obtain ⟨d₁, hrun, hcode, hlocals⟩ := hx d hd
  obtain ⟨d₂, hrun', hcode', hlocals'⟩ := hf d₁ hlocals
  exact ⟨d₂, (bind_of_ok hrun).trans hrun', by rw [hcode', hcode, List.append_assoc], hlocals'⟩

theorem emit (e : Emission) : Relocates (Lower.emit e) := by
  intro c w w' u hdyn h
  obtain ⟨i, hi, rfl⟩ := (emit_ok hdyn).mp h
  exact ⟨[i], by simp [Draft.push], fun d hd => ⟨d.push i, (emit_ok hdyn).mpr ⟨i, hi, rfl⟩, by simp [Draft.push], hd⟩⟩

theorem expressive : Expressive @Relocates where
  pure a := still fun h => by
    obtain ⟨rfl, rfl⟩ := pure_ok.mp h
    exact ⟨rfl, fun d => rfl⟩
  bind := bind
  fail f := by
    intro c w w' a _ h
    cases h
  read _ hf := by
    intro c w w' a hdyn h
    exact hf c hdyn h
  symbols := still fun h => by
    obtain ⟨rfl, rfl⟩ := symbols_ok.mp h
    exact ⟨rfl, fun d => rfl⟩
  local? name := still fun h => by
    obtain ⟨rfl, rfl⟩ := local?_ok.mp h
    exact ⟨rfl, fun d => rfl⟩
  lookupType name := still fun h => by
    obtain ⟨s, hs, rfl⟩ := lookupType_ok.mp h
    exact ⟨rfl, fun d => lookupType_ok.mpr ⟨s, hs, rfl⟩⟩
  spill t := by
    intro c w w' l hdyn h
    obtain ⟨l, w₁, h1, h⟩ := bind_ok.mp h
    obtain ⟨_, w₂, h2, h⟩ := bind_ok.mp h
    obtain ⟨rfl, rfl⟩ := pure_ok.mp h
    obtain ⟨⟨_, _⟩, hdecl, he⟩ := map_eq_ok.mp h1
    obtain ⟨_, hopen, hdecl⟩ := bind_eq_ok.mp hdecl
    cases hdecl
    cases he
    obtain ⟨i, hi, rfl⟩ := (emit_ok hdyn).mp h2
    refine ⟨[i], by simp [Draft.push],
        fun d hd => ⟨{ d with locals := d.locals.push t, code := d.code.push i }, ?_, by simp, ?_⟩⟩
    · have declares : declareLocal .empty t c { w with draft := d } =
          .ok ({ method := c.site.method, index := w.draft.locals.size, type := t },
            { w with draft := { d with locals := d.locals.push t } }) := by
        simp only [declareLocal, Draft.declareLocal, hopen, hd]
        rfl
      exact (bind_of_ok declares).trans (bind_of_ok (a := ()) ((emit_ok hdyn).mpr ⟨i, hi, rfl⟩))
    · simp [Draft.push, hd]
  emit {e} _ := emit e
  take m := bind (emit _) fun _ => emit _

end Lower.Relocates

/-! ### What the code finds on the stack -/

/-- How many values there are on a stack behind the first `n` of some instructions, above those in front of them. -/
def Instr.heightAt (ret : Option Ty) (js : List Instr) (n : Nat) : Nat :=
  (js.take n).foldl (fun depth i => i.depthAfter ret depth) 0

theorem Instr.heightAt_succ (ret : Option Ty) {js : List Instr} {n : Nat} {i : Instr} (hi : js[n]? = some i) :
    heightAt ret js (n + 1) = i.depthAfter ret (heightAt ret js n) := by
  rw [heightAt, List.take_add_one, List.foldl_append, hi]
  rfl

/-- The locals of a body can be declared before anything else. -/
theorem Draft.Built.cleared {m : Method} {d : Draft} (h : Draft.Built m d) : Draft.Built m { locals := d.locals } := by
  induction h with
  | new => exact .new
  | @emit d s e _ hdyn _ ih =>
    have hlocals : (d.emit s e).2.locals = d.locals := by
      unfold Draft.emit Draft.record
      rw [hdyn]
      split
      · rfl
      · rfl
    rw [hlocals]
    exact ih
  | @declareLocal d d' s t l _ hdyn hm hd ih =>
    simp only [Draft.declareLocal, bind_eq_ok] at hd
    obtain ⟨_, hopen, hd⟩ := hd
    cases t with
    | none => cases hd
    | some t =>
      cases hd
      have declares : Draft.declareLocal s { locals := d.locals } (some t) =
          .ok ({ method := s.method, index := d.locals.size, type := t }, { locals := d.locals.push t }) := by
        simp only [Draft.declareLocal, hopen]
        rfl
      exact .declareLocal ih hdyn hm declares
  | @defineLabel d d' s l _ hdyn _ hd ih =>
    simp only [Draft.defineLabel, hdyn, bind_eq_ok] at hd
    obtain ⟨_, -, hd⟩ := hd
    cases hd
    exact ih
  | @mark d d' s l _ hdyn _ hd ih =>
    simp only [Draft.mark, hdyn] at hd
    split at hd
    · split at hd
      · split at hd
        · cases hd
          exact ih
        · cases hd
      · cases hd
    · cases hd

namespace Setting
variable {Γ : Setting} {w : Work} {S : List Slot} {y : Lower.Point} {code : Array Instr}

/-- Without its code sound work is sound. -/
theorem Sound.cleared (h : Γ.Sound w S) : Γ.Sound { w with draft := { locals := w.draft.locals } } [] where
  reads := h.reads
  names := h.names
  locals := h.locals
  typed := typed_new.mono rfl (fun hn => (by cases hn)) (Nat.le_refl _) fun hm => by cases hm
  built hdyn := (h.built hdyn).cleared
  counted _ := Nat.zero_le _

/-- There are as many values at a place as there are slots, or more. -/
theorem Certified.counted {d : Draft} {layout : List (List Slot)} (hc : Γ.Certified d layout) {n : Nat} {T : List Slot}
    (hT : layout[n]? = some T) : T.length ≤ Instr.heightAt (some Γ.scope.ret) d.code.toList n := by
  induction n generalizing T with
  | zero =>
    cases hc.start.symm.trans hT
    exact Nat.zero_le _
  | succ n ih =>
    have hlt := (List.getElem?_eq_some_iff.mp hT).1
    have hlen := hc.length
    have hi : d.code[n]? = some d.code[n] := Array.getElem?_eq_getElem (by omega)
    obtain ⟨T₀, hT₀⟩ := hc.stack (show n ≤ d.code.size by omega)
    have counted := (hc.step hi hT₀ hT).counted (some Γ.scope.ret) (ih hT₀)
    rw [Instr.depthAfter, Instr.effect_expanded, ← Instr.depthAfter] at counted
    rw [Instr.heightAt_succ _ (by rw [Array.getElem?_toList]; exact hi)]
    exact counted

/-- Each instruction takes off the stack only what those before it have put there. -/
theorem Typed.pops {d : Draft} (h : Γ.Typed d S) {n : Nat} {i : Instr} (hi : d.code.toList[n]? = some i) :
    (i.effect (some Γ.scope.ret)).1 ≤ Instr.heightAt (some Γ.scope.ret) d.code.toList n := by
  obtain ⟨layout, hc, -⟩ := h
  rw [Array.getElem?_toList] at hi
  have hlt := (Array.getElem?_eq_some_iff.mp hi).1
  obtain ⟨T, hT⟩ := hc.stack (show n ≤ d.code.size by omega)
  obtain ⟨T', hT'⟩ := hc.stack (show n + 1 ≤ d.code.size by omega)
  have pops := (hc.step hi hT hT').shifts.1
  rw [Instr.effect_expanded] at pops
  exact Nat.le_trans pops (hc.counted hT)

/-- Behind one value, code that takes only what it has put on the stack leaves a slot for each value. -/
theorem Typed.above_one {d : Draft} (h : Γ.Typed d S) {js : List Instr} (hcode : d.code.toList = { op := .ldnull } :: js)
    (hpops : ∀ {n : Nat} {i : Instr}, js[n]? = some i →
      (i.effect (some Γ.scope.ret)).1 ≤ Instr.heightAt (some Γ.scope.ret) js n) :
    S.length = Instr.heightAt (some Γ.scope.ret) js js.length + 1 := by
  obtain ⟨layout, hc, hS⟩ := h
  have hsize : d.code.size = js.length + 1 := by rw [← Array.length_toList, hcode, List.length_cons]
  suffices counted : ∀ n ≤ js.length, ∀ T, layout[n + 1]? = some T →
      T.length = Instr.heightAt (some Γ.scope.ret) js n + 1 by
    exact counted js.length (Nat.le_refl _) S (by rw [← hsize]; exact hS)
  intro n hn
  have hi : ∀ {k : Nat}, d.code[k]? = (({ op := .ldnull } : Instr) :: js)[k]? :=
    fun {k} => by rw [← Array.getElem?_toList, hcode]
  induction n with
  | zero =>
    intro T hT
    have hnull : Γ.Types d.locals d.marks.size { op := .ldnull } [] T := hc.step (hi (k := 0)) hc.start hT
    cases hnull
    rfl
  | succ n ih =>
    intro T hT
    obtain ⟨T₀, hT₀⟩ := hc.stack (show n + 1 ≤ d.code.size by omega)
    have hlen₀ := ih (by omega) T₀ hT₀
    have hj : js[n]? = some js[n] := List.getElem?_eq_getElem (by omega)
    obtain ⟨-, hlen⟩ := (hc.step ((hi (k := n + 1)).trans hj) hT₀ hT).shifts
    have pops := hpops hj
    rw [Instr.depthAfter, Instr.effect_expanded] at hlen
    rw [Instr.heightAt_succ _ hj, Instr.depthAfter]
    rcases hlen with hlen | ⟨-, hlen, -⟩
    · omega
    · omega

/-- The locals of sound work can be those of work that has one value on its stack. -/
theorem Sound.above_one (h : Γ.Sound w S) (hdyn : Γ.scope.site.backend = .dynamic) :
    Γ.Sound { w with draft := { code := #[{ op := .ldnull }], locals := w.draft.locals } } [.value none] where
  reads := h.reads
  names := h.names
  locals := h.locals
  typed := (h.cleared.typed.push (i := { op := .ldnull }) .null).mono rfl (fun hn => hn) (Nat.le_refl _) fun hm => by
    cases hm
  built _ := .emit (s := { backend := .dynamic, moduleName := .empty, method := Γ.scope.site.method, isSealed := false })
    (.plain .ldnull) (h.built hdyn).cleared rfl rfl
  counted htext := by
    rw [hdyn] at htext
    cases htext

end Setting

/-! ### Expressions -/

/-- The code of an expression goes straight on, stores to no variable, and needs nothing of what is on the stack
    before it. Where it has a value it leaves this one. -/
structure Lower.Point.Leaves (c : Scope) (y : Lower.Point) (p : Pushed) (w : Work) (js : List Instr) : Prop where
  run : y.run c = .ok (p, w)
  code : w.draft.code.toList = y.work.draft.code.toList ++ js
  names : w.locals = y.work.locals
  locals : y.work.draft.locals.size ≤ w.draft.locals.size
  inner : ∀ i ∈ js, i.Inner y.work.draft.locals.size w.draft.locals.size
  pops : ∀ {n : Nat} {i : Instr}, js[n]? = some i → (i.effect (some c.ret)).1 ≤ Instr.heightAt (some c.ret) js n
  one : Ty.isVoidOpt p.type = false → Instr.heightAt (some c.ret) js js.length = 1

namespace Setting
variable {Γ : Setting} {y : Lower.Point} {code : Array Instr}

theorem Within.leaves (hΓ : Γ.Ok) (hdyn : Γ.scope.site.backend = .dynamic) (h : Γ.Within y code) :
    ∃ p w' js, y.Leaves Γ.scope p w' js ∧ w'.draft.code.toList <+: code.toList := by
  obtain ⟨⟨hn, hh, S, hs⟩, p, w', hr, hcode, hcalled⟩ := h
  obtain ⟨hnames, hlocals, js, hjs, hinner⟩ := Work.Inner.expressive.expr y.hint y.called y.expr hr
  obtain ⟨js', hjs', relocated⟩ := Lower.Relocates.expressive.expr y.hint y.called y.expr hdyn hr
  obtain rfl := List.append_cancel_left (hjs.symm.trans hjs')
  -- The same code alone is typed, from an empty stack on.
  obtain ⟨d, hd, hdcode, -⟩ := relocated { locals := y.work.draft.locals } rfl
  have hdcode : d.code.toList = js := by simpa using hdcode
  have hP := expr_pushes hΓ y.expr hn hh hs.cleared hd
  have typed : ∃ T, Γ.Typed d T := by
    cases hvoid : Ty.isVoidOpt p.type with
    | false => exact ⟨_, (hP.value hvoid).typed⟩
    | true =>
      have hcalled : y.called = false := by
        by_contra hc
        have := hcalled (by simpa using hc)
        rw [hvoid] at this
        cases this
      exact ⟨_, (hP.void hvoid (.inl ⟨hcalled, rfl⟩)).typed⟩
  obtain ⟨T, hT⟩ := typed
  have pops : ∀ {n : Nat} {i : Instr}, js[n]? = some i →
      (i.effect (some Γ.scope.ret)).1 ≤ Instr.heightAt (some Γ.scope.ret) js n := by
    intro n i hi
    rw [← hdcode] at hi ⊢
    exact hT.pops hi
  refine ⟨p, w', js, ⟨hr, hjs', hnames, hlocals, hinner, pops, fun hvoid => ?_⟩, hcode⟩
  -- Behind one value it leaves two slots.
  obtain ⟨d', hd', hdcode', -⟩ := relocated { code := #[{ op := .ldnull }], locals := y.work.draft.locals } rfl
  have hlen := ((expr_pushes hΓ y.expr hn hh (hs.above_one hdyn) hd').value hvoid).typed.above_one hdcode' pops
  exact Nat.succ_inj.mp hlen.symm

end Setting

namespace Lower
variable {c : Scope} {w w' : Work} {name : Text}

/-- Moving the values on the stack into the locals from `first` on. -/
def storesCode (first n : Nat) : List Instr :=
  (List.range' first n).map fun k => { op := .stloc, operand := .int (Int32.ofNat k) }

/-- Putting the locals from `first` on back on the stack, the last one first. -/
def loadsCode (first n : Nat) : List Instr :=
  (List.range' first n).reverse.map fun k => { op := .ldloc, operand := .int (Int32.ofNat k) }

/-- Putting the receiver of a method on the stack. -/
def receiverOf (r : Method) : List Instr := if r.isStatic then [] else [{ op := .ldarg, operand := .int 0 }]

/-- Calling a method of the enclosing type. -/
def callOf (c : Scope) (r : Method) : Instr := { op := if r.isStatic then .call else callOp c.owner, operand := .method r }

/-- What stands behind the arguments of a call, where they go through the locals from `first` on. -/
def spilledCode (c : Scope) (first n : Nat) (r : Method) : List Instr :=
  storesCode first n ++ (receiverOf r ++ (loadsCode first n ++ [callOf c r]))

/-- Lowering has added code that stands for the given long forms, and nothing but that. -/
structure Adds (w w' : Work) (is : List Instr) : Prop where
  code : ∃ js, w'.draft.code.toList = w.draft.code.toList ++ js ∧ js.map Instr.expanded = is
  symbols : w'.symbols = w.symbols

namespace Adds
variable {w₁ : Work} {is js : List Instr}

theorem refl (w : Work) : Adds w w [] := ⟨⟨[], by simp, rfl⟩, rfl⟩

theorem trans (h : Adds w w₁ is) (h' : Adds w₁ w' js) : Adds w w' (is ++ js) := by
  obtain ⟨⟨as, has, hlong⟩, hsymbols⟩ := h
  obtain ⟨⟨bs, hbs, hlong'⟩, hsymbols'⟩ := h'
  exact ⟨⟨as ++ bs, by rw [hbs, has, List.append_assoc], by rw [List.map_append, hlong, hlong']⟩, hsymbols'.trans hsymbols⟩

theorem emit (hdyn : c.site.backend = .dynamic) {e : Emission} {u : Unit} (h : Lower.emit e c w = .ok (u, w')) :
    Adds w w' [e.long] ∧ w'.draft.locals = w.draft.locals := by
  obtain ⟨i, hi, rfl⟩ := (emit_ok hdyn).mp h
  exact ⟨⟨⟨[i], by simp [Draft.push], by rw [List.map_singleton, Emission.encode_long hi]⟩, rfl⟩, rfl⟩

end Adds

/-- Temporaries are the locals that come next. The first one takes the value on top of the stack. -/
theorem spillArguments_adds (hdyn : c.site.backend = .dynamic) {position : Nat} {types : List (Option Ty)}
    {ls : List LocalSlot}
    (h : spillArguments name position types c w = .ok (ls, w')) :
    Adds w w' (storesCode w.draft.locals.size types.length) ∧
      ls.map LocalSlot.index = (List.range' w.draft.locals.size types.length).reverse ∧
      w'.draft.locals.size = w.draft.locals.size + types.length ∧
      ∀ k ∈ List.range' w.draft.locals.size types.length, k ≤ 65534 := by
  induction types generalizing position w ls with
  | nil =>
    obtain ⟨rfl, rfl⟩ := pure_ok.mp h
    exact ⟨.refl _, rfl, rfl, fun k hk => by cases hk⟩
  | cons x types ih =>
    cases x with
    | none => cases h
    | some t =>
      simp only [spillArguments, bind_ok, pure_ok] at h
      obtain ⟨l, w₁, hl, _, w₂, he, ls', w₃, hr, rfl, rfl⟩ := h
      obtain ⟨rfl, rfl⟩ := declareLocal_ok hl
      obtain ⟨stored, hlocals⟩ := Adds.emit hdyn he
      obtain ⟨i, hi, -⟩ := (emit_ok hdyn).mp he
      obtain ⟨adds, hindex, hsize, hsmall⟩ := ih hr
      have hnext : w₂.draft.locals.size = w.draft.locals.size + 1 := by rw [hlocals]; simp
      rw [hnext] at adds hindex hsize hsmall
      refine ⟨?_, ?_, by rw [hsize, List.length_cons]; omega, List.forall_mem_cons.mpr ⟨Emission.local_le hi, hsmall⟩⟩
      · have declared : Adds w w₂ [{ op := .stloc, operand := .int (Int32.ofNat w.draft.locals.size) }] :=
          ⟨stored.code, stored.symbols⟩
        exact declared.trans adds
      · rw [List.map_append, hindex, List.length_cons, List.range'_succ, List.reverse_cons]
        rfl

/-- Putting temporaries back. -/
theorem loadAll_adds (hdyn : c.site.backend = .dynamic) {ls : List LocalSlot} {u : PUnit}
    (h : (forIn ls PUnit.unit fun l _ => do
        Lower.emit (.local .ldloc (some l))
        pure (ForInStep.yield PUnit.unit) : Lower PUnit) c w = .ok (u, w')) :
    Adds w w' (ls.map fun l => { op := .ldloc, operand := .int (Int32.ofNat l.index) }) ∧
      w'.draft.locals = w.draft.locals := by
  induction ls generalizing w with
  | nil =>
    simp only [List.forIn_nil, pure_ok] at h
    obtain ⟨-, rfl⟩ := h
    exact ⟨.refl _, rfl⟩
  | cons l ls ih =>
    simp only [List.forIn_cons, bind_ok, pure_ok] at h
    obtain ⟨_, _, ⟨_, w₁, he, rfl, rfl⟩, h⟩ := h
    obtain ⟨loaded, hlocals⟩ := Adds.emit hdyn he
    obtain ⟨adds, hlocals'⟩ := ih h
    exact ⟨loaded.trans adds, hlocals'.trans hlocals⟩

/-- How lowering goes on behind the arguments of a call where overloads compete. -/
structure Spills (c : Scope) (name : Text) (types : List (Option Ty)) (w : Work) (r : Method) (w' : Work) : Prop where
  chosen : ((w.symbols.methodsOf c.owner name).find? fun m => Ty.sameList m.params types) = some r
  adds : Adds w w' (spilledCode c w.draft.locals.size types.length r)
  locals : w'.draft.locals.size = w.draft.locals.size + types.length
  small : ∀ k ∈ List.range' w.draft.locals.size types.length, k ≤ 65534

theorem callOf_long (c : Scope) (r : Method) :
    (Emission.method (if r.isStatic then .call else callOp c.owner) r).long = callOf c r := by
  unfold callOf callOp
  cases r.isStatic with
  | true => rfl
  | false =>
    cases c.owner.isValue with
    | true => rfl
    | false => rfl

theorem callMixed_ok (hdyn : c.site.backend = .dynamic) {args : Arguments} {p : Pushed}
    (h : callMixed name args c w = .ok (p, w')) :
    ∃ types w₁ r, args.push [] c w = .ok (types, w₁) ∧ Spills c name types w₁ r w' := by
  simp only [callMixed, bind_ok, read_ok, symbols_ok] at h
  obtain ⟨types, w₁, hp, temps, w₂, hs, _, _, ⟨rfl, rfl⟩, _, _, ⟨rfl, rfl⟩, h⟩ := h
  obtain ⟨stores, hindex, hsize, hsmall⟩ := spillArguments_adds hdyn hs
  rw [List.length_reverse] at stores hindex hsize hsmall
  cases hfind : (w₂.symbols.methodsOf c.owner name).find? fun m => Ty.sameList m.params types with
  | none =>
    rw [hfind] at h
    cases h
  | some r =>
    have hloads : (temps.map fun l => ({ op := .ldloc, operand := .int (Int32.ofNat l.index) } : Instr)) =
        loadsCode w₁.draft.locals.size types.length := by
      rw [loadsCode, ← hindex, List.map_map]
      rfl
    refine ⟨types, w₁, r, hp, ?_⟩
    rw [hfind] at h
    rw [stores.symbols] at hfind
    simp only [ite_ok, bind_ok, pure_ok] at h
    rcases h with ⟨hst, _, w₃, h1, _, w₄, h2, _, w₅, h3, -, rfl⟩ | ⟨hst, _, w₄, h2, _, w₅, h3, -, rfl⟩
    · obtain ⟨received, hl₁⟩ := Adds.emit hdyn h1
      obtain ⟨loads, hl₂⟩ := loadAll_adds hdyn h2
      obtain ⟨called, hl₃⟩ := Adds.emit hdyn h3
      refine ⟨hfind, ?_, by rw [hl₃, hl₂, hl₁, hsize], hsmall⟩
      rw [hloads] at loads
      rw [callOf_long] at called
      rw [spilledCode, receiverOf, if_neg (by simpa using hst)]
      exact stores.trans (received.trans (loads.trans called))
    · obtain ⟨loads, hl₂⟩ := loadAll_adds hdyn h2
      obtain ⟨called, hl₃⟩ := Adds.emit hdyn h3
      refine ⟨hfind, ?_, by rw [hl₃, hl₂, hsize], hsmall⟩
      rw [hloads] at loads
      rw [callOf_long] at called
      rw [spilledCode, receiverOf, if_pos (by simpa using hst)]
      exact stores.trans (loads.trans called)

/-- Overloads with and without a receiver compete for a call, unless its name is that of a variable that holds a
    delegate. -/
theorem callOwn_mixed {args : Arguments} (hv : isDelegateVariable name c w = .ok (false, w)) (hinst : c.isStatic = false)
    (hstatic : ∃ m ∈ w.symbols.methodsOf c.owner name, m.params.length = args.count ∧ m.isStatic = true)
    (hother : ∃ m ∈ w.symbols.methodsOf c.owner name, m.params.length = args.count ∧ m.isStatic = false) :
    callOwn name args c w = callMixed name args c w := by
  obtain ⟨m, hm, hcount, hst⟩ := hstatic
  obtain ⟨m', hm', hcount', hst'⟩ := hother
  have hall : (w.symbols.methodsOf c.owner name).isEmpty = false := by
    cases hl : w.symbols.methodsOf c.owner name with
    | nil =>
      rw [hl] at hm
      cases hm
    | cons x xs => rfl
  have hinsts : (((w.symbols.methodsOf c.owner name).filter fun m => m.params.length = args.count).filter fun m =>
      !m.isStatic).isEmpty = false := by
    rw [List.isEmpty_eq_false_iff_exists_mem]
    exact ⟨m', by simp [hm', hcount', hst']⟩
  have hstatics : (((w.symbols.methodsOf c.owner name).filter fun m => m.params.length = args.count).filter
      Method.isStatic).isEmpty = false := by
    rw [List.isEmpty_eq_false_iff_exists_mem]
    exact ⟨m, by simp [hm, hcount, hst]⟩
  rw [callOwn, bind_of_ok read_run, bind_of_ok hv, if_neg Bool.false_ne_true, bind_of_ok symbols_run]
  simp only [hall, hinst, hinsts, hstatics, Bool.false_eq_true, Bool.false_and, Bool.false_or, if_false]

/-! ### Arguments -/

/-- Expressions are lowered one after the other from `w` to `w'`, each to a value: what lowering says of it, and the
    work behind it. -/
inductive InTurn (c : Scope) : List Expr → Work → List (Pushed × Work) → Work → Prop
  | nil {w : Work} : InTurn c [] w [] w
  | cons {e : Expr} {es : List Expr} {v : Pushed} {w w₁ w' : Work} {vs : List (Pushed × Work)} :
      expr e none false c w = .ok (v, w₁) → Ty.isVoidOpt v.type = false → InTurn c es w₁ vs w' →
      InTurn c (e :: es) w ((v, w₁) :: vs) w'

theorem arguments_inTurn {position : Nat} {es : List Expr} {types : List (Option Ty)}
    (h : arguments position [] es c w = .ok (types, w')) :
    ∃ vs, InTurn c es w vs w' ∧ types = vs.map fun v => v.1.type := by
  induction es generalizing position w types with
  | nil =>
    obtain ⟨rfl, rfl⟩ := pure_ok.mp h
    exact ⟨[], .nil, rfl⟩
  | cons e es ih =>
    simp only [arguments, bind_ok, ite_ok, fail_ok, and_false, false_or, pure_ok, Bool.not_eq_true] at h
    obtain ⟨v, w₁, he, hvoid, types, w₂, hrest, rfl, rfl⟩ := h
    obtain ⟨vs, hvs, rfl⟩ := ih hrest
    exact ⟨(v, w₁) :: vs, .cons he hvoid hvs, rfl⟩

/-- A call where overloads with and without a receiver compete lowers its arguments, which go through temporaries. -/
theorem call_mixed_ok (hdyn : c.site.backend = .dynamic) {es : List Expr} {hint : Option Ty} {called : Bool} {p : Pushed}
    (h : expr (.call .missing name es) hint called c w = .ok (p, w')) (hv : isDelegateVariable name c w = .ok (false, w))
    (hinst : c.isStatic = false)
    (hstatic : ∃ m ∈ w.symbols.methodsOf c.owner name, m.params.length = es.length ∧ m.isStatic = true)
    (hother : ∃ m ∈ w.symbols.methodsOf c.owner name, m.params.length = es.length ∧ m.isStatic = false) :
    ∃ vs w₁ r, arguments 1 [] es c w = .ok (vs.map fun v => v.1.type, w₁) ∧ InTurn c es w vs w₁ ∧
      Spills c name (vs.map fun v => v.1.type) w₁ r w' := by
  rw [expr] at h
  have missing : Expr.missing.isMissing = true := rfl
  rw [if_pos missing, callOwn_mixed hv hinst hstatic hother] at h
  obtain ⟨types, w₁, r, hargs, hspills⟩ := callMixed_ok hdyn h
  obtain ⟨vs, hturn, rfl⟩ := arguments_inTurn hargs
  exact ⟨vs, w₁, r, hargs, hturn, hspills⟩

theorem InTurn.inner {es : List Expr} {vs : List (Pushed × Work)} (h : InTurn c es w vs w') : w.Inner w' := by
  induction h with
  | nil => exact .refl _
  | cons he _ _ ih => exact (Work.Inner.expressive.expr none false _ he).trans ih

theorem InTurn.length {es : List Expr} {vs : List (Pushed × Work)} (h : InTurn c es w vs w') : vs.length = es.length := by
  induction h with
  | nil => rfl
  | cons _ _ _ ih => rw [List.length_cons, List.length_cons, ih]

end Lower
end CilCompiler
