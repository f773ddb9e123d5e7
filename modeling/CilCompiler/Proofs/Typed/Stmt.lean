import CilCompiler.Proofs.Typed.Expr

/-!
Typed statements. Lowering a statement starts and ends with an empty stack, and marks all labels it defines.
A body ends in a return behind all of its labels.
-/

namespace CilCompiler

namespace Setting
variable {Γ : Setting} {w w₁ w' : Work} {S : List Slot} {t : Ty} {u : Unit}

theorem value_pushes (hΓ : Γ.Ok) {e : Expr} {hint o : Option Ty} (hn : ∀ n ∈ e.typeNames, Γ.Named n)
    (hh : ∀ t, hint = some t → Γ.Admits t) (h : Γ.Sound w S) (hv : Lower.value e hint Γ.scope w = .ok (o, w')) :
    w.Kept w' ∧ (∀ t, o = some t → Γ.Admits t) ∧ (Ty.isVoidOpt o = false → Γ.Sound w' (.value o :: S)) := by
  simp only [Lower.value, Lower.bind_ok, Lower.pure_ok] at hv
  obtain ⟨p, w₁, hp, rfl, rfl⟩ := hv
  have hP := expr_pushes hΓ e hn hh h hp
  exact ⟨hP.kept, fun t ht => hP.admits ht, hP.plain⟩

/-! ### Assignments -/

/-- Where an assignment stores to: the type of the place, and what lies below the value. -/
inductive Placed (Γ : Setting) (w : Work) : Place → Option Ty → List Slot → Prop
  | local {l} : w.draft.locals[l.index]? = some l.type → Placed Γ w (.local l) (some l.type) []
  | arg {i t} : Γ.scope.args[i]? = some t → Placed Γ w (.arg i) (some t) []
  | field {f t} : f.isStatic = false → Γ.FieldOn t f → Placed Γ w (.field f) f.type [.value (some t)]
  | staticField {f t} : f.isStatic = true → Γ.FieldOn t f → Placed Γ w (.staticField f) f.type []
  | element {e n} : Γ.Admits (.array e) → n.name = TypeName.int32 →
      Placed Γ w (.element e) (some e) [.value (some n), .value (some (.array e))]

theorem Placed.kept {p : Place} {o : Option Ty} {s : List Slot} (h : Γ.Placed w p o s) (hk : w.Kept w') :
    Γ.Placed w' p o s := by
  cases h with
  | «local» h => exact .local (hk.locals h)
  | arg h => exact .arg h
  | field h1 h2 => exact .field h1 h2
  | staticField h1 h2 => exact .staticField h1 h2
  | element h1 h2 => exact .element h1 h2

theorem identPlace_sound (hΓ : Γ.Ok) {name : Text} {p : Place} {o : Option Ty} (h : Γ.Sound w S)
    (hp : Lower.identPlace name Γ.scope w = .ok ((p, o), w')) :
    w.Kept w' ∧ (∀ t, o = some t → Γ.Admits t) ∧ ∃ s, Γ.Placed w' p o s ∧ Γ.Sound w' (s ++ S) := by
  simp only [Lower.identPlace, Lower.bind_ok, Lower.read_ok, Lower.local?_ok] at hp
  obtain ⟨_, _, ⟨rfl, rfl⟩, _, _, ⟨rfl, rfl⟩, hp⟩ := hp
  cases hloc : w.local? name with
  | some l =>
    simp only [hloc, Lower.pure_ok, Prod.mk.injEq] at hp
    obtain ⟨⟨rfl, rfl⟩, rfl⟩ := hp
    obtain ⟨n, hn⟩ := local_mem hloc
    exact ⟨.refl _, fun t ht => by cases ht; exact (h.locals (h.names hn)).admits, [], .local (h.names hn), h⟩
  | none =>
    cases hpar : Γ.scope.param? name with
    | some it =>
      obtain ⟨i, t⟩ := it
      simp only [hloc, hpar, Lower.pure_ok, Prod.mk.injEq] at hp
      obtain ⟨⟨rfl, rfl⟩, rfl⟩ := hp
      obtain ⟨n, hn⟩ := param_mem hpar
      obtain ⟨ha, hT⟩ := hΓ.arg hn
      exact ⟨.refl _, fun t ht => by cases ht; exact hT.admits, [], .arg ha, h⟩
    | none =>
      simp only [hloc, hpar, Lower.bind_ok, Lower.fieldAlong_ok] at hp
      obtain ⟨_, _, ⟨rfl, rfl⟩, hp⟩ := hp
      cases hfield : w.symbols.fieldAlong Γ.scope.roles.object Γ.scope.owner name with
      | error e =>
        rw [hfield] at hp
        cases hp
      | ok f =>
        have hf := FieldOn.of_fieldAlong hΓ.owner.admits h hfield
        have hadm : ∀ t, f.type = some t → Γ.Admits t := fun t ht => by
          obtain ⟨r, hr, hR⟩ := hf.type hΓ
          cases hr.symm.trans ht
          exact hR.admits
        simp only [hfield, Lower.ite_ok, Lower.bind_ok, Lower.pure_ok, Lower.requireInstance_ok, Prod.mk.injEq] at hp
        rcases hp with ⟨hst, ⟨rfl, rfl⟩, rfl⟩ | ⟨hst, _, _, ⟨hi, rfl⟩, _, w₁, he, ⟨rfl, rfl⟩, rfl⟩
        · exact ⟨.refl _, hadm, [], .staticField hst hf, h⟩
        · obtain ⟨hk, h⟩ := h.loadThis hi he
          exact ⟨hk, hadm, _, .field (by simpa using hst) hf, h⟩

theorem memberPlace_sound (hΓ : Γ.Ok) {target : Expr} {name : Text} {p : Place} {o : Option Ty}
    (hn : ∀ n ∈ target.typeNames, Γ.Named n) (h : Γ.Sound w S)
    (hp : Lower.memberPlace target name Γ.scope w = .ok ((p, o), w')) :
    w.Kept w' ∧ (∀ t, o = some t → Γ.Admits t) ∧ ∃ s, Γ.Placed w' p o s ∧ Γ.Sound w' (s ++ S) := by
  have hadm : ∀ {t f}, Γ.FieldOn t f → ∀ u, f.type = some u → Γ.Admits u := fun hf u hu => by
    obtain ⟨r, hr, hR⟩ := hf.type hΓ
    cases hr.symm.trans hu
    exact hR.admits
  simp only [Lower.memberPlace, Lower.bind_ok] at hp
  obtain ⟨x, w₁, ht, hp⟩ := hp
  obtain ⟨rfl, hty⟩ := typeTarget_admits h ht
  cases x with
  | some t =>
    simp only [Lower.bind_ok, Lower.fieldAlong_ok, Lower.ofExcept_ok, Lower.ite_ok, Lower.pure_ok, Lower.fail_ok,
      and_false, or_false, Prod.mk.injEq] at hp
    obtain ⟨_, _, ⟨rfl, rfl⟩, f, _, ⟨hf, rfl⟩, hst, ⟨rfl, rfl⟩, rfl⟩ := hp
    have hf := FieldOn.of_fieldAlong (hty t rfl) h hf
    exact ⟨.refl _, hadm hf, [], .staticField hst hf, h⟩
  | none =>
    simp only [Lower.bind_ok, Lower.fieldAlong_ok] at hp
    obtain ⟨⟨t, a⟩, w₂, hr, hp⟩ := hp
    obtain ⟨hk, hT, ha, h⟩ := receiver_pushes (fun hp => expr_pushes hΓ target hn (no_hint Γ) h hp) hr
    obtain ⟨_, _, ⟨rfl, rfl⟩, hp⟩ := hp
    cases hfield : w₂.symbols.fieldAlong Γ.scope.roles.object t name with
    | error e =>
      simp only [hfield, Lower.ite_ok, Lower.fail_ok, and_false, or_false] at hp
    | ok f =>
      have hf := FieldOn.of_fieldAlong hT.admits h hfield
      simp only [hfield, Lower.ite_ok, Lower.pure_ok, Lower.fail_ok, and_false, false_or, Prod.mk.injEq] at hp
      obtain ⟨hst, ⟨rfl, rfl⟩, rfl⟩ := hp
      cases a with
      | true => cases (ha rfl).1
      | false => exact ⟨hk, hadm hf, _, .field (by simpa using hst) hf, h⟩

theorem place_sound (hΓ : Γ.Ok) {e : Expr} {p : Place} {o : Option Ty} (hn : ∀ n ∈ e.typeNames, Γ.Named n)
    (h : Γ.Sound w S) (hp : Lower.place e Γ.scope w = .ok ((p, o), w')) :
    w.Kept w' ∧ (∀ t, o = some t → Γ.Admits t) ∧ ∃ s, Γ.Placed w' p o s ∧ Γ.Sound w' (s ++ S) := by
  cases e with
  | ident name => exact identPlace_sound hΓ h hp
  | member target name => exact memberPlace_sound hΓ (fun n h => hn n (by rw [Expr.typeNames]; exact h)) h hp
  | index array position =>
    simp only [Lower.place, Lower.bind_ok, Lower.pure_ok, Prod.mk.injEq] at hp
    obtain ⟨elem, w₁, he, ⟨rfl, rfl⟩, rfl⟩ := hp
    simp only [Expr.typeNames, List.mem_append] at hn
    obtain ⟨hk, hadm, n, hname, h⟩ := element_sound hΓ
      (fun h hp => expr_pushes hΓ array (fun n h => hn n (.inl h)) (no_hint Γ) h hp)
      (fun hh h hp => expr_pushes hΓ position (fun n h => hn n (.inr h)) hh h hp) h he
    exact ⟨hk, fun t ht => by cases ht; exact hΓ.element hadm, _, .element hadm hname, h⟩
  | _ => cases hp

theorem store_sound {p : Place} {o v : Option Ty} {s : List Slot} (hp : Γ.Placed w p o s)
    (ha : Ty.accepts o v = true) (h : Γ.Sound w (.value v :: (s ++ S))) (hs : Lower.store p Γ.scope w = .ok (u, w')) :
    w.Kept w' ∧ Γ.Sound w' S := by
  cases hp with
  | «local» hl => exact h.emit hs fun hi => .setLoc (Emission.local_le hi) hl ha
  | arg hi => exact h.emit hs fun he => .setArg (Emission.arg_le he) hi ha
  | field hst hf => exact h.emit hs fun _ => .setField hst hf ha
  | staticField hst hf => exact h.emit hs fun _ => .setStaticField hst hf ha
  | element he hn => exact h.emit hs fun _ => .setElement he hn ha

/-! ### Labels -/

/-- All labels but those in `ids` are marked. -/
def Open (w : Work) (ids : List Nat) : Prop :=
  ∀ id, id < w.draft.marks.size → id ∉ ids → ∃ p, w.draft.marks[id]? = some (some p)

theorem Open.kept {ids : List Nat} (h : Open w ids) (hm : w'.draft.marks = w.draft.marks) : Open w' ids := by
  intro id hid hn
  rw [hm] at hid ⊢
  exact h id hid hn

/-- What lowering a statement does. -/
structure Runs (Γ : Setting) (w w' : Work) : Prop where
  sound : Γ.Sound w' []
  labels : w.draft.marks.size ≤ w'.draft.marks.size
  grows : w.Grows w'
  marked : ∀ {ids : List Nat}, Open w ids → Open w' ids

theorem Runs.code (h : Γ.Runs w w') : w.draft.code.toList <+: w'.draft.code.toList := h.grows.code

theorem Runs.of_marks (h : Γ.Sound w' []) (hm : w'.draft.marks = w.draft.marks) (hg : w.Grows w') : Γ.Runs w w' :=
  ⟨h, Nat.le_of_eq (by rw [hm]), hg, fun ho => ho.kept hm⟩

theorem Runs.of_kept (h : Γ.Sound w' []) (hk : w.Kept w') : Γ.Runs w w' := .of_marks h hk.marks hk.grows

theorem Runs.trans {a b c : Work} (h : Γ.Runs a b) (h' : Γ.Runs b c) : Γ.Runs a c :=
  ⟨h'.sound, Nat.le_trans h.labels h'.labels, h.grows.trans h'.grows, fun ho => h'.marked (h.marked ho)⟩

theorem defineLabel_sound (h : Γ.Sound w S) {l : Label} (hd : Lower.defineLabel Γ.scope w = .ok (l, w')) :
    Γ.Sound w' S ∧ l.id < w'.draft.marks.size ∧ w.draft.marks.size ≤ w'.draft.marks.size ∧
      w'.draft.code = w.draft.code ∧ ∀ {ids : List Nat}, Open w ids → Open w' (l.id :: ids) := by
  obtain ⟨⟨_, _⟩, hb, he⟩ := map_eq_ok.mp hd
  have built := fun hdyn => (h.built hdyn).defineLabel hdyn rfl hb
  cases he
  obtain ⟨rfl, hw⟩ := Lower.defineLabel_ok hd
  cases hw
  refine ⟨⟨h.reads, h.names, h.locals, h.typed.defineLabel, built, h.counted⟩, by simp, by simp, rfl,
      fun ho id hid hn => ?_⟩
  simp only [List.mem_cons, not_or] at hn
  simp only [Array.size_push] at hid
  obtain ⟨p, hp⟩ := ho id (by omega) hn.2
  refine ⟨p, ?_⟩
  show (w.draft.marks.push none)[id]? = some (some p)
  rw [Array.getElem?_push, if_neg hn.1]
  exact hp

theorem markLabel_sound (h : Γ.Sound w []) {l : Label} (hm : Lower.markLabel l Γ.scope w = .ok (u, w')) :
    Γ.Sound w' [] ∧ w'.draft.marks.size = w.draft.marks.size ∧ w'.draft.code = w.draft.code ∧
      ∀ {ids : List Nat}, Open w (l.id :: ids) → Open w' ids := by
  obtain ⟨_, hb, he⟩ := map_eq_ok.mp hm
  have built := fun hdyn => (h.built hdyn).mark hdyn rfl hb
  cases he
  obtain ⟨-, hw⟩ := Lower.markLabel_ok hm
  cases hw
  refine ⟨⟨h.reads, h.names, h.locals, h.typed.mark l.id, built, h.counted⟩, by simp, rfl, fun ho id hid hn => ?_⟩
  simp only [Array.size_setIfInBounds] at hid
  show ∃ p, (w.draft.marks.setIfInBounds l.id (some w.draft.code.size))[id]? = some (some p)
  rw [Array.getElem?_setIfInBounds]
  by_cases he : l.id = id
  · rw [if_pos he, if_pos (he ▸ hid)]
    exact ⟨_, rfl⟩
  · rw [if_neg he]
    exact ho id hid (by simp [hn, Ne.symm he])

/-! ### Simple statements -/

theorem baseCall_runs (hi : Γ.scope.isStatic = false) (h : Γ.Sound w [])
    (hb : Lower.baseCall Γ.scope w = .ok (u, w')) : Γ.Runs w w' := by
  simp only [Lower.baseCall, Lower.bind_ok, Lower.symbols_ok, Lower.read_ok, Lower.ofExcept_ok] at hb
  obtain ⟨_, _, ⟨rfl, rfl⟩, _, _, ⟨rfl, rfl⟩, c, _, ⟨hc, rfl⟩, _, w₁, h1, h2⟩ := hb
  obtain ⟨hmem, hsame⟩ := Symbols.findConstructor_mem hc
  rw [h.reads.grown.ctorsOf] at hmem
  obtain ⟨k1, h⟩ := h.loadThis hi h1
  obtain ⟨k2, h⟩ := h.emit h2 fun _ => .callBase hi hmem (List.length_eq_zero_iff.mp (Ty.sameList_length hsame))
  exact .of_kept h (k1.trans k2)

/-- A return is recorded, and nothing else but counts of values. -/
def Returned (w w' : Work) : Prop :=
  ∃ n k, w' = { w with draft := { w.draft.push { op := .ret } with depth := n, peak := k } }

theorem Returned.code (h : Returned w w') : w'.draft.code = w.draft.code.push { op := .ret } := by
  obtain ⟨n, k, rfl⟩ := h
  rfl

theorem Returned.kept (h : Returned w w') : w.Kept w' := by
  obtain ⟨n, k, rfl⟩ := h
  exact ⟨rfl, rfl, fun hn => hn, by simp [Draft.push]⟩

theorem emitRet_returned (he : Lower.emit (.plain .ret) Γ.scope w = .ok (u, w')) : Returned w w' := by
  obtain ⟨i, n, k, hi, rfl⟩ := Lower.emit_eq he
  simp only [Emission.encode, Opcode.isBranch, Bool.false_eq_true, and_false, if_false] at hi
  obtain ⟨_, -, hi⟩ := bind_eq_ok.mp hi
  cases hi
  exact ⟨n, k, rfl⟩

/-- A return takes its value off the stack and ends the code so far. -/
theorem returnStmt_runs (hΓ : Γ.Ok) {e : Expr} (hn : ∀ n ∈ e.typeNames, Γ.Named n) (h : Γ.Sound w [])
    (hr : Lower.returnStmt e Γ.scope w = .ok (u, w')) :
    ∃ w₁, w.Kept w₁ ∧ (∃ S, Γ.Sound w₁ S) ∧ Γ.Sound w' [] ∧ Returned w₁ w' := by
  simp only [Lower.returnStmt, Lower.bind_ok, Lower.read_ok, Lower.ite_ok, Lower.fail_ok, and_false, or_false,
    false_or] at hr
  obtain ⟨_, _, ⟨rfl, rfl⟩, ⟨-, hv, he⟩ | ⟨-, hv, o, w₁, hval, _, w₂, hexp, he⟩⟩ := hr
  · exact ⟨w, .refl _, ⟨[], h⟩, (h.emit he fun _ => .leave hv).2, emitRet_returned he⟩
  · obtain ⟨hk, -, hs⟩ := value_pushes hΓ hn (fun t ht => by cases ht; exact hΓ.ret) h hval
    obtain ⟨hvoid, hacc, rfl⟩ := Lower.expect_ok hexp
    have h := hs hvoid
    exact ⟨w₁, hk, ⟨_, h⟩, (h.emit he fun _ => .return (by simpa using hv) hacc).2, emitRet_returned he⟩

theorem declaredType_sound {name type : Text} {o : Option Ty} (hn : type.isEmpty = false → Γ.Named type) (h : Γ.Sound w S)
    (hd : Lower.declaredType name type Γ.scope w = .ok (o, w')) :
    w.Kept w' ∧ Γ.Sound w' S ∧ ∀ t, o = some t → Γ.Holds t := by
  simp only [Lower.declaredType, Lower.ite_ok, Lower.bind_ok, Lower.pure_ok, Lower.fail_ok, and_false, false_or] at hd
  rcases hd with ⟨-, rfl, rfl⟩ | ⟨hne, t, w₁, hl, hv, rfl, rfl⟩
  · exact ⟨.refl _, h, fun t ht => (by cases ht)⟩
  · obtain ⟨ht, hk, h⟩ := h.lookupType (hn (by simpa using hne)) hl
    exact ⟨hk, h, fun u hu => by cases hu; exact ⟨ht, by simpa using hv⟩⟩

/-- The type of a local is a location's, and takes the initial value. -/
theorem initializedType_holds {name : Text} {declared initial : Option Ty} {c : Scope}
    (hd : ∀ t, declared = some t → Γ.Holds t) (hi : ∀ t, initial = some t → Γ.Admits t)
    (ht : Lower.initializedType name declared initial c w = .ok (t, w')) :
    w' = w ∧ Γ.Holds t ∧ Ty.isVoidOpt initial = false ∧ Ty.accepts (some t) initial = true := by
  cases declared with
  | some x =>
    simp only [Lower.initializedType, Lower.bind_ok, Lower.pure_ok] at ht
    obtain ⟨_, w₁, he, rfl, rfl⟩ := ht
    obtain ⟨hv, ha, rfl⟩ := Lower.expect_ok he
    exact ⟨rfl, hd x rfl, hv, ha⟩
  | none =>
    cases initial with
    | none => cases ht
    | some x =>
      simp only [Lower.initializedType, Lower.ite_ok, Lower.pure_ok, Lower.fail_ok, and_false, false_or] at ht
      obtain ⟨hv, rfl, rfl⟩ := ht
      have hv : x.isVoid = false := by simpa using hv
      exact ⟨rfl, ⟨hi x rfl, hv⟩, hv, by simp [Ty.accepts, Ty.same]⟩

theorem localStmt_runs (hΓ : Γ.Ok) {name type : Text} {init : Expr} (ht : type.isEmpty = false → Γ.Named type)
    (hn : ∀ n ∈ init.typeNames, Γ.Named n) (h : Γ.Sound w [])
    (hl : Lower.localStmt name type init Γ.scope w = .ok (u, w')) : Γ.Runs w w' := by
  simp only [Lower.localStmt, Lower.bind_ok, Lower.read_ok, Lower.local?_ok, Lower.ite_ok, Lower.fail_ok, and_false,
    false_or] at hl
  obtain ⟨_, _, ⟨rfl, rfl⟩, _, _, ⟨rfl, rfl⟩, -, o, w₁, hd, hl⟩ := hl
  obtain ⟨k1, h, hT⟩ := declaredType_sound ht h hd
  rcases hl with ⟨-, hl⟩ | ⟨-, initial, w₂, hv, t, w₃, hit, l, w₄, hloc, he⟩
  · cases o with
    | none => cases hl
    | some t =>
      simp only [Lower.bind_ok, Lower.pure_ok] at hl
      obtain ⟨l, w₂, hloc, -, rfl⟩ := hl
      obtain ⟨-, -, h, hm, -, -, -⟩ := h.declareLocal (hT t rfl) hloc
      exact .of_marks h (hm.trans k1.marks) (k1.grows.trans (Lower.declareLocal_grows hloc))
  · obtain ⟨k2, hadm, hs⟩ := value_pushes hΓ hn (fun t ht => (hT t ht).admits) h hv
    obtain ⟨rfl, hH, hvoid, hacc⟩ := initializedType_holds hT hadm hit
    obtain ⟨hidx, rfl, h, hm, -, -, -⟩ := (hs hvoid).declareLocal hH hloc
    obtain ⟨k3, h⟩ := h.emit he fun hi => .setLoc (Emission.local_le hi) hidx hacc
    exact .of_marks h (k3.marks.trans (hm.trans (k2.marks.trans k1.marks)))
      ((k1.trans k2).grows.trans ((Lower.declareLocal_grows hloc).trans k3.grows))

theorem assignStmt_runs (hΓ : Γ.Ok) {target e : Expr} (ht : ∀ n ∈ target.typeNames, Γ.Named n)
    (hn : ∀ n ∈ e.typeNames, Γ.Named n) (h : Γ.Sound w []) (ha : Lower.assignStmt target e Γ.scope w = .ok (u, w')) :
    Γ.Runs w w' := by
  simp only [Lower.assignStmt, Lower.bind_ok] at ha
  obtain ⟨⟨p, o⟩, w₁, hp, v, w₂, hv, _, w₃, hexp, hs⟩ := ha
  obtain ⟨k1, hadm, s, hplaced, h⟩ := place_sound hΓ ht h hp
  obtain ⟨k2, -, hval⟩ := value_pushes hΓ hn hadm h hv
  obtain ⟨hvoid, hacc, rfl⟩ := Lower.expect_ok hexp
  obtain ⟨k3, h⟩ := store_sound (hplaced.kept k2) hacc (hval hvoid) hs
  exact .of_kept h ((k1.trans k2).trans k3)

theorem exprStmt_runs (hΓ : Γ.Ok) {e : Expr} (hn : ∀ n ∈ e.typeNames, Γ.Named n) (h : Γ.Sound w [])
    (he : Lower.exprStmt e Γ.scope w = .ok (u, w')) : Γ.Runs w w' := by
  simp only [Lower.exprStmt, Lower.bind_ok, Lower.ite_ok, Lower.pure_ok, Lower.fail_ok, and_false, or_false] at he
  obtain ⟨p, w₁, hp, hv, -, rfl⟩ := he
  have hP := expr_pushes hΓ e hn (no_hint Γ) h hp
  exact .of_kept (hP.void hv (.inl ⟨rfl, rfl⟩)) hP.kept

theorem condition_sound (hΓ : Γ.Ok) {e : Expr} (hn : ∀ n ∈ e.typeNames, Γ.Named n) (h : Γ.Sound w [])
    (hc : Lower.condition e Γ.scope w = .ok (u, w')) :
    w.Kept w' ∧ ∃ t, t.name = TypeName.boolean ∧ Γ.Sound w' [.value (some t)] := by
  simp only [Lower.condition, Lower.bind_ok, Lower.read_ok, Lower.ite_ok, Lower.pure_ok, Lower.fail_ok, and_false,
    or_false] at hc
  obtain ⟨_, _, ⟨rfl, rfl⟩, o, w₁, hv, hs, -, rfl⟩ := hc
  obtain ⟨hk, -, h⟩ := value_pushes hΓ hn (fun t ht => by cases ht; exact hΓ.roles.2.1) h hv
  obtain ⟨x, rfl, hx⟩ := same_name hs
  have hname := hx.trans hΓ.boolean
  exact ⟨hk, x, hname, h (notVoid_of_name hname (by decide))⟩

/-! ### Loops and choices -/

theorem whileLoop_runs (hΓ : Γ.Ok) {cond : Expr} {body : Lower Unit} (hn : ∀ n ∈ cond.typeNames, Γ.Named n)
    (hb : ∀ {w w' u}, Γ.Sound w [] → body Γ.scope w = .ok (u, w') → Γ.Runs w w')
    (h : Γ.Sound w []) (hw : Lower.whileLoop cond body Γ.scope w = .ok (u, w')) :
    Γ.Runs w w' := by
  simp only [Lower.whileLoop, Lower.bind_ok] at hw
  obtain ⟨start, w₁, h1, test, w₂, h2, _, w₃, h3, _, w₄, h4, _, w₅, h5, _, w₆, h6, _, w₇, h7, h8⟩ := hw
  obtain ⟨s1, hstart, z1, -, o1⟩ := defineLabel_sound h h1
  obtain ⟨s2, htest, z2, -, o2⟩ := defineLabel_sound s1 h2
  obtain ⟨k3, s3⟩ := s2.emit h3 fun _ => .jump htest
  obtain ⟨s4, z4, -, o4⟩ := markLabel_sound s3 h4
  have r5 := hb s4 h5
  have z5 := r5.labels
  obtain ⟨s6, z6, -, o6⟩ := markLabel_sound r5.sound h6
  obtain ⟨k7, t, ht, s7⟩ := condition_sound hΓ hn s6 h7
  have z7 := congrArg Array.size k7.marks
  have z3 := congrArg Array.size k3.marks
  obtain ⟨k8, s8⟩ := s7.emit h8 fun _ => .test (by decide) (by omega) ht
  have z8 := congrArg Array.size k8.marks
  have grows := ((((Lower.defineLabel_grows h1).trans (Lower.defineLabel_grows h2)).trans k3.grows).trans
    ((Lower.markLabel_grows h4).trans r5.grows)).trans
      ((Lower.markLabel_grows h6).trans (k7.trans k8).grows)
  refine ⟨s8, by omega, grows, fun {ids} ho => ?_⟩
  -- The two labels are open in turn, the one at the start first.
  have swapped : Open w₃ (start.id :: test.id :: ids) := fun id hid hn =>
    ((o2 (o1 ho)).kept k3.marks) id hid fun hmem => hn (by
      simp only [List.mem_cons] at hmem ⊢
      tauto)
  exact ((o6 (r5.marked (o4 swapped))).kept k7.marks).kept k8.marks

theorem choice_runs (hΓ : Γ.Ok) {cond : Expr} {yes no : Lower Unit} (hn : ∀ n ∈ cond.typeNames, Γ.Named n)
    (hy : ∀ {w w' u}, Γ.Sound w [] → yes Γ.scope w = .ok (u, w') → Γ.Runs w w')
    (hno : ∀ {w w' u}, Γ.Sound w [] → no Γ.scope w = .ok (u, w') → Γ.Runs w w')
    (h : Γ.Sound w []) (hw : Lower.choice cond yes no Γ.scope w = .ok (u, w')) :
    Γ.Runs w w' := by
  simp only [Lower.choice, Lower.bind_ok] at hw
  obtain ⟨other, w₁, h1, done, w₂, h2, _, w₃, h3, _, w₄, h4, _, w₅, h5, _, w₆, h6, _, w₇, h7, _, w₈, h8, h9⟩ := hw
  obtain ⟨s1, hother, z1, -, o1⟩ := defineLabel_sound h h1
  obtain ⟨s2, hdone, z2, -, o2⟩ := defineLabel_sound s1 h2
  obtain ⟨k3, t, ht, s3⟩ := condition_sound hΓ hn s2 h3
  have z3 := congrArg Array.size k3.marks
  obtain ⟨k4, s4⟩ := s3.emit h4 fun _ => .test (by decide) (by omega) ht
  have z4 := congrArg Array.size k4.marks
  have r5 := hy s4 h5
  have z5 := r5.labels
  obtain ⟨k6, s6⟩ := r5.sound.emit h6 fun _ => .jump (by omega)
  have z6 := congrArg Array.size k6.marks
  obtain ⟨s7, z7, -, o7⟩ := markLabel_sound s6 h7
  have r8 := hno s7 h8
  have z8 := r8.labels
  obtain ⟨s9, z9, -, o9⟩ := markLabel_sound r8.sound h9
  have grows := (((Lower.defineLabel_grows h1).trans (Lower.defineLabel_grows h2)).trans (k3.trans k4).grows).trans
    (((r5.grows.trans k6.grows).trans (Lower.markLabel_grows h7)).trans
      (r8.grows.trans (Lower.markLabel_grows h9)))
  refine ⟨s9, by omega, grows, fun {ids} ho => ?_⟩
  have swapped : Open w₆ (other.id :: done.id :: ids) := fun id hid hn =>
    ((r5.marked (((o2 (o1 ho)).kept k3.marks).kept k4.marks)).kept k6.marks) id hid fun hmem => hn (by
      simp only [List.mem_cons] at hmem ⊢
      tauto)
  exact o9 (r8.marked (o7 swapped))

mutual

/-- Lowering a statement keeps work sound, with nothing on the stack before and behind it. -/
theorem stmt_runs (hΓ : Γ.Ok) {w w' : Work} {u : Unit} : ∀ s : Stmt, (∀ n ∈ s.typeNames, Γ.Named n) → Γ.Sound w [] →
    Lower.stmt s Γ.scope w = .ok (u, w') → Γ.Runs w w'
  | .return e, hn, h, hs => by
    rw [Lower.stmt] at hs
    obtain ⟨w₁, hk, -, h, hret⟩ := returnStmt_runs hΓ (fun n h => hn n (by rw [Stmt.typeNames]; exact h)) h hs
    exact .of_kept h (hk.trans hret.kept)
  | .local name type init, hn, h, hs => by
    rw [Lower.stmt] at hs
    simp only [Stmt.typeNames, List.mem_append] at hn
    exact localStmt_runs hΓ (fun ht => hn type (.inl (by simp [ht]))) (fun n h => hn n (.inr h)) h hs
  | .assign target e, hn, h, hs => by
    rw [Lower.stmt] at hs
    simp only [Stmt.typeNames, List.mem_append] at hn
    exact assignStmt_runs hΓ (fun n h => hn n (.inl h)) (fun n h => hn n (.inr h)) h hs
  | .expr e, hn, h, hs => by
    rw [Lower.stmt] at hs
    exact exprStmt_runs hΓ (fun n h => hn n (by rw [Stmt.typeNames]; exact h)) h hs
  | .baseCall, _, h, hs => by
    simp only [Lower.stmt, Lower.bind_ok, Lower.read_ok, Lower.ite_ok, Lower.fail_ok, and_false, or_false] at hs
    obtain ⟨_, _, ⟨rfl, rfl⟩, hc, hs⟩ := hs
    exact baseCall_runs (hΓ.ctor hc) h hs
  | .while cond body, hn, h, hs => by
    rw [Lower.stmt] at hs
    simp only [Stmt.typeNames, List.mem_append] at hn
    exact whileLoop_runs hΓ (fun n h => hn n (.inl h)) (fun h hb => block_runs hΓ body (fun n h => hn n (.inr h)) h hb) h hs
  | .if cond yes no, hn, h, hs => by
    rw [Lower.stmt] at hs
    simp only [Stmt.typeNames, List.mem_append] at hn
    exact choice_runs hΓ (fun n h => hn n (.inl h)) (fun h hb => block_runs hΓ yes (fun n h => hn n (.inr (.inl h))) h hb)
      (fun h hb => block_runs hΓ no (fun n h => hn n (.inr (.inr h))) h hb) h hs

theorem block_runs (hΓ : Γ.Ok) {w w' : Work} {u : Unit} : ∀ ss : List Stmt, (∀ n ∈ Stmt.typeNamesAll ss, Γ.Named n) →
    Γ.Sound w [] → Lower.block ss Γ.scope w = .ok (u, w') → Γ.Runs w w'
  | [], _, h, hs => by
    simp only [Lower.block, Lower.pure_ok] at hs
    obtain ⟨-, rfl⟩ := hs
    exact .of_marks h rfl (.refl _)
  | s :: ss, hn, h, hs => by
    simp only [Lower.block, Lower.bind_ok] at hs
    obtain ⟨_, w₁, h1, h2⟩ := hs
    simp only [Stmt.typeNamesAll, List.mem_append] at hn
    have r1 := stmt_runs hΓ s (fun n h => hn n (.inl h)) h h1
    exact r1.trans (block_runs hΓ ss (fun n h => hn n (.inr h)) r1.sound h2)

end

/-! ### Bodies -/

/-- A body with a return behind all of its labels, all of which are marked. -/
structure Complete (Γ : Setting) (d : Draft) : Prop where
  typed : Γ.Typed d []
  built : Γ.scope.site.backend = .dynamic → d.Built Γ.scope.site.method
  locals : ∀ {n : Nat} {t : Ty}, d.locals[n]? = some t → Γ.Holds t
  labels : ∀ id, id < d.marks.size → ∃ p, d.marks[id]? = some (some p) ∧ p < d.code.size
  last : ∃ code : Array Instr, d.code = code.push { op := .ret }

theorem complete_of_return (h : Γ.Sound w S) (ho : Open w []) (h' : Γ.Sound w' [])
    (hret : Returned w w') : Γ.Complete w'.draft := by
  refine ⟨h'.typed, h'.built, h'.locals, fun id hid => ?_, w.draft.code, hret.code⟩
  rw [hret.kept.marks] at hid ⊢
  obtain ⟨p, hp⟩ := ho id hid (by simp)
  have := h.typed.mark_le hp
  exact ⟨p, hp, by rw [hret.code, Array.size_push]; omega⟩

theorem emitRet_complete (hΓ : Γ.Ok) (hv : Γ.scope.ret.isVoid = true) (h : Γ.Sound w []) (ho : Open w [])
    (he : Lower.emit (.plain .ret) Γ.scope w = .ok (u, w')) : Γ.Complete w'.draft := by
  have hr : Lower.returnStmt .missing Γ.scope w = .ok (u, w') := by
    simp only [Lower.returnStmt, Lower.bind_ok, Lower.read_ok, Lower.ite_ok]
    exact ⟨_, _, ⟨rfl, rfl⟩, .inl ⟨rfl, .inl ⟨hv, he⟩⟩⟩
  obtain ⟨w₁, hk, ⟨S, h1⟩, h2, hw⟩ := returnStmt_runs hΓ (fun n hn => by simp [Expr.typeNames] at hn) h hr
  exact complete_of_return h1 (ho.kept hk.marks) h2 hw

/-- Statements that end in a return make a body. -/
theorem block_complete (hΓ : Γ.Ok) {ss : List Stmt} (hn : ∀ n ∈ Stmt.typeNamesAll ss, Γ.Named n) (h : Γ.Sound w [])
    (ho : Open w []) (hr : Lower.endsInReturn ss = true) (hs : Lower.block ss Γ.scope w = .ok (u, w')) :
    Γ.Complete w'.draft := by
  induction ss generalizing w with
  | nil => cases hr
  | cons s ss ih =>
    simp only [Lower.block, Lower.bind_ok] at hs
    obtain ⟨_, w₁, h1, h2⟩ := hs
    simp only [Stmt.typeNamesAll, List.mem_append] at hn
    cases ss with
    | nil =>
      simp only [Lower.block, Lower.pure_ok] at h2
      obtain ⟨-, rfl⟩ := h2
      cases s with
      | «return» e =>
        rw [Lower.stmt] at h1
        obtain ⟨w₂, hk, ⟨S, h2⟩, h3, hw⟩ :=
          returnStmt_runs hΓ (fun n h => hn n (.inl (by rw [Stmt.typeNames]; exact h))) h h1
        exact complete_of_return h2 (ho.kept hk.marks) h3 hw
      | _ => cases hr
    | cons s' ss =>
      have r1 := stmt_runs hΓ s (fun n h => hn n (.inl h)) h h1
      exact ih (fun n h => hn n (.inr h)) r1.sound (r1.marked ho) (by simpa [Lower.endsInReturn] using hr) h2

/-- Statements make a body, once a return is added where it is asked for. -/
theorem statements_complete (hΓ : Γ.Ok) {ss : List Stmt} {addReturn : Bool} (hn : ∀ n ∈ Stmt.typeNamesAll ss, Γ.Named n)
    (h : Γ.Sound w []) (ho : Open w []) (hs : Lower.statements ss Γ.scope w = .ok (addReturn, w')) :
    Γ.Reads w'.symbols ∧ (addReturn = false → Γ.Complete w'.draft) ∧
      (addReturn = true → ∀ {w'' u}, Lower.emit (.plain .ret) Γ.scope w' = .ok (u, w'') → Γ.Complete w''.draft) := by
  simp only [Lower.statements, Lower.bind_ok, Lower.read_ok, Lower.ite_ok, Lower.pure_ok, Lower.fail_ok, and_false,
    or_false] at hs
  obtain ⟨_, w₁, hb, _, _, ⟨rfl, rfl⟩, hs⟩ := hs
  have r := block_runs hΓ ss hn h hb
  rcases hs with ⟨hr, rfl, rfl⟩ | ⟨-, hv, rfl, rfl⟩
  · exact ⟨r.sound.reads, fun _ => block_complete hΓ hn h ho hr hb, fun hf => (by cases hf)⟩
  · exact ⟨r.sound.reads, fun hf => (by cases hf), fun _ {_ _} he => emitRet_complete hΓ hv r.sound (r.marked ho) he⟩

theorem initField_runs (hΓ : Γ.Ok) {f : Field} {init : Expr} (hi : Γ.scope.isStatic = false)
    (hf : Γ.FieldOn Γ.scope.owner f) (hst : f.isStatic = false) (hn : ∀ n ∈ init.typeNames, Γ.Named n) (h : Γ.Sound w [])
    (he : Lower.initField f init Γ.scope w = .ok (u, w')) : Γ.Runs w w' := by
  simp only [Lower.initField, Lower.bind_ok] at he
  obtain ⟨_, w₁, h1, o, w₂, h2, _, w₃, h3, h4⟩ := he
  obtain ⟨r, hr, hR⟩ := hf.type hΓ
  obtain ⟨k1, h⟩ := h.loadThis hi h1
  obtain ⟨k2, -, hv⟩ := value_pushes hΓ hn (fun t ht => by cases hr.symm.trans ht; exact hR.admits) h h2
  obtain ⟨hvoid, hacc, rfl⟩ := Lower.expect_ok h3
  obtain ⟨k4, h⟩ := (hv hvoid).emit h4 fun _ => .setField hst hf hacc
  exact .of_kept h ((k1.trans k2).trans k4)

/-- The initial values of fields that a constructor stores. -/
theorem initFields_runs (hΓ : Γ.Ok) {inits : List (Field × Expr)} (hi : Γ.scope.isStatic = false)
    (hf : ∀ x ∈ inits, Γ.FieldOn Γ.scope.owner x.1 ∧ x.1.isStatic = false ∧ ∀ n ∈ x.2.typeNames, Γ.Named n)
    (h : Γ.Sound w [])
    (he : (forIn inits PUnit.unit fun x _ => do
        Lower.initField x.1 x.2
        pure (ForInStep.yield PUnit.unit) : Lower PUnit) Γ.scope w = .ok (u, w')) : Γ.Runs w w' := by
  induction inits generalizing w with
  | nil =>
    simp only [List.forIn_nil, Lower.pure_ok] at he
    obtain ⟨-, rfl⟩ := he
    exact .of_marks h rfl (.refl _)
  | cons x inits ih =>
    simp only [List.forIn_cons, Lower.bind_ok, Lower.pure_ok] at he
    obtain ⟨_, _, ⟨_, w₁, h1, rfl, rfl⟩, h2⟩ := he
    obtain ⟨hfx, hst, hn⟩ := hf x List.mem_cons_self
    have r1 := initField_runs hΓ hi hfx hst hn h h1
    exact r1.trans (ih (fun y hy => hf y (List.mem_cons_of_mem _ hy)) r1.sound h2)

theorem constructor_complete (hΓ : Γ.Ok) {inits : List (Field × Expr)} {ss : List Stmt} {addReturn : Bool}
    (hi : Γ.scope.isStatic = false)
    (hf : ∀ x ∈ inits, Γ.FieldOn Γ.scope.owner x.1 ∧ x.1.isStatic = false ∧ ∀ n ∈ x.2.typeNames, Γ.Named n)
    (hn : ∀ n ∈ Stmt.typeNamesAll ss, Γ.Named n) (h : Γ.Sound w []) (ho : Open w [])
    (hc : Lower.constructor inits ss Γ.scope w = .ok (addReturn, w')) :
    Γ.Reads w'.symbols ∧ (addReturn = false → Γ.Complete w'.draft) ∧
      (addReturn = true → ∀ {w'' u}, Lower.emit (.plain .ret) Γ.scope w' = .ok (u, w'') → Γ.Complete w''.draft) := by
  simp only [Lower.constructor, Lower.bind_ok] at hc
  obtain ⟨_, w₁, h1, _, w₂, h2, h3⟩ := hc
  have r1 := baseCall_runs hi h h1
  have r2 := initFields_runs hΓ hi hf r1.sound h2
  refine statements_complete hΓ (fun n hmem => ?_) r2.sound (r2.marked (r1.marked ho)) h3
  split at hmem
  · exact hn n (by rw [Stmt.typeNamesAll]; exact List.mem_append_right _ hmem)
  · exact hn n hmem

end Setting
end CilCompiler
