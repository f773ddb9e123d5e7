import CilCompiler.Proofs.Compilation.Passes
import CilCompiler.Proofs.Typed.Parts

/-!
Generated code is balanced. In a program that names no array of void, every body that the passes leave can be
finished: the stack is empty at the start of every statement, every expression leaves one value more, or none where
it is void, every branch goes to a place inside, and control does not run off the end.
-/

namespace CilCompiler

/-- Whether a type is an array whose innermost elements are void. -/
def Ty.isVoidArray : Ty → Bool
  | .array e => e.isVoid || e.isVoidArray
  | _ => false

theorem Ty.of_not_voidArray {e : Ty} (h : (Ty.array e).isVoidArray = false) : e.isVoid = false ∧ e.isVoidArray = false := by
  simpa [Ty.isVoidArray] using h

/-! ### What names stand for -/

namespace Symbols
variable {s s₁ : Symbols} {n e : Text} {t u : Ty}

/-- A name that stands for no array of void does not do so when array types have been added. -/
theorem names_of_lookup (h : ∀ t s', s.lookup n = .ok (t, s') → t.isVoidArray = false) :
    s.Names (fun t => t.isVoidArray = false) n := by
  induction n using elem?_induction with
  | h n ih =>
    intro s₁ s₂ t hg ha hl
    rcases lookup_cases hl with ⟨he, rfl⟩ | ⟨hn, e, u, s₃, he, hu, rfl, rfl⟩
    · exact ⟨ha he, ha⟩
    · have hfree : s.entered? n = none := by
        cases hx : s.entered? n with
        | none => rfl
        | some x =>
          rw [hg.entered? hx] at hn
          cases hn
      have inner : ∀ v s', s.lookup e = .ok (v, s') → v.isVoid = false ∧ v.isVoidArray = false := by
        intro v s' hv
        obtain ⟨s₄, h4⟩ := lookup_of_elem hfree he hv
        have := h _ _ h4
        simpa [Ty.isVoidArray] using this
      obtain ⟨hu', ha'⟩ := ih e he (fun v s' hv => (inner v s' hv).2) s₁ s₃ u hg ha hu
      -- What the element's name stands for was there before, or is an array.
      have hvoid : u.isVoid = false := by
        rcases lookup_cases hu with ⟨hent, -⟩ | ⟨-, _, v, _, -, -, rfl, -⟩
        · rcases hg.added hent with hold | harr
          · have hent : s.entered? e = some u := by
              rw [entered?, ← hg.aliases]
              exact hold
            exact (inner u s (lookup_of_entered hent)).1
          · cases u with
            | array v => exact Ty.isVoid_array v
            | root d => cases harr
            | derived d b => cases harr
        · exact Ty.isVoid_array v
      have harray : (Ty.array u).isVoidArray = false := by simp [Ty.isVoidArray, hvoid, hu']
      refine ⟨harray, fun {k t} hk => ?_⟩
      have hk : (s₃.types.put _ _).get? k = some t := hk
      rw [Table.get?_put] at hk
      split at hk
      · cases hk
        exact harray
      · exact ha' hk

end Symbols

namespace Compilation

/-- The type that a name stands for in a program, once the program's types are laid out. -/
def typeNamed? (p : Program) (c : Compilation) (n : Text) : Option Ty :=
  match laidOut p c with
  | .ok c =>
    match c.symbols.lookup n with
    | .ok (t, _) => some t
    | .error _ => none
  | .error _ => none

/-- Names that stand for no array of void go on to do so. -/
theorem names_of_typeNamed {p : Program} {c c₀ : Compilation} (hlaid : laidOut p c = .ok c₀)
    (h : ∀ n ∈ p.typeNames, ∀ t, typeNamed? p c n = some t → t.isVoidArray = false) :
    ∀ n ∈ p.typeNames, c₀.symbols.Names (fun t => t.isVoidArray = false) n := by
  intro n hmem
  refine Symbols.names_of_lookup fun t s' hl => h n hmem t ?_
  simp only [typeNamed?, hlaid, hl]

/-- No definition is that of an array. -/
theorem Laid.not_voidArray {c : Compilation} {sources : List Declaration} (h : c.Laid sources) {i : Nat} {e : TypeDef}
    (he : c.module.types[i]? = some e) : e.type.isVoidArray = false := by
  have hplain := (h.coherent.shaped he).notArray
  cases ht : e.type with
  | array u =>
    rw [ht] at hplain
    cases hplain
  | root d => rfl
  | derived d b => rfl

/-! ### Bodies -/

/-- What stands before the statements of a member's body, which it gives. -/
def bodyStart (d : DeclaredType) (x : Member) : Lower (List Stmt) := do
  if x.method.isCtor then
    Lower.baseCall
    for (f, init) in d.inits do Lower.initField f init
    return match x.body with
      | .baseCall :: rest => rest
      | body => body
  else return x.body

/-- Lowering a member's body comes to a statement. -/
def Visits (c : Scope) (d : DeclaredType) (x : Member) (w : Work) (t : Stmt) (w' : Work) : Prop :=
  ∃ ss w₁, bodyStart d x c w = .ok (ss, w₁) ∧ Lower.Reaches c ss w₁ t w'

/-- Lowering a member's body comes to an expression. -/
inductive Comes (c : Scope) (d : DeclaredType) (x : Member) (w : Work) : Lower.Point → Prop
  | initial {w₁ y} : x.method.isCtor = true → Lower.baseCall c w = .ok ((), w₁) → Lower.Initializes c d.inits w₁ y →
      Comes c d x w y
  | held {t w' y} : Visits c d x w t w' → Lower.Holds c t w' y → Comes c d x w y
  | part {y z} : Comes c d x w y → Lower.Part c y z → Comes c d x w z

/-- What a method returns in its first statement is lowered first. -/
theorem Comes.returned {c : Scope} {d : DeclaredType} {x : Member} {w : Work} {e : Expr} {rest : List Stmt}
    (hctor : x.method.isCtor = false) (hbody : x.body = .return e :: rest) (he : e.isMissing = false) :
    Comes c d x w ⟨e, some c.ret, false, w⟩ := by
  have start : bodyStart d x c w = .ok (x.body, w) := by
    rw [bodyStart, hctor]
    rfl
  exact .held ⟨x.body, w, start, hbody ▸ .here⟩ (.returned he)

/-- A body whose lowering started from `w` is balanced. -/
structure Balanced (c : Scope) (d : DeclaredType) (x : Member) (w : Work) (D : Draft) : Prop where
  /-- The stack is empty at the start of every statement. -/
  statements : ∀ {t : Stmt} {w' : Work}, Visits c d x w t w' →
    w'.draft.code.toList <+: D.code.toList ∧ depthAt (some c.ret) D.code w'.draft.code.size = 0
  /-- Every expression leaves one value more, or none where it is void. -/
  expressions : ∀ {y : Lower.Point}, Comes c d x w y → ∃ p w', y.run c = .ok (p, w') ∧
    y.work.draft.code.toList <+: w'.draft.code.toList ∧ w'.draft.code.toList <+: D.code.toList ∧
    depthAt (some c.ret) D.code w'.draft.code.size =
      depthAt (some c.ret) D.code y.work.draft.code.size + if Ty.isVoidOpt p.type then 0 else 1
  /-- Every label that a branch uses is marked inside. -/
  labels : ∀ {pc : Nat} {i : Instr}, D.code[pc]? = some i → i.op.isBranch = true →
    ∃ n, D.target? i = some n ∧ n < D.code.size
  /-- The depths agree along all paths, and no path runs off the end. -/
  depths : DepthAssignment (some c.ret) D.code D.target? (depthAt (some c.ret) D.code)

variable {P : Ty → Prop} {p : Program} {c₀ c : Compilation} {k : Nat} {d : DeclaredType} {x : Member}

theorem statements_block {body : List Stmt} {scope : Scope} {w w' : Work} {b : Bool}
    (h : Lower.statements body scope w = .ok (b, w')) : Lower.block body scope w = .ok ((), w') := by
  simp only [Lower.statements, Lower.bind_ok, Lower.read_ok, Lower.ite_ok, Lower.pure_ok, Lower.fail_ok, and_false,
    or_false] at h
  obtain ⟨_, w₁, hb, _, _, ⟨rfl, rfl⟩, ⟨-, -, rfl⟩ | ⟨-, -, -, rfl⟩⟩ := h
  · exact hb
  · exact hb

section Lowering
variable (h : Supplied P c d x)
include h

/-- Lowering a body comes to its statements with an empty stack. -/
theorem lowering_start {s : Symbols} (hs : c.symbols.Extends s) (ha : s.All P) {b : Bool} {w : Work}
    (hl : lowering d x (c.scopeOf x) { symbols := s } = .ok (b, w)) :
    (∃ ss w₁, bodyStart d x (c.scopeOf x) { symbols := s } = .ok (ss, w₁) ∧ (settingOf P c x).Sound w₁ [] ∧
      (∀ n ∈ Stmt.typeNamesAll ss, (settingOf P c x).Named n) ∧ Lower.block ss (c.scopeOf x) w₁ = .ok ((), w)) ∧
    (x.method.isCtor = true → ∀ {w₁ : Work} {y : Lower.Point},
      Lower.baseCall (c.scopeOf x) { symbols := s } = .ok ((), w₁) →
      Lower.Initializes (c.scopeOf x) d.inits w₁ y → (settingOf P c x).Within y w.draft.code) := by
  have sound : (settingOf P c x).Sound { symbols := s } [] := start_sound hs ha
  unfold lowering at hl
  split at hl
  · rename_i hc
    have hst := h.ok.ctor hc
    have hrest : ∀ n ∈ Stmt.typeNamesAll (match x.body with | .baseCall :: rest => rest | body => body),
        (settingOf P c x).Named n := by
      intro n hmem
      split at hmem
      · rename_i rest hb
        exact h.names n (by rw [hb, Stmt.typeNamesAll]; exact List.mem_append_right _ hmem)
      · exact h.names n hmem
    simp only [Lower.constructor, Lower.bind_ok] at hl
    obtain ⟨_, w₁, h1, _, w₂, h2, h3⟩ := hl
    have r1 := Setting.baseCall_runs hst sound h1
    have r2 := Setting.initFields_runs h.ok hst h.inits r1.sound h2
    have hblock := statements_block h3
    have r3 := Setting.block_runs h.ok _ hrest r2.sound hblock
    refine ⟨⟨_, w₂, ?_, r2.sound, hrest, hblock⟩, fun _ w₃ z h4 hz => ?_⟩
    · simp only [bodyStart, hc, Lower.ite_ok, Lower.bind_ok, Lower.pure_ok]
      exact .inl ⟨trivial, _, w₁, h1, _, w₂, h2, trivial, rfl⟩
    · cases h4.symm.trans h1
      exact (Setting.initializes_within h.ok hz hst h.inits r1.sound h2).trans r3.code
  · rename_i hc
    refine ⟨⟨x.body, _, ?_, sound, h.names, statements_block hl⟩, fun hctor => absurd hctor hc⟩
    simp only [bodyStart, Lower.ite_ok, Lower.pure_ok]
    exact .inr ⟨hc, trivial, trivial⟩

/-- Every statement and expression that lowering comes to was lowered in sound work, and the code it left is there. -/
theorem Lowered.within {D : Draft} (hl : Lowered P c d x D) :
    ∃ s, Emits (c.scopeOf x) d x { symbols := s } D ∧
      (∀ {t : Stmt} {w : Work}, Visits (c.scopeOf x) d x { symbols := s } t w → (settingOf P c x).Lowers t w D.code) ∧
      ∀ {y : Lower.Point}, Comes (c.scopeOf x) d x { symbols := s } y → (settingOf P c x).Within y D.code := by
  obtain ⟨s, hs, ha, hl⟩ := hl
  refine ⟨s, hl, ?_⟩
  obtain ⟨b, w, w', hl, hret, rfl⟩ := hl
  have hend : w.draft.code.toList <+: w'.draft.code.toList := by
    rcases hret with ⟨-, rfl⟩ | ⟨-, he⟩
    · exact List.prefix_refl _
    · exact (Lower.emit_kept he).code
  obtain ⟨⟨ss, w₁, hstart, hsound, hnames, hblock⟩, hinit⟩ := lowering_start h hs ha hl
  have visited : ∀ {t : Stmt} {w₂ : Work}, Visits (c.scopeOf x) d x { symbols := s } t w₂ →
      (settingOf P c x).Lowers t w₂ w'.draft.code := by
    rintro t w₂ ⟨ss', w₁', hstart', hr⟩
    cases hstart.symm.trans hstart'
    exact (Setting.reaches_lowers h.ok hr hnames hsound hblock).trans hend
  refine ⟨visited, fun {y} hy => ?_⟩
  induction hy with
  | initial hc hb hy => exact (hinit hc hb hy).trans hend
  | held ht hy =>
    obtain ⟨hn, hs, w₃, hdone, hcode⟩ := visited ht
    exact (Setting.holds_within h.ok hy hn hs hdone).trans hcode
  | part _ hz ih =>
    obtain ⟨hfits, q, w₃, hrun, hcode, -⟩ := ih
    exact (Setting.part_within h.ok hz hfits hrun).trans hcode

theorem Lowered.balanced (hv : ∀ {e : Ty}, P (.array e) → e.isVoid = false) {D : Draft} (hl : Lowered P c d x D) :
    ∃ s, Emits (c.scopeOf x) d x { symbols := s } D ∧ Balanced (c.scopeOf x) d x { symbols := s } D := by
  have hvoid : (settingOf P c x).Voidless := fun hP => hv hP
  have hcomplete := Lowered.complete h hl
  obtain ⟨s, hl, visited, within⟩ := Lowered.within h hl
  refine ⟨s, hl, fun {t w₂} ht => ?_, fun {y} hy => (within hy).depth h.ok hvoid, fun hi hb => hcomplete.target hi hb,
    hcomplete.assignment hvoid⟩
  obtain ⟨hn, hsound, w₃, hdone, hcode⟩ := visited ht
  have hstart := (Setting.stmt_runs h.ok t hn hsound hdone).code.trans hcode
  have hdepth := hsound.typed.depthBehind hvoid
  exact ⟨hstart, by rw [depthAt_of_start hstart]; exact hdepth⟩

end Lowering

theorem supportsBase_multicast : Module.supportsBase hostRoles.multicastDelegate = true := by decide +kernel

/-- The runtime implements what a declared type has besides the members of its class. -/
theorem Made.runtime_or_member {s : Symbols} {e : TypeDef} (hm : Made P s hostRoles d e) {y : Routine}
    (hy : y ∈ e.routines) :
    y.impl = .runtime ∨ ∃ x ∈ d.members, x.method = y.method ∧ x.method.ret = some x.ret := by
  cases hs : d.source with
  | delegate dd =>
    simp only [Made, hs] at hm
    obtain ⟨ctor, invoke, hc, hi, hcs, his, -⟩ := hm.routines
    rw [TypeDef.routines, hc, hi] at hy
    simp only [List.cons_append, List.nil_append, List.mem_cons, List.not_mem_nil, or_false] at hy
    rcases hy with rfl | rfl
    · exact .inl hcs.impl
    · exact .inl his.impl
  | «class» cd =>
    simp only [Made, hs] at hm
    obtain ⟨x, hx, hmethod⟩ :=
      List.mem_map.mp (hm.members ▸ List.mem_map_of_mem hy : y.method ∈ d.members.map Member.method)
    obtain ⟨m, -, hdecl⟩ := Described.forall₂_mem hm.declares hx
    exact .inr ⟨x, hx, hmethod, hdecl.result⟩

/-- The bodies of a type's members can be verified, so the type can be finished. -/
theorem Generated.finishable {f : Method → Draft} {c₁ : Compilation} (h : Described P p c₀ c)
    (helem : ∀ {e : Ty}, P (.array e) → P e)
    (hn : ∀ n ∈ p.typeNames, c₀.symbols.Names P n) (hv : ∀ {e : Ty}, P (.array e) → e.isVoid = false)
    (hg : Generated P c (pairs c.types) f c₁) (hd : c.types[k]? = some d) {e : TypeDef} (ht : d.source.TypedBy d.type)
    (hm : Made P c₀.symbols hostRoles d e) :
    (e.withDrafts f).Finishable := by
  refine ⟨fun {b} hb => ?_, fun y hy => ?_⟩
  · have hbase : e.type.base? = some b := hb
    rw [Made.type hm, ht.base] at hbase
    cases hs : d.source with
    | «class» cd =>
      rw [hs] at hbase
      cases hbase
    | delegate dd =>
      rw [hs] at hbase
      cases hbase
      exact supportsBase_multicast
  · rw [TypeDef.routines_withDrafts] at hy
    obtain ⟨z, hz, rfl⟩ := List.mem_map.mp hy
    rcases Made.runtime_or_member hm hz with hrun | ⟨x, hx, hmethod, hret⟩
    · exact .inl hrun
    · have hlowered := hg.lowered (d, x) (mem_pairs.mpr ⟨List.mem_of_getElem? hd, hx⟩)
      obtain ⟨b, hb, -⟩ :=
        (Lowered.complete (h.supplied helem hn hd hx) hlowered).finishes h.coherent.dynamic fun hP => hv hP
      refine .inr ⟨b, ?_⟩
      show (f z.method).verify z.method.ret = .ok b
      rw [← hmethod, hret]
      exact hb

theorem Generated.finishes {f : Method → Draft} {c₁ : Compilation} (h : Described P p c₀ c)
    (helem : ∀ {e : Ty}, P (.array e) → P e)
    (hn : ∀ n ∈ p.typeNames, c₀.symbols.Names P n) (hv : ∀ {e : Ty}, P (.array e) → e.isVoid = false)
    (hg : Generated P c (pairs c.types) f c₁) : ∃ c₂, c₁.finish = .ok c₂ := by
  have hmodule : c₁.module = c.module.withDrafts f := by rw [hg.eq]
  have htypes : c₁.types = c.types := by rw [hg.eq]
  unfold Compilation.finish
  rw [htypes]
  refine finish_total (by rw [hmodule]; exact Module.Shaped.withDrafts h.coherent.shaped f)
      (by rw [hmodule]; exact h.coherent.dynamic)
    h.index_nodup fun d hd => ?_
  obtain ⟨k, hk⟩ := List.mem_iff_getElem?.mp hd
  obtain ⟨ht, e, he, hm⟩ := h.made hk
  refine ⟨e.withDrafts f, ?_, (Made.type hm : e.type = d.type), (Made.isOpen hm : e.isCreated = false),
    hg.finishable h helem hn hv hk ht hm⟩
  rw [hmodule, Module.types_withDrafts, h.index hk, he]
  rfl

theorem Generated.draft {f : Method → Draft} {c₁ : Compilation} (h : Described P p c₀ c)
    (hg : Generated P c (pairs c.types) f c₁)
    (hd : c.types[k]? = some d) (hx : x ∈ d.members) : c₁.module.draft x.method = f x.method := by
  obtain ⟨cd, e, m, y, hof⟩ := h.member hd hx
  have hroutine := Module.Shaped.routine? h.coherent.shaped hof.definition hof.routine
  rw [hof.method] at hroutine
  rw [hg.eq]
  exact Module.draft_withDrafts hroutine hof.method

/-- Generated code is balanced, and so the types of a program can be finished once their bodies have been generated. -/
theorem stack_balance {p : Program} {name runtime : Text} {c : Compilation}
    (hvoid : ∀ n ∈ p.typeNames, ∀ t, typeNamed? p (start (Module.new 0 .dynamic name runtime)) n = some t →
      t.isVoidArray = false)
    (h : (generated p (start (Module.new 0 .dynamic name runtime))).Gives c) :
    (∃ c', c.finish = .ok c') ∧ ∀ d ∈ c.types, ∀ x ∈ d.members,
      ∃ s, Emits (c.scopeOf x) d x { symbols := s } (c.module.draft x.method) ∧
        Balanced (c.scopeOf x) d x { symbols := s } (c.module.draft x.method) := by
  obtain ⟨c₀, c₁, hlaid, laid, hgen, hdescribed⟩ := generated_described h
  have hn := names_of_typeNamed hlaid hvoid
  have hdesc := hdescribed laid.not_voidArray hn
  have helem : ∀ {e : Ty}, (Ty.array e).isVoidArray = false → e.isVoidArray = false := fun he => (Ty.of_not_voidArray he).2
  have hv : ∀ {e : Ty}, (Ty.array e).isVoidArray = false → e.isVoid = false := fun he => (Ty.of_not_voidArray he).1
  obtain ⟨f, hg⟩ := hdesc.generate helem hn hgen
  refine ⟨hg.finishes hdesc helem hn hv, fun d hd x hx => ?_⟩
  have htypes : c.types = c₁.types := by rw [hg.eq]
  rw [htypes] at hd
  obtain ⟨k, hk⟩ := List.mem_iff_getElem?.mp hd
  have hscope : c.scopeOf x = c₁.scopeOf x := by rw [hg.eq]; exact scopeOf_withDrafts c₁ f _ x
  rw [hscope, hg.draft hdesc hk hx]
  exact Lowered.balanced (hdesc.supplied helem hn hk hx) hv
    (hg.lowered (d, x) (List.mem_flatMap.mpr ⟨d, hd, List.mem_map_of_mem hx⟩))

/-- A program with a field that is initialized, a value that is called on, overloads that compete, a delegate, a loop
    and code behind a return. -/
def sampleProgram : Program where
  delegates := [{ name := "Op", ret := "string", params := [{ name := "n", type := "int" }] }]
  classes := [{
    name := "C"
    fields := [{ name := "a", type := "int[]", isStatic := false, init := .newArray "int" (.int 3) }]
    ctors := []
    methods := [
      { name := "m", isStatic := true, ret := "string", params := [{ name := "n", type := "int" }]
        body := [.return (.call (.binary .add (.ident "n") (.int 1)) "ToString" [])] },
      { name := "m", isStatic := false, ret := "string", params := [{ name := "s", type := "string" }]
        body := [.return (.ident "s"), .return (.call .missing "m" [.int 4])] },
      { name := "f", isStatic := false, ret := "int", params := [{ name := "n", type := "int" }]
        body := [
          .local "op" "Op" (.methodRef .missing "m" ""),
          .while (.binary .lt (.ident "n") (.member (.ident "a") "Length")) [
            .if (.binary .eq (.call .missing "op" [.ident "n"]) (.call .missing "m" [.string "7"]))
              [.return (.ident "n")] [],
            .assign (.ident "n") (.binary .add (.ident "n") (.index (.ident "a") (.ident "n")))],
          .return (.ident "n")] }] }]

theorem stack_balance_sample : ∃ c, (generated sampleProgram (start (Module.new 0 .dynamic "m" "v4"))).Gives c ∧
    (∃ c', c.finish = .ok c') ∧ ∀ d ∈ c.types, ∀ x ∈ d.members,
      ∃ s, Emits (c.scopeOf x) d x { symbols := s } (c.module.draft x.method) ∧
        Balanced (c.scopeOf x) d x { symbols := s } (c.module.draft x.method) := by
  have named : (sampleProgram.typeNames.all fun n =>
      (typeNamed? sampleProgram (start (Module.new 0 .dynamic "m" "v4")) n).all fun t => !t.isVoidArray) = true := by
    decide +kernel
  obtain ⟨c, hc⟩ := Logged.gives_of_isOk (x := generated sampleProgram (start (Module.new 0 .dynamic "m" "v4")))
    (j := default) (by decide +kernel)
  refine ⟨c, hc, stack_balance (fun n hn t ht => ?_) hc⟩
  have := List.all_eq_true.mp named n hn
  rw [ht] at this
  simpa using this

end Compilation
end CilCompiler
