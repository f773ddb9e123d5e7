import CilCompiler.Proofs.Typed.Compiled

/-! Type soundness. What the types of bodies say is so while a compiled program runs: a run finds at every instruction
    the arguments, locals, fields and values on the stack that the instruction asks for, and when it halts it has been
    canceled, a reference is null, a number is out of range or has no result, a text is no number, or calls go too
    deep (`type_soundness`). -/

namespace CilCompiler

/-- The worlds in which runs of a module begin, each with its input: the first one, and those that runs which came to
    their end have left. -/
inductive Machine.Session (m : Machine) : World → Prop
  | first (input : List UInt8) : m.Session (World.initial 1 input)
  | next {w v w' canceled n} (input : List UInt8) : m.Session w → m.runUnder canceled n (m.start w) = .done v w' →
      m.Session (w'.withInput 0 input)

theorem RuntimeCause.code_of_expected {c : RuntimeCause} (hc : c.isExpected = true) :
    c.code ∈ [Code.native, .nullReference, .indexRange, .divideByZero, .overflow, .callDepth] := by
  unfold isExpected at hc
  split at hc
  · exact List.mem_cons_self
  · exact List.mem_cons_self
  · exact List.mem_cons_of_mem _ (of_decide_eq_true hc)

/-- Operands of a wrong kind, instructions that are not supported, types that are not finished and bodies that are
    missing are not expected. -/
theorem Fault.code_of_expected {x : Fault} (hx : x.isExpected = true) :
    (∀ code ∈ [Code.badOperand, .unsupportedOp, .notFinalized], x.code? ≠ some code) ∧
      ∀ owner name, x ≠ .runtime (.noImplementation owner name) := by
  refine ⟨fun code hcode he => ?_, fun owner name he => by subst he; cases hx⟩
  have distinct : ∀ a ∈ [Code.badOperand, .unsupportedOp, .notFinalized],
      a ∉ [Code.native, .nullReference, .indexRange, .divideByZero, .overflow, .callDepth] := by decide
  unfold isExpected at hx
  split at hx
  · refine distinct code hcode ?_
    rw [← Option.some.inj he]
    exact RuntimeCause.code_of_expected hx
  · cases he
  · cases he
  · cases hx

/-- A run is safe, however far it goes and whenever it is canceled: all is there that an instruction looks for, and
    the run only halts at an instruction that it stands at, as is expected there. -/
structure Machine.Safe (m : Machine) (canceled : Nat → Bool) (p : Progress) : Prop where
  finds : ∀ {n : Nat} {s : Running}, m.runUnder canceled n p = .running s →
    ∃ f rest i, s.frames = f :: rest ∧ f.body.code[f.pc]? = some i ∧ f.Finds s.world.heap i
  halts : ∀ {n : Nat} {e : Halt} {w : World}, m.runUnder canceled n p = .halted e w → ∃ k s f rest i, k < n ∧
    m.runUnder canceled k p = .running s ∧ s.frames = f :: rest ∧ f.body.code[f.pc]? = some i ∧ e.ExpectedAt f i
  /-- What a run never comes to. -/
  reaches : ∀ {n : Nat} {e : Halt} {w : World}, m.runUnder canceled n p = .halted e w → ∃ x, e = .fault x ∧
    (∀ code ∈ [Code.badOperand, .unsupportedOp, .notFinalized], x.code? ≠ some code) ∧
      ∀ owner name, x ≠ .runtime (.noImplementation owner name)

namespace Compilation
variable {p : Program} {c₀ c c₁ c₂ : Compilation} {f : Method → Draft} {m : Machine} {w : World} {r : Method}

/-- The entry point is a static member of a class, without parameters. -/
theorem Stages.entry (h : Stages p c₀ c c₁ c₂ f) (hr : c₂.module.entry = some r) :
    ∃ (k : Nat) (d : DeclaredType) (x : Member),
    c.types[k]? = some d ∧ x ∈ d.members ∧ x.method = r ∧ r.isStatic = true ∧ r.params = [] := by
  obtain ⟨hrest, -⟩ := h.generated.finish h.described h.finished
  have hentry : c.module.entry = some r := by
    rw [hrest, h.generated.eq] at hr
    exact hr
  obtain ⟨d, hd, x, hx, rfl, hmain⟩ := h.described.entry hentry
  obtain ⟨k, hk⟩ := List.mem_iff_getElem?.mp hd
  obtain ⟨cd, e, decl, z, hof⟩ := h.described.member hk hx
  exact ⟨k, d, x, hk, hx, rfl, hmain.isStatic, by rw [hof.declares.signature, hmain.types, List.map_nil]⟩

/-- What is handed to the entry point. -/
theorem entry_takes {P : Platform} (hst : r.isStatic = true) (hparams : r.params = []) :
    P.Receivers w.heap r [] ∧ w.heap.Takes [] r.params := by
  refine ⟨?_, hparams ▸ .nil⟩
  unfold Platform.Receivers
  rw [if_pos hst]

/-- A run from the entry point begins in typed code, where the heap is typed. -/
theorem Stages.start_goes (h : Stages p c₀ c c₁ c₂ f) (hm : m.Loads c₂.module) (hentry : c₂.module.entry ≠ none)
    (hdepth : 0 < m.maxDepth)
    {ts : List Text} (ht : (platformOf m c₀ c True).Typed ts w.heap) : (platformOf m c₀ c True).Goes (m.start w) := by
  obtain ⟨r, hr⟩ := Option.ne_none_iff_exists'.mp hentry
  obtain ⟨k, d, x, hk, hx, rfl, hst, hparams⟩ := h.entry hr
  obtain ⟨cd, e, decl, z, hof⟩ := h.described.member hk hx
  obtain ⟨y, b, hdefined⟩ := h.member hk hx
  have hcreated : (m.def? x.method.owner).any TypeDef.isCreated = true := by
    have hfound := Module.Shaped.def? h.shaped (h.definition hof.definition)
    have howner : x.method.owner = e.type := hof.declares.owner.trans hof.made.type.symm
    rw [hm.def?, howner, show e.type = (e.withDrafts f).finished.type from rfl, hfound]
    rfl
  have hstart : m.start w = Machine.proceed [] 0 .push (m.enter .push m.maxDepth x.method [] w) := by
    simp [Machine.start, hm.modules, hm.module, hr, Machine.invoke, hcreated, Method.argCount, hst, hparams]
  obtain ⟨hrecv, htakes⟩ := entry_takes (P := platformOf m c₀ c True) (w := w) hst hparams
  have enters := (h.provides_member hm hk hx).enters ht hrecv htakes .push m.maxDepth
  obtain ⟨levels, hlevels⟩ : ∃ l, m.maxDepth = l + 1 := ⟨m.maxDepth - 1, by omega⟩
  have hframe : ∃ g w', m.enter .push m.maxDepth x.method [] w = (.frame g, w') := by
    rw [hlevels, Machine.enter_succ]
    simp only [Machine.opening, (hm.routine? _).trans hdefined.routine, hdefined.native, hdefined.impl,
        if_false, hdefined.body]
    exact ⟨_, _, rfl⟩
  obtain ⟨g, w', hg⟩ := hframe
  replace enters : (platformOf m c₀ c True).Enters ts w.heap .push x.method.ret ([] ++ [])
      (m.enter .push m.maxDepth x.method [] w) := enters
  rw [hg] at enters
  obtain ⟨ts', Γ, D, hl, hlives, hpc, hstack, -⟩ := enters
  obtain ⟨layout, hstands⟩ := hlives.stands hpc hstack
  rw [hstart, hg]
  exact ⟨ts', hl.typed, Γ, D, layout, [], hstands, trivial⟩

theorem initial_typed {P : Platform} (input : List UInt8) : P.Typed [] (World.initial 1 input).heap := by
  refine ⟨rfl, fun hc => (by cases hc), fun _ hx => (by cases hx), fun ha => ?_, fun ho => ?_⟩
  · simp [World.initial] at ha
  · simp [World.initial] at ho

/-- The heaps of a session are typed. -/
theorem Stages.session_typed (h : Stages p c₀ c c₁ c₂ f) (hm : m.Loads c₂.module)
    (free : ∀ s ∈ p.sources, s.name.endsWith TypeName.arrayEnding = false) (hentry : c₂.module.entry ≠ none)
    (hdepth : 0 < m.maxDepth)
    (hw : m.Session w) : ∃ ts, (platformOf m c₀ c True).Typed ts w.heap := by
  induction hw with
  | first input =>
    exact ⟨[], initial_typed input⟩
  | @next w v w' canceled n input _ hdone ih =>
    obtain ⟨ts, ht⟩ := ih
    have hgoes := (h.start_goes hm hentry hdepth ht)
    rcases Platform.run_goes (h.platform_sound hm fun _ => free) hgoes canceled n with hgoes | ⟨e, w₁, he, -⟩
    · have hdone : (platformOf m c₀ c True).machine.runUnder canceled n (m.start w) = .done v w' := hdone
      rw [hdone] at hgoes
      exact hgoes
    · have he : m.runUnder canceled n (m.start w) = .halted e w₁ := he
      rw [hdone] at he
      cases he

/-- A compiled program in which no declared type has the name of an array runs safely from its entry point, with any
    input, if calls may be at least one deep. -/
theorem type_soundness {name runtime : Text} {isCanceled : Bool} (h : (compile p .dynamic name runtime isCanceled).Gives c)
    (free : ∀ s ∈ p.sources, s.name.endsWith TypeName.arrayEnding = false) (hentry : c.module.entry ≠ none)
    (hm : m.Loads c.module)
    (hdepth : 0 < m.maxDepth) (hw : m.Session w) (canceled : Nat → Bool) : m.Safe canceled (m.start w) := by
  obtain ⟨c₀, c', c₁, drafts, -, hs⟩ := compile_stages h
  obtain ⟨ts, ht⟩ := hs.session_typed hm free hentry hdepth hw
  have goes := hs.start_goes hm hentry hdepth ht
  have sound : (platformOf m c₀ c' True).Sound := hs.platform_sound hm fun _ => free
  have halts : ∀ {n : Nat} {e : Halt} {w' : World}, m.runUnder canceled n (m.start w) = .halted e w' →
      ∃ k s f rest i, k < n ∧
      m.runUnder canceled k (m.start w) = .running s ∧ s.frames = f :: rest ∧ f.body.code[f.pc]? = some i ∧
        e.ExpectedAt f i := by
    intro n e w' hrun
    obtain ⟨k, s, f, rest, i, hk, hs, hf, hi, hstopped⟩ := Platform.run_halts sound goes canceled n hrun
    exact ⟨k, s, f, rest, i, hk, hs, hf, hi, hstopped.expected trivial⟩
  refine ⟨fun hrun => Platform.run_finds sound trivial goes canceled _ hrun, halts, fun hrun => ?_⟩
  obtain ⟨_, _, _, _, _, -, -, -, -, x, hx, hexpected, -⟩ := halts hrun
  exact ⟨x, hx, Fault.code_of_expected hexpected⟩

/-- A program with an array in a field, a static field, a delegate and a builder. -/
def ledgerProgram : Program where
  delegates := [{ name := "Op", ret := "int", params := [{ name := "n", type := "int" }] }]
  classes := [{
    name := "Ledger"
    fields := [{ name := "sums", type := "int[]", isStatic := false, init := .newArray "int" (.int 3) },
      { name := "count", type := "int", isStatic := true, init := .missing }]
    ctors := []
    methods := [
      { name := "add", isStatic := false, ret := "int", params := [{ name := "n", type := "int" }]
        body := [
          .assign (.ident "count") (.binary .add (.ident "count") (.int 1)),
          .assign (.index (.ident "sums") (.ident "count")) (.ident "n"),
          .return (.binary .div (.ident "n") (.ident "count"))] },
      { name := "Main", isStatic := true, ret := "int", params := []
        body := [
          .local "ledger" "Ledger" (.new "Ledger" []),
          .local "op" "Op" (.member (.ident "ledger") "add"),
          .local "text" "StringBuilder" (.new "StringBuilder" []),
          .assign (.ident "text") (.call (.ident "text") "Append" [.call (.ident "ledger") "ToString" []]),
          .return (.call .missing "op" [.call (.ident "int") "Parse" [.call (.ident "Console") "ReadLine" []]])] }] }]

theorem type_soundness_ledger : ∃ c, (compile ledgerProgram .dynamic "m" "v4" false).Gives c ∧
    (∀ s ∈ ledgerProgram.sources, s.name.endsWith TypeName.arrayEnding = false) ∧ c.module.entry ≠ none ∧
    ∃ m : Machine, m.Loads c.module ∧ 0 < m.maxDepth ∧ m.Session (World.initial 1 [52]) ∧
      ∀ canceled, m.Safe canceled (m.start (World.initial 1 [52])) := by
  obtain ⟨c, hc, hentry⟩ := Logged.gives_of_any (x := compile ledgerProgram .dynamic "m" "v4" false) (j := default)
    (p := fun c => c.module.entry.isSome) (by decide +kernel)
  have free : ∀ s ∈ ledgerProgram.sources, s.name.endsWith TypeName.arrayEnding = false := by decide
  have entered : c.module.entry ≠ none := Option.isSome_iff_ne_none.mp hentry
  obtain ⟨_, _, _, _, -, hs⟩ := compile_stages hc
  have loads := hs.loads 8
  exact ⟨c, hc, free, entered, _, loads, Nat.succ_pos 7, .first _,
    type_soundness hc free entered loads (Nat.succ_pos 7) (.first _)⟩

end Compilation
end CilCompiler
