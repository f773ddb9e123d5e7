import CilCompiler.Proofs.Renaming.Supplied

/-! Storage. No field, parameter or local of a compiled program is of the void type, in a module that is run or in a
    listing. Elements of arrays are not either where the program names no array of void; an expression that counts as
    nothing has then left nothing. -/

namespace CilCompiler

/-- The instructions that make or reach elements of arrays. -/
def Opcode.isElementwise : Opcode → Bool
  | .newarr | .ldelem | .ldelema | .stelem => true
  | _ => false

/-- Whether an operand is the void type. -/
def Operand.isVoid : Operand → Bool
  | .type t => t.isVoid
  | _ => false

/-- The types of the places that a definition declares are of a kind: those of fields, of parameters, and of the
    locals of bodies, named or not. -/
structure TypeDef.Stores (Q : Ty → Prop) (d : TypeDef) : Prop where
  fields : ∀ f ∈ d.fields.toList, ∃ t, f.type = some t ∧ Q t
  params : ∀ x ∈ d.routines, ∀ q ∈ x.method.params, ∃ t, q = some t ∧ Q t
  locals : ∀ x ∈ d.routines, ∀ t ∈ x.draft.locals.toList, Q t

/-- The types of the elements that bodies make or reach are of a kind. -/
def TypeDef.Indexes (Q : Ty → Prop) (d : TypeDef) : Prop :=
  ∀ x ∈ d.routines, ∀ i ∈ x.draft.code.toList, i.op.isElementwise = true → ∃ t, i.operand = .type t ∧ Q t

/-! ### Bodies -/

namespace Setting
variable {Γ : Setting} {locals : Array Ty} {labels : Nat} {i : Instr} {S S' : List Slot} {d : Draft}

/-- Where no array has void elements, an instruction reaches elements of another type. -/
theorem Types.elementwise (hv : Γ.Voidless) (h : Γ.Types locals labels i.expanded S S') (ho : i.op.isElementwise = true) :
    ∃ t, i.operand = .type t ∧ t.isVoid = false := by
  have hlong : i.expanded = i := by
    obtain ⟨op, x⟩ := i
    cases op <;> first | rfl | cases ho
  rw [hlong] at h
  cases h with
  | array he _ => exact ⟨_, rfl, hv he⟩
  | element hn _ _ => exact ⟨_, rfl, hn⟩
  | voidElement _ he _ => exact ⟨_, rfl, hv he⟩
  | elementAddress hn _ _ _ => exact ⟨_, rfl, hn⟩
  | setElement he _ _ => exact ⟨_, rfl, hv he⟩
  | arithmetic hop _ _ | order hop _ _ | unary hop _ | test hop _ _ =>
    simp only [List.mem_cons, List.not_mem_nil, or_false] at hop
    rcases hop with rfl | rfl | rfl | rfl | rfl | rfl | rfl <;> cases ho
  | callInstance _ _ _ hr => cases hr <;> cases ho
  | _ => cases ho

/-- The instructions of a typed body have types. -/
theorem Typed.types (h : Γ.Typed d S) (hi : i ∈ d.code.toList) : ∃ T T', Γ.Types d.locals d.marks.size i.expanded T T' := by
  obtain ⟨layout, hc, -⟩ := h
  obtain ⟨pc, hpc⟩ := Array.mem_iff_getElem?.mp (Array.mem_toList_iff.mp hi)
  have hlt := (Array.getElem?_eq_some_iff.mp hpc).1
  obtain ⟨T, hT⟩ := hc.stack (Nat.le_of_lt hlt)
  obtain ⟨T', hT'⟩ := hc.stack hlt
  exact ⟨T, T', hc.step hpc hT hT'⟩

theorem Typed.elementwise (hv : Γ.Voidless) (h : Γ.Typed d S) (hi : i ∈ d.code.toList) (ho : i.op.isElementwise = true) :
    ∃ t, i.operand = .type t ∧ t.isVoid = false := by
  obtain ⟨T, T', hstep⟩ := h.types hi
  exact hstep.elementwise hv ho

end Setting

/-! ### Finishing -/

/-- What finishing a definition keeps holds of all definitions when a type is finished. -/
theorem Module.createType_all {Q : TypeDef → Prop} (created : ∀ e, Q e → Q { e with isCreated := true })
    (finished : ∀ e, Q e → Q e.finished)
    {m m' : Module} {t : Ty} (h : m.createType t = (.ok (), m')) (hall : ∀ e ∈ m.types.toList, Q e) :
      ∀ e ∈ m'.types.toList, Q e := by
  have modified : ∀ {M : Module} {g : TypeDef → TypeDef}, M.types = m.types →
      (∀ e, m.types[t.declared.index]? = some e → Q (g e)) →
      ∀ e ∈ (M.modifyDef t g).types.toList, Q e := by
    intro M g ht hg e he
    obtain ⟨k, hk⟩ := List.mem_iff_getElem?.mp he
    simp only [Module.modifyDef, Array.getElem?_toList, Array.getElem?_modify, ht] at hk
    split at hk
    · rename_i hi
      subst hi
      obtain ⟨e₀, he₀, rfl⟩ := Option.map_eq_some_iff.mp hk
      exact hg e₀ he₀
    · exact hall e (Array.mem_toList_iff.mpr (Array.mem_of_getElem? hk))
  have known : ∀ {e : TypeDef} {k : Nat}, m.types[k]? = some e → Q e :=
    fun he => hall _ (Array.mem_toList_iff.mpr (Array.mem_of_getElem? he))
  unfold createType at h
  split at h
  · cases h
  · rename_i d hopen
    have hdef := (def?_some (open?_ok hopen).1).1
    split at h
    · split at h
      · rename_i m₁ hwrite
        cases h
        have htypes : m₁.types = m.types := by
          unfold writeType at hwrite
          split at hwrite
          · cases hwrite
          · obtain ⟨block, -, hwrite⟩ := bind_eq_ok.mp hwrite
            cases hwrite
            rfl
        exact modified htypes fun e he => created e (known he)
      · cases h
    · cases hf : finishDef d with
      | mk result d' =>
        rw [hf] at h
        cases h
        obtain ⟨-, rfl⟩ := finishDef_ok hf
        exact modified rfl fun _ _ => finished d (known hdef)

namespace TypeDef
variable {e : TypeDef}

theorem routines_finished (e : TypeDef) : e.finished.routines = e.routines.map Routine.finished := by
  simp [routines, finished]

theorem Stores.finished {Q : Ty → Prop} (h : e.Stores Q) : e.finished.Stores Q where
  fields := h.fields
  params x hx := by
    rw [routines_finished] at hx
    obtain ⟨y, hy, rfl⟩ := List.mem_map.mp hx
    rw [y.method_finished]
    exact h.params y hy
  locals x hx := by
    rw [routines_finished] at hx
    obtain ⟨y, hy, rfl⟩ := List.mem_map.mp hx
    rw [y.draft_finished]
    exact h.locals y hy

theorem Stores.mono {Q R : Ty → Prop} (h : e.Stores Q) (hQ : ∀ t, Q t → R t) : e.Stores R where
  fields f hf := (h.fields f hf).imp fun t ht => ⟨ht.1, hQ t ht.2⟩
  params x hx q hq := (h.params x hx q hq).imp fun t ht => ⟨ht.1, hQ t ht.2⟩
  locals x hx t ht := hQ t (h.locals x hx t ht)

theorem Indexes.finished {Q : Ty → Prop} (h : e.Indexes Q) : e.finished.Indexes Q := by
  intro x hx
  rw [routines_finished] at hx
  obtain ⟨y, hy, rfl⟩ := List.mem_map.mp hx
  rw [y.draft_finished]
  exact h y hy

end TypeDef

namespace Compilation
variable {P : Ty → Prop} {p : Program} {c c₁ c' : Compilation} {f : Method → Draft}

theorem finish_all {Q : TypeDef → Prop} (created : ∀ e, Q e → Q { e with isCreated := true })
    (finished : ∀ e, Q e → Q e.finished)
    (h : c.finish = .ok c') (hall : ∀ e ∈ c.module.types.toList, Q e) : ∀ e ∈ c'.module.types.toList, Q e := by
  unfold finish at h
  generalize c.types = ds at h
  induction ds generalizing c with
  | nil =>
    cases h
    exact hall
  | cons d ds ih =>
    obtain ⟨c₁, h1, h2⟩ := foldlM_cons_ok h
    refine ih ?_ h2
    unfold finishType at h1
    split at h1
    · rename_i m hc
      cases h1
      exact Module.createType_all created finished hc hall
    · cases h1

/-! ### Storage -/

/-- What is recorded for a member holds of its body, and all other bodies are empty. -/
theorem Generated.drafts {Q : Draft → Prop} (hQ : Q {}) (hg : Generated P c (pairs c.types) f c₁) (h : Provided P c)
    (hlowered : ∀ y ∈ pairs c.types, (settingOf P c y.2).Complete (f y.2.method) → Q (f y.2.method)) :
    ∀ r, Q (f r) := by
  intro r
  by_cases hr : ∃ y ∈ pairs c.types, y.2.method = r
  · obtain ⟨y, hy, rfl⟩ := hr
    exact hlowered y hy (Lowered.complete (h.supplied y hy) (hg.lowered y hy))
  · rw [hg.rest r fun y hy he => hr ⟨y, hy, he⟩]
    exact hQ

/-- Recording bodies changes nothing else. -/
theorem Generated.definition (hg : Generated P c (pairs c.types) f c₁) {e : TypeDef} (he : e ∈ c₁.module.types.toList) :
    ∃ e₀ ∈ c.module.types.toList, e = e₀.withDrafts f := by
  obtain ⟨k, hk⟩ := List.mem_iff_getElem?.mp he
  have hmodule : c₁.module = c.module.withDrafts f := by rw [hg.eq]
  rw [Array.getElem?_toList, hmodule, Module.types_withDrafts] at hk
  obtain ⟨e₀, he₀, rfl⟩ := Option.map_eq_some_iff.mp hk
  exact ⟨e₀, Array.mem_toList_iff.mpr (Array.mem_of_getElem? he₀), rfl⟩

/-- The places of a program are of the kind, and not void. -/
theorem Generated.stores (hg : Generated P c (pairs c.types) f c₁) (h : Provided P c) :
    ∀ e ∈ c₁.module.types.toList, e.Stores fun t => P t ∧ t.isVoid = false := by
  intro e he
  obtain ⟨e₀, he₀, rfl⟩ := hg.definition he
  obtain ⟨k, hk⟩ := List.mem_iff_getElem?.mp he₀
  have hadmitted := h.admitted (by rwa [Array.getElem?_toList] at hk)
  have locals : ∀ r, ∀ t ∈ (f r).locals.toList, P t ∧ t.isVoid = false := by
    refine hg.drafts (Q := fun D => ∀ t ∈ D.locals.toList, P t ∧ t.isVoid = false) (by simp) h fun y hy hcomplete t ht => ?_
    obtain ⟨n, hn⟩ := List.mem_iff_getElem?.mp ht
    have hholds := hcomplete.locals (by rwa [Array.getElem?_toList] at hn)
    exact ⟨hholds.admits, hholds.notVoid⟩
  refine ⟨hadmitted.fields, fun x hx => ?_, fun x hx => ?_⟩
  all_goals
    rw [TypeDef.routines_withDrafts] at hx
    obtain ⟨y, hy, rfl⟩ := List.mem_map.mp hx
  · exact hadmitted.params y hy
  · exact locals y.method

theorem Generated.indexes (hg : Generated P c (pairs c.types) f c₁) (h : Provided P c)
    (hv : ∀ {e : Ty}, P (.array e) → e.isVoid = false) :
      ∀ e ∈ c₁.module.types.toList, e.Indexes fun t => t.isVoid = false := by
  intro e he x hx
  obtain ⟨e₀, he₀, rfl⟩ := hg.definition he
  rw [TypeDef.routines_withDrafts] at hx
  obtain ⟨y, hy, rfl⟩ := List.mem_map.mp hx
  exact hg.drafts (Q := fun D => ∀ i ∈ D.code.toList, i.op.isElementwise = true →
      ∃ t, i.operand = .type t ∧ t.isVoid = false)
    (by simp) h (fun z hz hcomplete i hi ho => hcomplete.typed.elementwise (fun hP => hv hP) hi ho) y.method

theorem Generated.draft_of_provided (hg : Generated P c (pairs c.types) f c₁) (h : Provided P c) {y : DeclaredType × Member}
    (hy : y ∈ pairs c.types) : c₁.module.draft y.2.method = f y.2.method := by
  obtain ⟨z, hroutine, hz⟩ := h.ready.has y hy
  rw [hg.eq]
  exact Module.draft_withDrafts hroutine hz

/-- No array of void is among the types of a kind. -/
theorem keeps_isVoidArray (ρ : Renaming) : ρ.Keeps fun t => t.isVoidArray = false := by
  have same : ∀ t : Ty, (ρ.ty t).isVoidArray = t.isVoidArray := by
    intro t
    induction t with
    | root d => rfl
    | derived d b _ => rfl
    | array e ih => rw [Renaming.ty, Ty.isVoidArray, Ty.isVoidArray, ih, Renaming.isVoid_ty]
  exact fun t => by simp only [same]

/-- In a body whose lowering started from `w`, an expression that counts as nothing has left nothing on the stack. -/
def Quiet (c : Scope) (d : DeclaredType) (x : Member) (w : Work) (D : Draft) : Prop :=
  ∀ {y : Lower.Point}, Comes c d x w y → ∃ p w', y.run c = .ok (p, w') ∧ w'.draft.code.toList <+: D.code.toList ∧
    (Ty.isVoidOpt p.type = true →
      depthAt (some c.ret) D.code w'.draft.code.size = depthAt (some c.ret) D.code y.work.draft.code.size)

theorem Balanced.quiet {scope : Scope} {d : DeclaredType} {x : Member} {w : Work} {D : Draft} (h : Balanced scope d x w D) :
    Quiet scope d x w D := by
  intro y hy
  obtain ⟨q, w', hrun, -, hcode, hdepth⟩ := h.expressions hy
  refine ⟨q, w', hrun, hcode, fun hq => ?_⟩
  rw [hq] at hdepth
  exact hdepth

/-- No place of a compiled program is of the void type: no field, no parameter and no local; and where the program
    names no array of void, no element is either, and what counts as nothing has left nothing. -/
theorem void_is_not_stored {p : Program} {backend : Backend} {name runtime : Text} {isCanceled : Bool} {c' : Compilation}
    (h : (compile p backend name runtime isCanceled).Gives c') :
    (∀ e ∈ c'.module.types.toList, e.Stores fun t => t.isVoid = false) ∧
    ((∀ n ∈ p.typeNames, ∀ t, typeNamed? p (start (Module.new 0 backend name runtime)) n = some t → t.isVoidArray = false) →
      (∀ e ∈ c'.module.types.toList, (e.Stores fun t => t.isVoidArray = false) ∧ e.Indexes fun t => t.isVoid = false) ∧
      ∃ c, (generated p (start (Module.new 0 backend name runtime))).Gives c ∧ c.finish = .ok c' ∧
        ∀ d ∈ c.types, ∀ x ∈ d.members, ∃ s, Emits (c.scopeOf x) d x { symbols := s } (c'.module.draft x.method) ∧
          Quiet (c.scopeOf x) d x { symbols := s } (c'.module.draft x.method)) := by
  obtain ⟨-, c, hgen, hfinish⟩ := compile_gives h
  have hgenerated := hgen
  rw [generated_eq] at hgen
  obtain ⟨c₀, hprepared, hgenerate⟩ := hgen.of_bind
  have finished : ∀ {Q : Ty → Prop}, (∀ e ∈ c.module.types.toList, e.Stores Q) → ∀ e ∈ c'.module.types.toList, e.Stores Q :=
    finish_all (fun e he => ⟨he.fields, he.params, he.locals⟩) (fun e he => he.finished) hfinish
  refine ⟨?_, fun hvoid => ?_⟩
  · have hprovided : Provided (fun _ => True) c₀ := prepared_provided hprepared (fun _ _ => Iff.rfl) (fun _ => trivial)
      fun _ _ => ⟨fun _ => trivial, fun _ _ _ _ _ _ _ _ => ⟨trivial, fun _ => trivial⟩⟩
    obtain ⟨f, hg⟩ := hprovided.generate hgenerate.of_pass
    exact finished fun e he => (hg.stores hprovided e he).mono fun t ht => ht.2
  · have hnames : ∀ n ∈ p.typeNames, ∀ t, typeNamed? p (start (Module.new 0 .dynamic name runtime)) n = some t →
        t.isVoidArray = false := by
      intro n hn t ht
      cases backend with
      | dynamic => exact hvoid n hn t ht
      | textual =>
        have hlisted := hvoid n hn _ (by rw [typeNamed?_listed, ht]; rfl)
        exact (keeps_isVoidArray _ t).mp hlisted
    have hprovided : Provided (fun t => t.isVoidArray = false) c₀ :=
      prepared_provided hprepared keeps_isVoidArray (fun he => (Ty.of_not_voidArray he).2)
        fun hlaid laid => ⟨laid.not_voidArray, names_of_typeNamed hlaid hnames⟩
    have hv : ∀ {e : Ty}, (Ty.array e).isVoidArray = false → e.isVoid = false := fun he => (Ty.of_not_voidArray he).1
    obtain ⟨f, hg⟩ := hprovided.generate hgenerate.of_pass
    have hstores := finished fun e he => (hg.stores hprovided e he).mono fun t ht => ht.1
    have hindexes := finish_all (fun e he => he) (fun e he => he.finished) hfinish (hg.indexes hprovided hv)
    refine ⟨fun e he => ⟨hstores e he, hindexes e he⟩, c, hgenerated, hfinish, fun d hd x hx => ?_⟩
    have htypes : c.types = c₀.types := by rw [hg.eq]
    have hscope : c.scopeOf x = c₀.scopeOf x := by rw [hg.eq]; exact scopeOf_withDrafts c₀ f _ x
    rw [htypes] at hd
    have hy : (d, x) ∈ pairs c₀.types := mem_pairs.mpr ⟨hd, hx⟩
    rw [(finish_same hfinish).2, hg.draft_of_provided hprovided hy, hscope]
    obtain ⟨s, hemits, hbalanced⟩ := Lowered.balanced (hprovided.supplied _ hy) hv (hg.lowered _ hy)
    exact ⟨s, hemits, hbalanced.quiet⟩

/-- A program that makes an array, and calls a method that gives nothing. -/
def cellsProgram (elem : Text) : Program where
  delegates := []
  classes := [{
    name := "Row"
    fields := []
    ctors := []
    methods := [{
      name := "Main", isStatic := true, ret := "void", params := []
      body :=
        [.local "cells" "" (.newArray elem (.int 3)), .expr (.call (.ident "Console") "WriteLine" [.string "made"])] }] }]

theorem void_is_not_stored_cells : ∃ c, (compile (cellsProgram "int") .textual "m" "v4" false).Gives c ∧
    ∀ e ∈ c.module.types.toList, (e.Stores fun t => t.isVoid = false) ∧ e.Indexes fun t => t.isVoid = false := by
  have named : ((cellsProgram "int").typeNames.all fun n =>
      (typeNamed? (cellsProgram "int") (start (Module.new 0 .textual "m" "v4")) n).all fun t => !t.isVoidArray) = true := by
    decide +kernel
  obtain ⟨c, hc⟩ :=
    Logged.gives_of_isOk (x := compile (cellsProgram "int") .textual "m" "v4" false) (j := default) (by decide +kernel)
  obtain ⟨hstores, helements⟩ := void_is_not_stored hc
  obtain ⟨hindexes, -⟩ := helements fun n hn t ht => by
    have := List.all_eq_true.mp named n hn
    rw [ht] at this
    simpa using this
  exact ⟨c, hc, fun e he => ⟨hstores e he, (hindexes e he).2⟩⟩

/-- An array of void can be made. -/
theorem void_stored_in_cells : ∃ c, (compile (cellsProgram "void") .dynamic "m" "v4" false).Gives c ∧
    ∃ e ∈ c.module.types.toList, ¬ e.Indexes fun t => t.isVoid = false := by
  obtain ⟨c, hc, hany⟩ := Logged.gives_of_any (x := compile (cellsProgram "void") .dynamic "m" "v4" false) (j := default)
    (p := fun c => c.module.types.toList.any fun e => e.routines.any fun x => x.draft.code.toList.any fun i =>
      i.op.isElementwise && i.operand.isVoid) (by decide +kernel)
  obtain ⟨e, he, hany⟩ := List.any_eq_true.mp hany
  obtain ⟨x, hx, hany⟩ := List.any_eq_true.mp hany
  obtain ⟨i, hi, hany⟩ := List.any_eq_true.mp hany
  obtain ⟨ho, ht⟩ := Bool.and_eq_true_iff.mp hany
  refine ⟨c, hc, e, he, fun h => ?_⟩
  obtain ⟨t, htype, hv⟩ := h x hx i hi ho
  rw [htype] at ht
  exact Bool.false_ne_true (hv.symm.trans ht)

end Compilation
end CilCompiler
