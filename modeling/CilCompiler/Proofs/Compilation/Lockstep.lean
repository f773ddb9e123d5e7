import CilCompiler.Proofs.Compilation.ArrayNames
import CilCompiler.Proofs.Renaming.Supplied
import CilCompiler.Proofs.Typed.Listed

/-! Bodies in a listing and in a module that can be run. Of compilations that are alike, one into a listing and one
    into a module that can be run, each member without loops and choices gets the same code, up to renaming and with
    the counts of a listing, or fails with the same code (`Alike.lowering`); so members get the same code one after
    the other (`Alike.generate`). -/

namespace CilCompiler
namespace Compilation

variable {P : Ty → Prop} {p : Program} {ρ : Renaming} {c₀ c c' c₁ c₁' : Compilation} {k : Nat}
    {d : DeclaredType} {x : Member}
  {s s' : Symbols}

/-! ### Settings -/

/-- Members that can be found belong to the module of each body. -/
theorem Described.listable (h : Described P p c₀ c) (helem : ∀ {e : Ty}, P (.array e) → P e)
    (hv : ∀ {e : Ty}, P (.array e) → e.isVoid = false) (hr : c.symbols.Regular)
    (free : ∀ s ∈ p.sources, s.name.endsWith TypeName.arrayEnding = false) (hd : c.types[k]? = some d)
    (hx : x ∈ d.members) :
    (settingOf P c x).Listable := by
  obtain ⟨cd, e, m, y, hof⟩ := h.member hd hx
  have howner : x.method.owner = e.type := hof.declares.owner.trans hof.made.type.symm
  have owns : ∀ {i : Nat} {u : TypeDef}, c.module.types[i]? = some u → (settingOf P c x).scope.site.owns u.type = true := by
    intro i u hu
    refine decide_eq_true ?_
    show u.type.module = x.method.owner.module
    rw [howner, (h.coherent.shaped hu).module, (h.coherent.shaped hof.definition).module]
  refine {
    ok := h.setting_ok helem hd hx
    voidless := hv
    dynamic := h.coherent.dynamic
    isOpen := ?_
    ret := hof.declares.result
    field := fun {t f} hf => ?_
    method := fun {t r} hr => ?_
    ctor := fun {t r} hr => ?_
    delegate := fun {t D} hD => ?_
    arrays := h.entered_array free hr }
  · show c.module.isCreated x.method.owner = false
    rw [howner, Module.isCreated, Module.Shaped.def? h.coherent.shaped hof.definition]
    exact hof.made.isOpen
  · obtain ⟨i, u, hu, -, hmem⟩ := h.coherent.mem_fieldsOf hf
    rw [(h.coherent.shaped hu).field hmem]
    exact owns hu
  · obtain ⟨i, u, hu, -, z, hz, rfl⟩ := h.coherent.mem_allMethods hr
    rw [((h.coherent.shaped hu).method hz).1]
    exact owns hu
  · obtain ⟨i, u, hu, -, z, hz, rfl⟩ := h.coherent.mem_ctorsOf hr
    rw [((h.coherent.shaped hu).ctor hz).1]
    exact owns hu
  · obtain ⟨k', d', e', hd', hdel, -, -, he', hm⟩ := h.delegate_made hD
    obtain ⟨ctor, invoke, hc, -, -, -, -, -, -, -, heq⟩ := hm.routines
    rw [hdel] at heq
    cases heq
    have hn : e'.ctors[0]? = some ctor := by rw [hc]; rfl
    rw [((h.coherent.shaped he').ctors hn).1]
    exact owns he'

/-! ### One member -/

/-- A new body has the counts of a listing. -/
theorem counted_new (ret : Option Ty) : ({} : Draft).counted ret = {} := by
  simp [Draft.counted, depthBehind, depthAt, peakBehind]

section Member
variable (hΓ : (settingOf P c x).Listable) (h : Supplied P c d x) (hb : x.body.any Stmt.branches = false)
    (hs : c.symbols.Extends s) (ha : s.All P)
include hΓ h hs ha

include hb in
/-- Lowering a body without loops and choices comes to the same in a listing. -/
theorem lowering_follows : (settingOf P c x).Follows (lowering d x) { symbols := s } := by
  unfold lowering
  split
  · exact Setting.constructor_follows hΓ (h.ok.ctor ‹_›) h.inits hb h.names (start_sound hs ha)
  · exact Setting.statements_follows hΓ hb h.names (start_sound hs ha)

/-- A return that is added comes to the same in a listing. -/
theorem return_follows {w : Work} (hl : lowering d x (c.scopeOf x) { symbols := s } = .ok (true, w)) :
    (settingOf P c x).Follows (Lower.emit (.plain .ret)) w := by
  refine .of_accountable hΓ (.emit (e := .plain .ret) hΓ.dynamic rfl) (.emit rfl) fun u w' he => ?_
  obtain ⟨-, -, hcomplete⟩ := lowering_complete h hs ha hl
  exact (hcomplete rfl he).typed.accountable hΓ.voidless

end Member

/-! ### All members -/

/-- A member with its type, renamed. -/
def renamed (ρ : Renaming) (y : DeclaredType × Member) : DeclaredType × Member := (ρ.declaredType y.1, ρ.member y.2)

/-- Compilations that are alike, one into a module that can be run and one into a listing. Members have no loops and
    no choices, and their bodies can be lowered. -/
structure Paired (P : Ty → Prop) (ρ : Renaming) (c c' : Compilation) : Prop where
  alike : c.Alike ρ c'
  distinct : ρ.Distinct
  still : ρ.Still
  textual : c'.module.backend = .textual
  provided : Provided P c
  ready : c'.Ready
  listable : ∀ y ∈ pairs c.types, (settingOf P c y.2).Listable
  straight : ∀ y ∈ pairs c.types, y.2.body.any Stmt.branches = false

/-- Some members have the same bodies in both, up to renaming and with the counts of a listing, and the same types
    have been entered. -/
structure Lockstep (P : Ty → Prop) (ρ : Renaming) (c c' : Compilation) (done : List (DeclaredType × Member))
    (c₁ c₁' : Compilation)
    (f f' : Method → Draft) : Prop where
  left : Recorded (fun s => c.symbols.Extends s ∧ s.All P) c done f c₁
  right : Recorded c'.Reads c' (done.map (renamed ρ)) f' c₁'
  names : c₁.symbols.Entered ρ c₁'.symbols
  drafts : ∀ r, f' (ρ.method r) = ρ.draft ((f r).counted r.ret)

namespace Paired
variable (h : Paired P ρ c c') {f f' : Method → Draft} {done : List (DeclaredType × Member)}
include h

/-- A member's body is lowered in both in the same way. -/
theorem lowering (hy : (d, x) ∈ pairs c.types) (hs : c.symbols.Extends s) (ha : s.All P)
    (hk : s.Local ρ (Symbols.Entered ρ) (fun _ => True) s') :
    Agree (fun r r' => r'.1 = r.1 ∧ ((settingOf P c x).listed r.2).Matched ρ.whole (Symbols.Entered ρ) r'.2)
      (Compilation.lowering d x (c.scopeOf x) { symbols := s })
      (Compilation.lowering (ρ.declaredType d) (ρ.member x) (c'.scopeOf (ρ.member x)) { symbols := s' }) := by
  have hnew : (settingOf P c x).listed { symbols := s } = { symbols := s } := by
    rw [Setting.listed, Work.counted, counted_new]
  have hfollows := lowering_follows (h.listable _ hy) (h.provided.supplied _ hy) (h.straight _ hy) hs ha
  have hagrees := lowering_agrees (Symbols.Entered.naming ρ) (d := d) (x := x) (fun _ _ _ _ => trivial) (fun _ _ => trivial)
    ((h.alike.local h.still).scope h.distinct h.textual x) hk.work
  rw [Setting.Follows, hnew] at hfollows
  refine (hfollows.trans hagrees).mono ?_
  rintro r r' ⟨_, rfl, hr, hw⟩
  exact ⟨hr.symm, hw⟩

theorem known (hl : Lockstep P ρ c c' done c₁ c₁' f f') :
    c₁.symbols.Local ρ (Symbols.Entered ρ) (fun _ => True) c₁'.symbols :=
  h.alike.symbols.extended hl.left.symbols.1 hl.right.symbols.symbols hl.names

theorem memberBody (hl : Lockstep P ρ c c' done c₁ c₁' f f')
    (hr : Recordable (fun s => c.symbols.Extends s ∧ s.All P) c (done ++ [(d, x)]))
    (hr' : Recordable c'.Reads c' (done.map (renamed ρ) ++ [(ρ.declaredType d, ρ.member x)]))
    (hy : (d, x) ∈ pairs c.types) :
    Agree (fun w w' => ((settingOf P c x).listed w).Matched ρ.whole (Symbols.Entered ρ) w') (c₁.memberBody d x)
      (c₁'.memberBody (ρ.declaredType d) (ρ.member x)) := by
  have hscope := (h.alike.local h.still).scope h.distinct h.textual x
  have hlower := hl.left.lowerMember hr
  have hlower' := hl.right.lowerMember hr'
  have hlowering := h.lowering hy hl.left.symbols.1 hl.left.symbols.2 (h.known hl)
  rw [← hlower, ← hlower'] at hlowering
  refine hlowering.bind_ok ?_
  rintro ⟨_, w⟩ ⟨b, v⟩ ⟨rfl, hw⟩ hg -
  cases b with
  | false => exact .ok hw
  | true =>
    have hreturn := (return_follows (h.listable _ hy) (h.provided.supplied _ hy) hl.left.symbols.1 hl.left.symbols.2
      (hlower ▸ hg)).trans (Lower.Agrees.emit (.plain .ret) trivial hscope hw)
    dsimp only
    rw [hl.left.scopeOf, hl.right.scopeOf]
    refine hreturn.bind ?_
    rintro ⟨_, w'⟩ ⟨_, v'⟩ ⟨_, rfl, -, hw'⟩
    exact .ok hw'

theorem recordBody (hl : Lockstep P ρ c c' done c₁ c₁' f f')
    (hr : Recordable (fun s => c.symbols.Extends s ∧ s.All P) c (done ++ [(d, x)]))
    (hr' : Recordable c'.Reads c' ((done ++ [(d, x)]).map (renamed ρ))) (hy : (d, x) ∈ pairs c.types) :
    Agree (fun c₂ c₂' => ∃ f f', Lockstep P ρ c c' (done ++ [(d, x)]) c₂ c₂' f f') (Compilation.recordBody d c₁ x)
      (Compilation.recordBody (ρ.declaredType d) c₁' (ρ.member x)) := by
  have hdone : (done ++ [(d, x)]).map (renamed ρ) = done.map (renamed ρ) ++ [(ρ.declaredType d, ρ.member x)] :=
    List.map_append
  rw [hdone] at hr'
  have hbody := (h.memberBody hl hr hr' hy).mono_ok fun w w' hm hw hw' => And.intro hm (And.intro hw hw')
  refine Agree.inside (hbody.map ?_) _ _
  rintro w w' ⟨hm, hw, hw'⟩
  have hright := hl.right.add hr' ((hl.right.memberBody hr').mp hw')
  rw [← hdone] at hright
  refine ⟨_, _, hl.left.add hr ((hl.left.memberBody hr).mp hw), hright, hm.names, fun r => ?_⟩
  show (if ρ.method r = ρ.method x.method then w'.draft else f' (ρ.method r)) =
      ρ.draft ((if r = x.method then w.draft else f r).counted r.ret)
  by_cases he : r = x.method
  · rw [if_pos (congrArg ρ.method he), if_pos he, he]
    exact hm.draft
  · rw [if_neg fun hr => he (h.distinct.method_inj.mp hr), if_neg he, hl.drafts]

theorem recordEach {ms : List Member} (hl : Lockstep P ρ c c' done c₁ c₁' f f')
    (hr : Recordable (fun s => c.symbols.Extends s ∧ s.All P) c (done ++ ms.map fun x => (d, x)))
    (hr' : Recordable c'.Reads c' ((done ++ ms.map fun x => (d, x)).map (renamed ρ)))
    (hy : ∀ x ∈ ms, (d, x) ∈ pairs c.types) :
    Agree (fun c₂ c₂' => ∃ f f', Lockstep P ρ c c' (done ++ ms.map fun x => (d, x)) c₂ c₂' f f')
      (ms.foldlM (Compilation.recordBody d) c₁)
        ((ms.map ρ.member).foldlM (Compilation.recordBody (ρ.declaredType d)) c₁') := by
  induction ms generalizing done f f' c₁ c₁' with
  | nil => exact .ok ⟨f, f', by simpa using hl⟩
  | cons x ms ih =>
    rw [List.map_cons, List.append_cons] at hr hr' ⊢
    rw [List.map_cons, List.foldlM_cons, List.foldlM_cons]
    have first :=
      h.recordBody hl hr.of_append (by rw [List.map_append] at hr'; exact hr'.of_append) (hy x List.mem_cons_self)
    refine first.bind ?_
    rintro c₂ c₂' ⟨g, g', hg⟩
    exact ih hg hr hr' fun y hm => hy y (List.mem_cons_of_mem _ hm)

theorem recordTypes {ds : List DeclaredType} (hl : Lockstep P ρ c c' done c₁ c₁' f f')
    (hr : Recordable (fun s => c.symbols.Extends s ∧ s.All P) c (done ++ pairs ds))
    (hr' : Recordable c'.Reads c' ((done ++ pairs ds).map (renamed ρ))) (hy : ∀ y ∈ pairs ds, y ∈ pairs c.types) :
    Agree (fun c₂ c₂' => ∃ f f', Lockstep P ρ c c' (done ++ pairs ds) c₂ c₂' f f')
      (ds.foldlM recordBodies c₁) ((ds.map ρ.declaredType).foldlM recordBodies c₁') := by
  induction ds generalizing done f f' c₁ c₁' with
  | nil => exact .ok ⟨f, f', by simpa [pairs] using hl⟩
  | cons d ds ih =>
    have hpairs : pairs (d :: ds) = (d.members.map fun x => (d, x)) ++ pairs ds := rfl
    rw [hpairs, ← List.append_assoc] at hr hr' ⊢
    rw [hpairs] at hy
    rw [List.map_cons, List.foldlM_cons, List.foldlM_cons]
    refine Agree.bind (h.recordEach hl hr.of_append (by rw [List.map_append] at hr'; exact hr'.of_append) fun x hx => ?_) ?_
    · exact hy _ (List.mem_append_left _ (List.mem_map_of_mem hx))
    · rintro c₂ c₂' ⟨g, g', hg⟩
      exact ih hg hr hr' fun y hm => hy y (List.mem_append_right _ hm)

/-- All members have the same bodies in both. -/
theorem generate :
    Logged.Agrees (fun c₁ c₁' => ∃ f f', Lockstep P ρ c c' (pairs c.types) c₁ c₁' f f') c.generate c'.generate := by
  have hr := h.provided.recordable
  have hr' : Recordable c'.Reads c' ((pairs c.types).map (renamed ρ)) := by
    have hpairs := pairs_renamed (ρ := ρ) c.types
    rw [← h.alike.types] at hpairs
    rw [show (pairs c.types).map (renamed ρ) = pairs c'.types from hpairs.symm]
    exact h.ready.recordable
  have hstart : Lockstep P ρ c c' [] c c' (fun _ => {}) fun _ => {} := by
    refine ⟨.none hr ⟨.refl _, h.provided.admits⟩, .none hr' ⟨.refl _, .refl _⟩, h.alike.symbols.names, fun r => ?_⟩
    rw [counted_new]
    simp [Renaming.draft]
  refine .of_runs (generate_runs c) (generate_runs c') ?_
  rw [h.alike.types]
  exact h.recordTypes hstart (by simpa using hr) (by simpa using hr') fun _ hy => hy

end Paired

end Compilation
end CilCompiler
