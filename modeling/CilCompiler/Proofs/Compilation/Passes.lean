import CilCompiler.Compiler
import CilCompiler.Proofs.Compilation.Finished
import CilCompiler.Proofs.Compilation.Ready

/-!
The passes together. A compilation that succeeds goes through the states that the passes are about one after
another; the module it leaves holds the catalog and the finished types of the program.

What a compilation does to its symbols. They change through a few operations only, whatever the program: types and
members are entered, phases end, and array types are added when their names are looked up. What each of these keeps
(`Symbols.Invariant`) holds of the symbols of every compilation if it holds of the catalog (`Invariant.prepared`,
`Invariant.compile`). -/

namespace CilCompiler
namespace Compilation

/-- The passes up to the one that generates bodies. -/
def generated (p : Program) (c : Compilation) : Logged Compilation := do
  let c ← pass .never "builtins" (.ofExcept c.enterCatalog)
  let c ← pass .never "declare" (declare p c)
  let c ← pass .never "thunks" c.describe
  pass .never "generate" c.generate

theorem passes_eq (p : Program) (c : Compilation) :
    passes p c = (do
      let c ← generated p c
      pass .never "finalize" (.ofExcept c.finish)) := by
  simp only [passes, passesUnder, generated, bind_assoc]; rfl

/-- The passes ahead of those for bodies. -/
def prepared (p : Program) (c : Compilation) : Logged Compilation := do
  let c ← pass .never "builtins" (.ofExcept c.enterCatalog)
  let c ← pass .never "declare" (declare p c)
  pass .never "thunks" c.describe

theorem generated_eq (p : Program) (c : Compilation) :
    generated p c = (do
      let c ← prepared p c
      pass .never "generate" c.generate) := by
  simp only [generated, prepared, bind_assoc]

/-- Whatever a program is compiled into, its members are declared before their bodies are generated. -/
theorem prepared_ready {p : Program} {backend : Backend} {name runtime : Text} {c' : Compilation}
    (h : (prepared p (start (Module.new 0 backend name runtime))).Gives c') : c'.Ready := by
  obtain ⟨c₁, hcatalog, h⟩ := h.of_bind
  obtain ⟨c₂, hdeclare, hdescribe⟩ := h.of_bind
  have houtlined := enterCatalog_outlined (Module.bodied_new (Q := (· = {})) rfl 0 backend name runtime)
    hcatalog.of_pass.of_except
  exact (houtlined.declare hdeclare.of_pass).describe hdescribe.of_pass

/-- The types of a program, before any of their members. -/
def laidOut (p : Program) (c : Compilation) : Except Fault Compilation := do
  let c ← c.enterCatalog
  let symbols ← c.symbols.beginDeclarations
  { c with symbols }.defineTypes p

/-- What the passes ahead of bodies go through: types are laid out, and members are declared for whatever kind of types the
    program's names stand for. -/
theorem prepared_described {p : Program} {name runtime : Text} {c : Compilation}
    (h : (prepared p (start (Module.new 0 .dynamic name runtime))).Gives c) :
    ∃ c₀, laidOut p (start (Module.new 0 .dynamic name runtime)) = .ok c₀ ∧ c₀.Laid p.sources ∧
      ∀ {P : Ty → Prop},
      (∀ {i : Nat} {e : TypeDef}, c₀.module.types[i]? = some e → P e.type) →
      (∀ n ∈ p.typeNames, c₀.symbols.Names P n) → Described P p c₀ c := by
  obtain ⟨c₁, hcatalog, h1⟩ := h.of_bind
  obtain ⟨c₂, hdeclare, hdescribe⟩ := h1.of_bind
  obtain ⟨s, hsources, h3⟩ := hdeclare.of_pass.of_bind
  obtain ⟨c₀, hdefine, h4⟩ := h3.of_bind
  have hlaid : laidOut p (start (Module.new 0 .dynamic name runtime)) = .ok c₀ :=
    bind_eq_ok.mpr ⟨c₁, hcatalog.of_pass.of_except, bind_eq_ok.mpr ⟨s, hsources.of_except, hdefine.of_except⟩⟩
  obtain ⟨n, rfl⟩ := enterCatalog_new hcatalog.of_pass.of_except
  obtain ⟨⟨ds, c₄⟩, hmembers, hentry⟩ := h4.of_bind
  obtain ⟨_, -, h5⟩ := bind_eq_ok.mp hsources.of_except
  cases h5
  have laid := (laid_host n).defineTypes hdefine.of_except
  exact ⟨c₀, hlaid, laid, fun hP hn => laid.described hP hn hmembers hentry.of_except hdescribe.of_pass⟩

/-- Bodies are generated from what the passes ahead of them leave. -/
theorem generated_described {p : Program} {name runtime : Text} {c' : Compilation}
    (h : (generated p (start (Module.new 0 .dynamic name runtime))).Gives c') :
    ∃ c₀ c, laidOut p (start (Module.new 0 .dynamic name runtime)) = .ok c₀ ∧ c₀.Laid p.sources ∧ c.generate.Gives c' ∧
      ∀ {P : Ty → Prop},
      (∀ {i : Nat} {e : TypeDef}, c₀.module.types[i]? = some e → P e.type) →
      (∀ n ∈ p.typeNames, c₀.symbols.Names P n) → Described P p c₀ c := by
  rw [generated_eq] at h
  obtain ⟨c, hprepared, hgenerate⟩ := h.of_bind
  obtain ⟨c₀, hlaid, laid, hdescribed⟩ := prepared_described hprepared
  exact ⟨c₀, c, hlaid, laid, hgenerate.of_pass, hdescribed⟩

theorem compile_gives {p : Program} {backend : Backend} {name runtime : Text} {isCanceled : Bool} {c' : Compilation}
    (h : (compile p backend name runtime isCanceled).Gives c') :
    isCanceled = false ∧ ∃ c, (generated p (start (Module.new 0 backend name runtime))).Gives c ∧ c.finish = .ok c' := by
  have h := h.of_echoes (runUnder_echoes _ _ p)
  cases isCanceled with
  | true =>
    obtain ⟨j, j', h⟩ := h
    cases h
  | false =>
    have h : (passes p (start (Module.new 0 backend name runtime))).Gives c' := h
    rw [passes_eq] at h
    obtain ⟨c, h1, h2⟩ := h.of_bind
    exact ⟨rfl, c, h1, h2.of_pass.of_except⟩

variable {P : Ty → Prop} {p : Program} {c₀ c c₁ c₂ : Compilation} {f : Method → Draft}

theorem Made.type {s : Symbols} {roles : Roles} {d : DeclaredType} {e : TypeDef} (h : Made P s roles d e) :
    e.type = d.type := by
  unfold Made at h
  split at h
  · exact h.type
  · exact h.type

theorem Made.isOpen {s : Symbols} {roles : Roles} {d : DeclaredType} {e : TypeDef} (h : Made P s roles d e) :
    e.isCreated = false := by
  unfold Made at h
  split at h
  · exact h.isOpen
  · exact h.isOpen

theorem Described.index (h : Described P p c₀ c) {k : Nat} {d : DeclaredType} (hd : c.types[k]? = some d) :
    index d = Module.hostCount + k := by
  obtain ⟨-, e, he, hm⟩ := h.made hd
  rw [Compilation.index, ← Made.type hm]
  exact (h.coherent.shaped he).index

theorem Described.length (h : Described P p c₀ c) : c.types.length = p.sources.length := by
  rw [← h.sources, List.length_map]

/-- Definitions are of the catalog, or made for a source of the program. -/
theorem Described.definition (h : Described P p c₀ c) {i : Nat} {e : TypeDef} (he : c.module.types[i]? = some e) :
    (i < Module.hostCount ∧ e ∈ hostModule.types.toList) ∨ ∃ k d, i = Module.hostCount + k ∧ c.types[k]? = some d ∧
      d.source ∈ p.sources ∧
      d.source.TypedBy d.type ∧ Made P c₀.symbols hostRoles d e := by
  by_cases hi : i < Module.hostCount
  · rw [h.host i hi] at he
    exact .inl ⟨hi, Array.mem_toList_iff.mpr (Array.mem_of_getElem? he)⟩
  · have hlt := (Array.getElem?_eq_some_iff.mp he).1
    have hsize := h.size
    have hlen := h.length
    have hk := List.getElem?_eq_getElem (show i - Module.hostCount < c.types.length by omega)
    obtain ⟨htyped, e', he', hm⟩ := h.made hk
    rw [show Module.hostCount + (i - Module.hostCount) = i by omega, he] at he'
    cases he'
    exact .inr ⟨_, _, by omega, hk, h.sources ▸ List.mem_map_of_mem (List.mem_of_getElem? hk), htyped, hm⟩

/-- The places of declared types are those behind the catalog. -/
theorem Described.mem_index (h : Described P p c₀ c) {i : Nat} (hi : i < c.module.types.size) :
    i ∈ c.types.map Compilation.index ↔ Module.hostCount ≤ i := by
  constructor
  · intro hm
    obtain ⟨d, hd, rfl⟩ := List.mem_map.mp hm
    obtain ⟨k, hk⟩ := List.mem_iff_getElem?.mp hd
    rw [h.index hk]
    omega
  · intro hle
    have hsize := h.size
    have hlen := h.length
    have hk : c.types[i - Module.hostCount]? = some c.types[i - Module.hostCount] := List.getElem?_eq_getElem (by omega)
    refine List.mem_map.mpr ⟨_, List.mem_of_getElem? hk, ?_⟩
    rw [h.index hk]
    omega

theorem Described.index_nodup (h : Described P p c₀ c) : (c.types.map Compilation.index).Nodup :=
  Compilation.index_nodup h.index

/-- A module with bodies still has the catalog as it was. -/
theorem Generated.host (h : Described P p c₀ c) (hg : Generated P c (pairs c.types) f c₁) {e : TypeDef}
    (he : e ∈ hostModule.types.toList) : e.withDrafts f = e := by
  obtain ⟨i, hi, hie⟩ := h.host_def he
  have same : ∀ x ∈ e.routines, x.withDraft f = x := by
    intro x hx
    have hdraft := h.drafts hie x hx
    have howner : x.method.owner.declared.index = i := (h.coherent.shaped hie).placed.owner hx
    have hf : f x.method = {} := by
      refine hg.rest _ fun y hy heq => ?_
      obtain ⟨d, hd, hy⟩ := List.mem_flatMap.mp hy
      obtain ⟨z, hz, rfl⟩ := List.mem_map.mp hy
      obtain ⟨k, hk⟩ := List.mem_iff_getElem?.mp hd
      obtain ⟨cd, e', m, y, hof⟩ := h.member hk hz
      have := h.index hk
      rw [Compilation.index, ← hof.declares.owner] at this
      have heq : z.method = x.method := heq
      rw [heq, howner] at this
      omega
    rw [Routine.withDraft, hf, ← hdraft]
  unfold TypeDef.withDrafts
  rw [Array.map_congr_left (g := fun x => x) fun x hm => same x (List.mem_append_left _ (Array.mem_toList_iff.mpr hm)),
    Array.map_congr_left (g := fun x => x) fun x hm => same x (List.mem_append_right _ (Array.mem_toList_iff.mpr hm)),
    Array.map_id_fun', id_eq, id_eq]

/-- What finishing leaves: the catalog, and the finished definitions of declared types. -/
theorem Generated.finish (h : Described P p c₀ c) (hg : Generated P c (pairs c.types) f c₁) (hf : c₁.finish = .ok c₂) :
    c₂ = { c₁ with module := { c₁.module with types := c₂.module.types } } ∧
      (∀ {i : Nat} {e : TypeDef}, c.module.types[i]? = some e →
        c₂.module.types[i]? = some (if i < Module.hostCount then e else (e.withDrafts f).finished)) ∧
      c₂.module.types.size = c.module.types.size ∧
      ∀ {k : Nat} {e : TypeDef}, c.module.types[Module.hostCount + k]? = some e → (e.withDrafts f).Finishable := by
  have htypes : c₁.types = c.types := by rw [hg.eq]
  have hmodule : c₁.module = c.module.withDrafts f := by rw [hg.eq]
  have hget : ∀ i : Nat, c₁.module.types[i]? = (c.module.types[i]?).map (TypeDef.withDrafts f) := by
    intro i
    rw [hmodule]
    exact Module.types_withDrafts _ _ _
  have hshaped : c₁.module.Shaped := by
    rw [hmodule]
    exact Module.Shaped.withDrafts h.coherent.shaped f
  have hdyn : c₁.module.backend = .dynamic := by
    rw [hmodule]
    exact h.coherent.dynamic
  unfold Compilation.finish at hf
  rw [htypes] at hf
  have defs : ∀ d ∈ c.types, ∃ e, c₁.module.types[Compilation.index d]? = some e ∧ e.type = d.type := by
    intro d hd
    obtain ⟨k, hk⟩ := List.mem_iff_getElem?.mp hd
    obtain ⟨-, e, he, hm⟩ := h.made hk
    refine ⟨e.withDrafts f, ?_, (Made.type hm : e.type = d.type)⟩
    rw [hget, h.index hk, he]
    rfl
  obtain ⟨hrest, hfinal, hfin⟩ := finish_ok hshaped hdyn h.index_nodup defs hf
  refine ⟨hrest, fun {i e} he => ?_, ?_, fun {k e} he => ?_⟩
  · have hlt := (Array.getElem?_eq_some_iff.mp he).1
    rw [hfinal, hget, he, Option.map_some, Option.map_some]
    by_cases hi : i < Module.hostCount
    · rw [if_pos hi, if_neg (by rw [h.mem_index hlt]; omega)]
      rw [h.host i hi] at he
      rw [hg.host h (Array.mem_toList_iff.mpr (Array.mem_of_getElem? he))]
    · rw [if_neg hi, if_pos ((h.mem_index hlt).mpr (by omega))]
  · have hsize : ∀ i : Nat, c₂.module.types[i]? = none ↔ c.module.types[i]? = none := by
      intro i
      rw [hfinal, hget]
      simp
    have h1 := hsize c.module.types.size
    have h2 := hsize c₂.module.types.size
    simp only [Array.getElem?_eq_none_iff, Nat.le_refl, iff_true, true_iff] at h1 h2
    omega
  · have hlt := (Array.getElem?_eq_some_iff.mp he).1
    obtain ⟨d, hd, hidx⟩ := List.mem_map.mp ((h.mem_index hlt).mpr (by omega))
    exact hfin d hd _ (by rw [hget, hidx, he]; rfl)

end Compilation

/-- A property that entering symbols and looking up types keep. Declared types have names and are no arrays, and all
    parameters of methods have types. -/
structure Symbols.Invariant (P : Symbols → Prop) : Prop where
  beginDeclarations {s s'} : P s → s.beginDeclarations = .ok s' → P s'
  registerType {s s' t} : P s → t.isArray = false → t.name.isEmpty = false → s.registerType t = .ok s' → P s'
  registerField {s s' f} : P s → s.registerField f = .ok s' → P s'
  registerMethod {s s' m} : P s → (∀ p ∈ m.params, ∃ t, p = some t) → s.registerMethod m = .ok s' → P s'
  registerConstructor {s s' m} : P s → s.registerConstructor m = .ok s' → P s'
  registerDelegate {s s' d} : P s → s.registerDelegate d = .ok s' → P s'
  freeze {s s'} : P s → s.freeze = .ok s' → P s'
  lookup {s s' n t} : P s → s.lookup n = .ok (t, s') → P s'

namespace Symbols.Invariant
open Compilation
variable {P : Symbols → Prop} {c c' : Compilation} (hP : Invariant P)
include hP

/-- Lowering looks names up and declares nothing. -/
theorem labelwise : Labelwise (@Lower.Keeps fun w w' => P w.symbols → P w'.symbols) where
  toStepwise := by
    refine Lower.Keeps.stepwise (fun w h => h) (fun h h' hr => h' (h hr)) (fun name c w w' t h hr => ?_)
      (fun name t c w w' l h hr => ?_) fun {e} _ c w w' u h hr => ?_
    · obtain ⟨s, hs, rfl⟩ := Lower.lookupType_ok.mp h
      exact hP.lookup hr hs
    · obtain ⟨-, rfl⟩ := Lower.declareLocal_ok h
      exact hr
    · rw [Lower.emit_symbols h]
      exact hr
  defineLabel := by
    intro c w w' l h hr
    obtain ⟨⟨l', d⟩, -, he⟩ := map_eq_ok.mp h
    cases he
    exact hr
  markLabel l := by
    intro c w w' u h hr
    obtain ⟨d, -, he⟩ := map_eq_ok.mp h
    cases he
    exact hr
  branch _ _ := by
    intro c w w' u h hr
    rw [Lower.emit_symbols h]
    exact hr

theorem step {t : Ty} (h : Step t c c') (hc : P c.symbols) : P c'.symbols := by
  cases h with
  | lookup h =>
    obtain ⟨⟨u, s⟩, hs, h⟩ := bind_eq_ok.mp h
    cases h
    exact hP.lookup hc hs
  | registerField _ h => exact hP.registerField hc h
  | registerMethod _ hp h => exact hP.registerMethod hc hp h
  | registerConstructor _ h => exact hP.registerConstructor hc h
  | defineField | defineMethod | defineConstructor | defineParameter | setImplementation => exact hc

theorem defineType {src : Declaration} {attrs : TypeAttributes} {base : Option Ty} (hc : P c.symbols)
    (h : c.defineType src attrs base = .ok c') : P c'.symbols := by
  unfold Compilation.defineType at h
  dsimp only at h
  split at h
  · cases h
  rename_i hname
  split at h
  · cases h
  obtain ⟨⟨t, m⟩, h1, h⟩ := bind_eq_ok.mp h
  obtain ⟨s, h2, h⟩ := bind_eq_ok.mp h
  cases h
  obtain ⟨ht, -, -, harray, -⟩ := Module.defineType_ok h1
  exact hP.registerType hc harray (by rw [ht]; simpa using hname) h2

omit hP in
theorem foldlM {α : Type} {f : Compilation → α → Except Fault Compilation} {l : List α}
    (step : ∀ {c c' : Compilation} {a : α}, P c.symbols → f c a = .ok c' → P c'.symbols) (hc : P c.symbols)
    (h : l.foldlM f c = .ok c') : P c'.symbols := by
  induction l generalizing c with
  | nil =>
    cases h
    exact hc
  | cons a l ih =>
    obtain ⟨c₁, h1, h2⟩ := foldlM_cons_ok h
    exact ih (step hc h1) h2

theorem declareTypes {ds ds' : List DeclaredType} (hc : P c.symbols) (h : (c.declareTypes ds).Gives (ds', c')) :
    P c'.symbols := by
  induction ds generalizing c ds' with
  | nil =>
    cases h.of_pure
    exact hc
  | cons d ds ih =>
    obtain ⟨⟨d₁, c₁⟩, h1, h⟩ := h.of_bind
    obtain ⟨⟨rest, c₂⟩, h2, h⟩ := h.of_bind
    cases h.of_pure
    have hsteps := declareType_steps h1.of_declareNext
    exact ih (hsteps.keeps (P := fun c => P c.symbols) (fun hstep hc => hP.step hstep hc) hc) h2

omit hP in
theorem considerEntry {x : Member} (hc : P c.symbols) (h : c.considerEntry x = .ok c') : P c'.symbols := by
  unfold Compilation.considerEntry at h
  dsimp only at h
  split at h
  · cases h
    exact hc
  · split at h
    · cases h
    · split at h
      · cases h
      · obtain ⟨m, -, h⟩ := bind_eq_ok.mp h
        cases h
        exact hc

theorem declare {p : Program} (hc : P c.symbols) (h : (declare p c).Gives c') : P c'.symbols := by
  obtain ⟨s, h1, h⟩ := h.of_bind
  obtain ⟨c₁, h2, h⟩ := h.of_bind
  obtain ⟨⟨ds, c₂⟩, h3, hentry⟩ := h.of_bind
  obtain ⟨c₃, hdelegates, hclasses⟩ := bind_eq_ok.mp h2.of_except
  have hentry := hentry.of_except
  unfold findEntry at hentry
  have hbegun : P s := hP.beginDeclarations hc h1.of_except
  have hdefined := foldlM hP.defineType (foldlM hP.defineType hbegun hdelegates) hclasses
  have hmembers := hP.declareTypes hdefined h3
  exact foldlM (c := { c₂ with types := ds }) considerEntry hmembers hentry

theorem describeDelegates {ds : List DeclaredType} (hc : P c.symbols) (h : (c.describeDelegates ds).Gives c') :
    P c'.symbols := by
  induction ds generalizing c with
  | nil =>
    rw [← h.of_pure]
    exact hc
  | cons d ds ih =>
    unfold Compilation.describeDelegates at h
    split at h
    · exact ih hc h
    · obtain ⟨s, h1, h⟩ := h.of_bind
      obtain ⟨_, -, h⟩ := h.of_bind
      obtain ⟨_, -, h⟩ := h.of_bind
      exact ih (hP.registerDelegate hc h1.of_except) h

theorem describe (hc : P c.symbols) (h : c.describe.Gives c') : P c'.symbols := by
  obtain ⟨c₁, hdelegates, h⟩ := h.of_bind
  obtain ⟨s, hfreeze, h⟩ := h.of_bind
  cases h.of_pure
  exact hP.freeze (hP.describeDelegates hc hdelegates) hfreeze.of_except

/-- What the passes ahead of bodies leave. -/
theorem prepared {p : Program} {m : Module} (hcatalog : ∀ {c}, enterCatalog (start m) = .ok c → P c.symbols)
    (h : (prepared p (start m)).Gives c) : P c.symbols := by
  obtain ⟨c₁, h1, h⟩ := h.of_bind
  obtain ⟨c₂, h2, h3⟩ := h.of_bind
  exact hP.describe (hP.declare (hcatalog h1.of_pass.of_except) h2.of_pass) h3.of_pass

omit hP in
theorem finishType {d : DeclaredType} (hc : P c.symbols) (h : c.finishType d = .ok c') : P c'.symbols := by
  unfold Compilation.finishType at h
  split at h
  · cases h
    exact hc
  · cases h

/-- What a whole compilation leaves. -/
theorem compile {p : Program} {backend : Backend} {name runtime : Text} {isCanceled : Bool}
    (hcatalog : ∀ {c}, enterCatalog (start (Module.new 0 backend name runtime)) = .ok c → P c.symbols)
    (h : (compile p backend name runtime isCanceled).Gives c) : P c.symbols := by
  obtain ⟨-, c₁, hgenerated, hfinish⟩ := compile_gives h
  rw [generated_eq] at hgenerated
  obtain ⟨c₂, hprepared, hgenerate⟩ := hgenerated.of_bind
  have hready := prepared_ready hprepared
  have hrecordable : Recordable P c₂ (pairs c₂.types) :=
    ⟨hready.blank, hready.has, hready.distinct, fun y _ s hs b w hl => by
      unfold lowering at hl
      split at hl
      · exact hP.labelwise.constructor _ _ hl hs
      · exact hP.labelwise.statements _ hl hs⟩
  obtain ⟨f, hf⟩ := generate_recorded hrecordable (hP.prepared hcatalog hprepared) hgenerate.of_pass
  exact foldlM finishType hf.symbols hfinish

end Symbols.Invariant
end CilCompiler
