import CilCompiler.Proofs.Compilation.Sealed
import CilCompiler.Proofs.Renaming.Supplied
import CilCompiler.Proofs.Reordering.Prepared

/-! Programs whose declarations are permuted. Each member is lowered in the setting of the renamed one, and its code
    is the renamed code whatever arrays have been entered before on either side; so bodies are generated in any order
    of the types (`Moved.generate`). Where a program compiles, it compiles with its classes and its delegates in any
    order: each type is the same, at another place, and a listing has the same class blocks in another order
    (`declarations_in_any_order`). -/

namespace CilCompiler

variable {ρ : Renaming}

/-! ### Drafts -/

theorem Renaming.withDraft_routine {f f' : Method → Draft} (hf : ∀ r, f' (ρ.method r) = ρ.draft (f r)) (x : Routine) :
    (ρ.routine x).withDraft f' = ρ.routine (x.withDraft f) := by
  have hdraft : f' (ρ.routine x).method = ρ.draft (f x.method) := hf x.method
  rw [Routine.withDraft, hdraft]
  rfl

theorem Renaming.withDrafts_typeDef {f f' : Method → Draft} (hf : ∀ r, f' (ρ.method r) = ρ.draft (f r)) (d : TypeDef) :
    (ρ.typeDef d).withDrafts f' = ρ.typeDef (d.withDrafts f) := by
  simp [TypeDef.withDrafts, Renaming.typeDef, Function.comp_def, Renaming.withDraft_routine hf]

theorem Module.type?_withDrafts (m : Module) (f : Method → Draft) (n : Text) : (m.withDrafts f).type? n = m.type? n := by
  have types : (m.withDrafts f).types.map TypeDef.type = m.types.map TypeDef.type := by
    rw [Module.withDrafts, Array.map_map]
    rfl
  rw [Module.type?_eq, types, Module.type?_eq]

/-- Renamed bodies are recorded in a renamed module. -/
theorem Module.Local.withDrafts {S : Ty → Prop} {m m' : Module} {f f' : Method → Draft} (h : m.Local ρ S m')
    (hf : ∀ r, f' (ρ.method r) = ρ.draft (f r)) : (m.withDrafts f).Local ρ S (m'.withDrafts f') where
  places := h.places
  id := h.id
  void := by rw [type?_withDrafts, type?_withDrafts, h.void]
  entry := h.entry
  own {t} ht := by
    rw [def?_withDrafts, def?_withDrafts, h.own ht, Option.map_map, Option.map_map]
    congr 1
    funext d
    exact Renaming.withDrafts_typeDef hf d

namespace Compilation
variable {c c₁ c' : Compilation} {d : DeclaredType} {x : Member} {D : Draft} {s s' : Symbols}

/-! ### Symbols -/

/-- Both keep knowing the same while arrays are entered. -/
theorem Moved.reads (h : c.Moved ρ (Symbols.Linked ρ) c') (hs : c.Reads s) (hs' : c'.Reads s') :
    s.Local ρ (Symbols.Linked ρ) (fun _ => True) s' :=
  h.known.symbols.extended hs.symbols hs'.symbols (h.known.symbols.names.of_sameNames hs.names hs'.names)

/-! ### Members -/

/-- None of the identifiers in a member's body and in the initial values of its type is the name of an array. -/
structure Plain (d : DeclaredType) (x : Member) : Prop where
  inits : ∀ z ∈ d.inits, ∀ n ∈ z.2.identifiers, TypeName.elem? n = none
  body : ∀ n ∈ Stmt.identifiersAll x.body, TypeName.elem? n = none

theorem plain_renamed : Plain (ρ.declaredType d) (ρ.member x) ↔ Plain d x := by
  have inits : (∀ z ∈ (ρ.declaredType d).inits, ∀ n ∈ z.2.identifiers, TypeName.elem? n = none) ↔
      ∀ z ∈ d.inits, ∀ n ∈ z.2.identifiers, TypeName.elem? n = none := List.forall_mem_map
  exact ⟨fun h => ⟨inits.mp h.inits, h.body⟩, fun h => ⟨inits.mpr h.inits, h.body⟩⟩

/-- The identifiers of a member are among those of the program. -/
theorem Described.Of.plain {P : Ty → Prop} {p : Program} {k : Nat} {cd : ClassDecl} {e : TypeDef}
    {m : Bool × MethodDecl} {y : Routine}
    (h : Described.Of P p s c k d x cd e m y) (hn : ∀ n ∈ p.identifiers, TypeName.elem? n = none) : Plain d x := by
  have hcd : ∀ n ∈ cd.identifiers, TypeName.elem? n = none := fun n hmem => hn n (List.mem_flatMap.mpr ⟨cd, h.mem, hmem⟩)
  simp only [ClassDecl.identifiers, List.forall_mem_append, List.forall_mem_flatMap] at hcd
  obtain ⟨⟨hfields, hctors⟩, hmethods⟩ := hcd
  refine ⟨fun z hz => ?_, ?_⟩
  · obtain ⟨-, -, f, hf, hinit⟩ := h.made.inits z hz
    rw [hinit]
    exact hfields f hf
  · rcases h.body_mem with he | ⟨ctor, hc, he⟩ | ⟨method, hm, he⟩
    · rw [he]
      exact List.forall_mem_nil _
    · rw [he]
      exact hctors ctor hc
    · rw [he]
      exact hmethods method hm

/-- Whatever a program is compiled into, its types and members are the declared ones, but for the assembly of the
    catalog. -/
theorem prepared_types {p : Program} {backend : Backend} {name runtime : Text}
    (h : (prepared p (start (Module.new 0 backend name runtime))).Gives c) :
    ∃ c₀ c₁, ∃ ρ : Renaming, Described (fun _ => True) p c₀ c₁ ∧ ρ.Still ∧ c.types = c₁.types.map ρ.declaredType := by
  have run : ∀ {c : Compilation}, (prepared p (start (Module.new 0 .dynamic name runtime))).Gives c →
      ∃ c₀, Described (fun _ => True) p c₀ c := by
    intro c h
    obtain ⟨c₀, -, -, hdescribed⟩ := prepared_described h
    exact ⟨c₀, hdescribed (fun _ => trivial) fun n _ _ _ _ _ _ _ => ⟨trivial, fun _ => trivial⟩⟩
  cases backend with
  | dynamic =>
    obtain ⟨c₀, hdescribed⟩ := run h
    exact ⟨c₀, c, .refl, hdescribed, fun _ => rfl, by simp [funext Renaming.declaredType_refl]⟩
  | textual =>
    obtain ⟨c₁, h₁, halike⟩ := (prepared_listed p name runtime).gives_right h
    obtain ⟨c₀, hdescribed⟩ := run h₁
    exact ⟨c₀, c₁, _, hdescribed, Renaming.rehost_still, halike.types⟩

/-- The members of a program have its identifiers. -/
theorem prepared_plain {p : Program} {backend : Backend} {name runtime : Text}
    (hn : ∀ n ∈ p.identifiers, TypeName.elem? n = none)
    (h : (prepared p (start (Module.new 0 backend name runtime))).Gives c) : ∀ y ∈ pairs c.types, Plain y.1 y.2 := by
  obtain ⟨c₀, c₁, ρ, hdescribed, -, htypes⟩ := prepared_types h
  intro y hy
  rw [htypes, pairs_renamed] at hy
  obtain ⟨⟨d, x⟩, hmem, rfl⟩ := List.mem_map.mp hy
  obtain ⟨hd, hx⟩ := Compilation.mem_pairs.mp hmem
  obtain ⟨k, hk⟩ := List.mem_iff_getElem?.mp hd
  obtain ⟨_, _, _, _, hof⟩ := hdescribed.member hk hx
  exact plain_renamed.mpr (hof.plain hn)

/-- The types of a program are at places of their own. -/
theorem prepared_places {p : Program} {backend : Backend} {name runtime : Text}
    (h : (prepared p (start (Module.new 0 backend name runtime))).Gives c) : (c.types.map index).Nodup := by
  obtain ⟨c₀, c₁, ρ, hdescribed, hstill, htypes⟩ := prepared_types h
  have same : c.types.map index = c₁.types.map index := by
    rw [htypes, List.map_map]
    exact List.map_congr_left fun d _ => hstill.index_ty d.type
  rw [same]
  exact hdescribed.index_nodup

/-- A member's code is the renamed one, whatever arrays have been entered before. -/
theorem Emits.moved (hρ : ρ.Distinct) (h : c.Moved ρ (Symbols.Linked ρ) c') (hs : c.Reads s)
    (hs' : c'.Reads s') (hp : Plain d x)
    (he : Emits (c.scopeOf x) d x { symbols := s } D) :
    Emits (c'.scopeOf (ρ.member x)) (ρ.declaredType d) (ρ.member x) { symbols := s' } (ρ.draft D) := by
  obtain ⟨b, w, w', hl, hret, rfl⟩ := he
  have hscope := h.known.scope hρ h.backend x
  have hlowering := lowering_agrees (Symbols.Linked.naming ρ) hp.inits hp.body hscope (h.reads hs hs').work
  obtain ⟨⟨_, v⟩, hl', rfl, hv⟩ := hlowering.of_ok hl
  rcases hret with ⟨rfl, rfl⟩ | ⟨rfl, hret⟩
  · exact ⟨false, v, v, hl', .inl ⟨rfl, rfl⟩, hv.draft.symm⟩
  · obtain ⟨⟨_, v'⟩, hret', -, hv'⟩ := (Lower.Agrees.emit (μ := ρ.whole) (.plain .ret) trivial hscope hv).of_ok hret
    exact ⟨true, v, v', hl', .inr ⟨rfl, hret'⟩, hv'.draft.symm⟩

/-- Lowering a member leaves one draft. -/
theorem Emits.unique {scope : Scope} {w₀ : Work} {D' : Draft} (h : Emits scope d x w₀ D)
    (h' : Emits scope d x w₀ D') : D' = D := by
  obtain ⟨b, w, v, hl, hret, rfl⟩ := h
  obtain ⟨b', w', v', hl', hret', rfl⟩ := h'
  cases hl.symm.trans hl'
  rcases hret with ⟨rfl, rfl⟩ | ⟨rfl, hret⟩
  · rcases hret' with ⟨-, rfl⟩ | ⟨hb, -⟩
    · rfl
    · cases hb
  · rcases hret' with ⟨hb, -⟩ | ⟨-, hret'⟩
    · cases hb
    · cases hret.symm.trans hret'
      rfl

/-! ### All members -/

theorem Moved.mem_pairs (h : c.Moved ρ (Symbols.Linked ρ) c') {y' : DeclaredType × Member} :
    y' ∈ pairs c'.types ↔ ∃ y ∈ pairs c.types, (ρ.declaredType y.1, ρ.member y.2) = y' := by
  have hperm : (pairs c'.types).Perm (pairs (c.types.map ρ.declaredType)) := h.types.flatMap_right _
  rw [hperm.mem_iff, pairs_renamed, List.mem_map]

/-- Bodies are generated on both sides, and each is the renamed one. -/
theorem Moved.generate (hρ : ρ.Distinct) (h : c.Moved ρ (Symbols.Linked ρ) c') (hr : c.Ready) (hr' : c'.Ready)
    (hp : ∀ y ∈ pairs c.types, Plain y.1 y.2) (hg : c.generate.Gives c₁) :
    ∃ c₁', c'.generate.Runs (.ok c₁') ∧ c₁.Moved ρ (Symbols.Linked ρ) c₁' := by
  obtain ⟨f, hf⟩ := hr.generate hg
  have emitting : ∀ {y : DeclaredType × Member}, y ∈ pairs c.types → ∀ {s' : Symbols}, c'.Reads s' →
      Emits (c'.scopeOf (ρ.member y.2)) (ρ.declaredType y.1) (ρ.member y.2) { symbols := s' } (ρ.draft (f y.2.method)) := by
    intro y hy s' hs'
    obtain ⟨s, hs, he⟩ := hf.emitted y hy
    exact he.moved hρ h hs hs' (hp y hy)
  obtain ⟨c₁', hg'⟩ := generate_emitting hr'.recordable ⟨.refl _, .refl _⟩ fun y' hy' s' hs' => by
    obtain ⟨y, hy, rfl⟩ := h.mem_pairs.mp hy'
    exact ⟨_, emitting hy hs'⟩
  obtain ⟨f', hf'⟩ := hr'.generate hg'.gives
  have drafts : ∀ r, f' (ρ.method r) = ρ.draft (f r) := by
    intro r
    by_cases hmem : ∃ y ∈ pairs c.types, y.2.method = r
    · obtain ⟨y, hy, rfl⟩ := hmem
      obtain ⟨s', hs', he'⟩ := hf'.emitted _ (h.mem_pairs.mpr ⟨y, hy, rfl⟩)
      exact (emitting hy hs').unique he'
    · rw [hf.rest r fun y hy hm => hmem ⟨y, hy, hm⟩, hf'.rest _ fun y' hy' hm => ?_]
      · simp [Renaming.draft]
      · obtain ⟨y, hy, rfl⟩ := h.mem_pairs.mp hy'
        exact hmem ⟨y, hy, hρ.method_inj.mp hm⟩
  refine ⟨c₁', hg', ?_⟩
  rw [hf.eq, hf'.eq]
  exact ⟨⟨h.reads hf.symbols hf'.symbols, h.known.module.withDrafts drafts, h.known.roles⟩, h.types, h.entry,
      h.backend, h.name, h.lines⟩

end Compilation

/-! ### Declarations in another order -/

open Renaming (reorder)

theorem Module.typeBlock_sealTypes (m : Module) (ts : List Ty) (t : Ty) : (m.sealTypes ts).typeBlock t = m.typeBlock t := by
  -- Whether a definition is finished is not written.
  have same : ∀ d : TypeDef, m.block (d.sealed m.backend) = m.block d := by
    intro d
    unfold Module.block
    cases hb : m.backend with
    | textual => rfl
    | dynamic => rfl
  have shown : ∀ d : TypeDef, (m.sealTypes ts).block d = m.block d := by
    intro d
    have h := (m.shows_sealTypes ts).block d
    rwa [Renaming.typeDef_refl] at h
  rw [Module.typeBlock, Module.def?_sealTypes_eq, Option.map_map, Module.typeBlock]
  congr 2
  funext d
  rw [Function.comp_apply, shown]
  split
  · exact same d
  · rfl

namespace Compilation
variable {c c' c₁ : Compilation} {σ : Equiv.Perm Nat}

/-- Two compilations came to the same, but for the order of the types that they define. Each type has the members,
    locals and instructions that it has in the other one, which refer to types that are the same but for their places;
    the entry point is the same, and a listing has the same header and the same block for each type. -/
structure Rearranged (σ : Equiv.Perm Nat) (c c' : Compilation) : Prop where
  host : ∀ i < Module.hostCount, σ i = i
  definitions : ∀ i, c'.module.types[σ i]? = (c.module.types[i]?).map (reorder σ).typeDef
  types : c'.types.Perm (c.types.map (reorder σ).declaredType)
  entry : c'.entry = c.entry.map (reorder σ).method
  entryPoint : c'.module.entry = c.module.entry.map (reorder σ).method
  blocks : ∀ t, c'.module.typeBlock ((reorder σ).ty t) = c.module.typeBlock t
  listing : ∃ header : List Text, c.module.lines.toList = header ++
    (c.types.map DeclaredType.type).flatMap c.module.typeBlock ∧
    c'.module.lines.toList = header ++ (c'.types.map DeclaredType.type).flatMap c'.module.typeBlock

theorem Moved.places (h : c.Moved (reorder σ) (Symbols.Linked (reorder σ)) c') (hp : (c.types.map index).Nodup) :
    (c'.types.map index).Nodup := by
  have hperm : (c'.types.map index).Perm ((c.types.map index).map σ) := by
    refine (h.types.map index).trans (.of_eq ?_)
    rw [List.map_map, List.map_map]
    exact List.map_congr_left fun d _ => Renaming.index_reorder d.type
  exact hperm.nodup_iff.mpr (hp.map σ.injective)

/-- Types are finished in any order. -/
theorem Moved.finish (h : c.Moved (reorder σ) (Symbols.Linked (reorder σ)) c') (hp : (c.types.map index).Nodup)
    (hhost : ∀ i < Module.hostCount, σ i = i) (hf : c.finish = .ok c₁) :
      ∃ c₁', c'.finish = .ok c₁' ∧ Rearranged σ c₁ c₁' := by
  obtain ⟨hcan, rfl⟩ := (finish_iff hp).mp hf
  have hshows : c.module.Shows (reorder σ) c'.module :=
    ⟨fun _ => rfl, Renaming.reorder_distinct, h.backend, h.name, h.known.module.entry⟩
  have own : ∀ t, c'.module.def? ((reorder σ).ty t) = (c.module.def? t).map (reorder σ).typeDef :=
    fun t => h.known.module.own trivial
  have hcan' : ∀ d ∈ c'.types, c'.module.CanFinish d.type := by
    intro d' hd'
    obtain ⟨d, hd, rfl⟩ := List.mem_map.mp (h.types.mem_iff.mp hd')
    exact (hshows.canFinish (own d.type)).mpr (hcan d hd)
  have places : ∀ i, σ i ∈ (c'.types.map DeclaredType.type).map (fun t => t.declared.index) ↔
      i ∈ (c.types.map DeclaredType.type).map fun t => t.declared.index := by
    intro i
    rw [((h.types.map DeclaredType.type).map fun t => t.declared.index).mem_iff]
    simp only [List.mem_map, exists_exists_and_eq_and]
    refine exists_congr fun d => and_congr_right fun _ => ?_
    rw [show ((reorder σ).declaredType d).type = (reorder σ).ty d.type from rfl, Renaming.index_reorder,
        EmbeddingLike.apply_eq_iff_eq]
  refine ⟨_, (finish_iff (h.places hp)).mpr ⟨hcan', rfl⟩, hhost, fun i => ?_, h.types, h.entry, h.known.module.entry,
      fun t => ?_, c.module.lines.toList, ?_, ?_⟩
  · rw [Module.types_sealTypes, Module.types_sealTypes, h.known.module.types, Option.map_map, Option.map_map, h.backend]
    congr 1
    funext d
    simp only [Function.comp_apply, places]
    split
    · exact (reorder σ).sealed_typeDef d _
    · rfl
  · show (c'.module.sealTypes _).typeBlock _ = (c.module.sealTypes _).typeBlock _
    rw [Module.typeBlock_sealTypes, Module.typeBlock_sealTypes]
    exact hshows.typeBlock (own t)
  · show (c.module.lines ++ _).toList = _ ++ List.flatMap (c.module.sealTypes _).typeBlock _
    rw [funext (Module.typeBlock_sealTypes _ _)]
    simp
  · show (c'.module.lines ++ _).toList = _ ++ List.flatMap (c'.module.sealTypes _).typeBlock _
    rw [funext (Module.typeBlock_sealTypes _ _), h.lines]
    simp

theorem compile_runs {p : Program} {backend : Backend} {name runtime : Text}
    (hg : (generated p (start (Module.new 0 backend name runtime))).Runs (.ok c)) (hf : c.finish = .ok c') :
    (compile p backend name runtime false).Runs (.ok c') := by
  have hfinish : (Logged.ofExcept c.finish).Runs (.ok c') := fun _ => hf
  have hpasses : (passes p (start (Module.new 0 backend name runtime))).Runs (.ok c') := by
    rw [passes_eq]
    exact Logged.Runs.after hg (.pass hfinish)
  rw [compile, run, runUnder]
  exact hpasses.of_echoes (runUnder_echoes _ _ p)

theorem sources_perm {p p' : Program} (hc : p'.classes.Perm p.classes) (hd : p'.delegates.Perm p.delegates) :
    p.sources.Perm p'.sources :=
  (hd.symm.map _).append (hc.symm.map _)

/-- A program that compiles, compiles with its declarations in any order, and to the same types, members and code. -/
theorem declarations_in_any_order {p p' : Program} {backend : Backend} {name runtime : Text} {isCanceled : Bool}
    (hc : p'.classes.Perm p.classes) (hd : p'.delegates.Perm p.delegates)
    (hn : ∀ n ∈ p.identifiers, TypeName.elem? n = none)
    (h : (compile p backend name runtime isCanceled).Gives c) :
    ∃ c' σ, (compile p' backend name runtime isCanceled).Runs (.ok c') ∧ Rearranged σ c c' := by
  obtain ⟨rfl, c₁, hgenerated, hfinish⟩ := compile_gives h
  rw [generated_eq] at hgenerated
  obtain ⟨c₀, hprepared, hgenerate⟩ := hgenerated.of_bind
  have hgenerate := hgenerate.of_pass
  obtain ⟨c₀', σ, hprepared', hhost, hmoved⟩ := prepared_reordered (sources_perm hc hd) hprepared
  have hready := prepared_ready hprepared
  obtain ⟨c₁', hgenerate', hmoved₁⟩ := hmoved.generate Renaming.reorder_distinct hready (prepared_ready hprepared'.gives)
    (prepared_plain hn hprepared) hgenerate
  have htypes : c₁.types = c₀.types := by
    obtain ⟨f, hf⟩ := hready.generate hgenerate
    rw [hf.eq]
  obtain ⟨c', hfinish', hrearranged⟩ := hmoved₁.finish (htypes ▸ prepared_places hprepared) hhost hfinish
  have hgenerated' : (generated p' (start (Module.new 0 backend name runtime))).Runs (.ok c₁') := by
    rw [generated_eq]
    exact Logged.Runs.after hprepared' (.pass hgenerate')
  exact ⟨c', σ, compile_runs hgenerated' hfinish', hrearranged⟩

/-- A class that makes use of another one and of delegates, of which one mentions the other class. -/
def stationProgram (isSwapped : Bool) : Program :=
  let gauge : ClassDecl := {
    name := "Gauge"
    fields := [{ name := "levels", type := "int[]", isStatic := false, init := .newArray "int" (.int 3) }]
    ctors := []
    methods := [{ name := "read", isStatic := false, ret := "int", params := [{ name := "i", type := "int" }]
                  body := [.return (.index (.ident "levels") (.ident "i"))] }] }
  let station : ClassDecl := {
    name := "Station"
    fields := []
    ctors := []
    methods := [
      { name := "pick", isStatic := true, ret := "Gauge", params := [], body := [.return (.new "Gauge" [])] },
      { name := "Main", isStatic := true, ret := .empty, params := []
        body := [.local "source" "Source" (.methodRef .missing "pick" ""),
          .expr (.call (.ident "Console") "WriteLine" [.call (.call (.ident "source") "Invoke" []) "read" [.int 1]])] }] }
  let source : DelegateDecl := { name := "Source", ret := "Gauge", params := [] }
  let sink : DelegateDecl := { name := "Sink", ret := .empty, params := [{ name := "value", type := "int" }] }
  if isSwapped then { delegates := [source, sink], classes := [station, gauge] }
  else { delegates := [sink, source], classes := [gauge, station] }

theorem declarations_in_any_order_station : ∃ c c' σ, (compile (stationProgram false) .dynamic "m" "v4" false).Gives c ∧
    (compile (stationProgram true) .dynamic "m" "v4" false).Runs (.ok c') ∧ Rearranged σ c c' := by
  obtain ⟨c, hc⟩ :=
    Logged.gives_of_isOk (x := compile (stationProgram false) .dynamic "m" "v4" false) (j := default) (by decide +kernel)
  have hclasses : (stationProgram true).classes.Perm (stationProgram false).classes := .swap ..
  have hdelegates : (stationProgram true).delegates.Perm (stationProgram false).delegates := .swap ..
  obtain ⟨c', σ, hc', hr⟩ := declarations_in_any_order hclasses hdelegates (by decide) hc
  exact ⟨c, c', σ, hc, hc', hr⟩

end Compilation
end CilCompiler
