import CilCompiler.Proofs.Reordering.Layout

/-! Members of types that are declared in another order. Declaring the members of a type leaves those of all other
    types as they are (`Step.confined`), and depends on none of them; so the members of two types may be declared in
    either order (`declareType_swap`). -/

namespace CilCompiler

/-! ### What declaring members leaves as it is -/

/-- Nothing but the members of types of one key may differ, and the arrays that have been entered. -/
structure Symbols.Framed (k : Text) (s s' : Symbols) : Prop where
  phase : s'.phase = s.phase
  delegates : s'.delegates = s.delegates
  names : s.PlainAliases → s.SameNames s'
  fields : ∀ {u : Ty}, key u.name ≠ k → s'.fieldsOf u = s.fieldsOf u
  methods : ∀ {u : Ty}, key u.name ≠ k → s'.allMethods u = s.allMethods u
  ctors : ∀ {u : Ty}, key u.name ≠ k → s'.ctorsOf u = s.ctorsOf u

namespace Symbols.Framed
variable {k : Text} {s s' s'' : Symbols}

theorem refl (k : Text) (s : Symbols) : Framed k s s :=
  ⟨rfl, rfl, fun _ => .refl s, fun _ => rfl, fun _ => rfl, fun _ => rfl⟩

theorem trans (h : Framed k s s') (h' : Framed k s' s'') : Framed k s s'' where
  phase := h'.phase.trans h.phase
  delegates := h'.delegates.trans h.delegates
  names hp := (h.names hp).trans (h'.names ((h.names hp).plainAliases hp))
  fields hu := (h'.fields hu).trans (h.fields hu)
  methods hu := (h'.methods hu).trans (h.methods hu)
  ctors hu := (h'.ctors hu).trans (h.ctors hu)

theorem lookup {n : Text} {t : Ty} (h : s.lookup n = .ok (t, s')) : Framed k s s' := by
  have hx := lookup_extends h
  refine ⟨by rw [hx.rest], by rw [hx.rest], fun hp => lookup_sameNames hp h, fun _ => hx.fieldsOf _,
      fun _ => hx.allMethods _,
    fun _ => hx.ctorsOf _⟩

theorem registerField {f : Field} (h : s.registerField f = .ok s') : Framed (key f.owner.name) s s' := by
  rw [registerField_ok h]
  have hc := changedAt_withField s f
  exact ⟨rfl, hc.delegates, fun _ => .of_types hc.types hc.aliases, hc.fields _, hc.methods _, hc.ctors _⟩

theorem registerMethod {r : Method} (h : s.registerMethod r = .ok s') : Framed (key r.owner.name) s s' := by
  obtain ⟨_, -, h⟩ := bind_eq_ok.mp h
  dsimp only at h
  split at h <;> cases h
  refine ⟨rfl, rfl, fun _ => .of_types rfl rfl, fun _ => rfl, fun {u} hu => ?_, fun _ => rfl⟩
  show ((s.methods.put _ _).get? _).getD [] = _
  rw [getD_put, if_neg (Ne.symm hu)]
  rfl

theorem registerConstructor {r : Method} (h : s.registerConstructor r = .ok s') : Framed (key r.owner.name) s s' := by
  obtain ⟨_, -, h⟩ := bind_eq_ok.mp h
  dsimp only at h
  split at h <;> cases h
  refine ⟨rfl, rfl, fun _ => .of_types rfl rfl, fun _ => rfl, fun _ => rfl, fun {u} hu => ?_⟩
  show ((s.ctors.put _ _).get? _).getD [] = _
  rw [getD_put, if_neg (Ne.symm hu)]
  rfl

end Symbols.Framed

namespace Compilation
variable {ρ : Renaming} {t : Ty} {c c₁ c₂ c' : Compilation} {d e d' e' : DeclaredType}

/-- Nothing but what belongs to a type may differ, and the arrays that have been entered. -/
structure Confined (t : Ty) (c c' : Compilation) : Prop where
  symbols : c.symbols.Framed (Symbols.key t.name) c'.symbols
  rest : c' = { c with module := { c.module with types := c'.module.types }, symbols := c'.symbols }
  places : ∀ i, i ≠ t.declared.index → c'.module.types[i]? = c.module.types[i]?
  type? : ∀ n, c'.module.type? n = c.module.type? n

namespace Confined

theorem refl (t : Ty) (c : Compilation) : Confined t c c := ⟨.refl _ _, rfl, fun _ _ => rfl, fun _ => rfl⟩

theorem trans (h : Confined t c c₁) (h' : Confined t c₁ c') : Confined t c c' where
  symbols := h.symbols.trans h'.symbols
  rest := by rw [h'.rest, h.rest]
  places i hi := (h'.places i hi).trans (h.places i hi)
  type? n := (h'.type? n).trans (h.type? n)

end Confined

theorem Step.confined (h : Step t c c') : Confined t c c' := by
  obtain ⟨f, hm, -⟩ := h.module
  refine ⟨?_, ?_, fun i hi => ?_, h.type?⟩
  · cases h with
    | lookup h =>
      obtain ⟨⟨u, s⟩, h1, h⟩ := bind_eq_ok.mp h
      cases h
      exact .lookup h1
    | registerField ho h => exact ho ▸ .registerField h
    | registerMethod ho _ h => exact ho ▸ .registerMethod h
    | registerConstructor ho h => exact ho ▸ .registerConstructor h
    | _ => exact .refl _ _
  · have hrest := h.rest
    rw [hm] at hrest ⊢
    exact hrest
  · rw [hm, Module.modifyDef, Array.getElem?_modify, if_neg (Ne.symm hi)]

theorem declareType_confined (h : c.declareType d = .ok (d', c')) : Confined d.type c c' :=
  (declareType_steps h).keeps (P := Confined d.type c) (fun hstep h => h.trans hstep.confined) (.refl _ _)

/-! ### Members of two types -/

theorem Confined.def? (h : Confined d.type c c') (ha : Separate d e) : c'.module.def? e.type = c.module.def? e.type := by
  cases harr : e.type.isArray with
  | true => rw [Module.def?_of_isArray harr, Module.def?_of_isArray harr]
  | false =>
    have hid : c'.module.id = c.module.id := by rw [h.rest]
    rw [Module.def?_eq harr, Module.def?_eq harr, hid, h.places _ ha.place.symm]

/-- What is known of a type does not change while members of others are declared. -/
theorem Confined.local (h : Confined d.type c c') (ha : Separate d e) (hp : c.symbols.PlainAliases) :
    c.Local .refl (Symbols.Linked .refl) (· = e.type) c' where
  symbols := {
    names := (Symbols.Linked.self hp).of_sameNames (.refl _) (h.symbols.names hp)
    phase := h.symbols.phase
    fields := by
      rintro t rfl
      simp [h.symbols.fields ha.key.symm, funext Renaming.field_refl]
    methods := by
      rintro t rfl
      simp [h.symbols.methods ha.key.symm, funext Renaming.method_refl]
    ctors := by
      rintro t rfl
      simp [h.symbols.ctors ha.key.symm, funext Renaming.method_refl]
    delegates := fun k => by simp [h.symbols.delegates, funext Renaming.delegate_refl] }
  module := {
    places := by
      rintro t u rfl rfl
      exact ⟨fun _ => rfl, fun _ => rfl⟩
    id := by rw [h.rest]
    void := by rw [h.type?, Renaming.opt_refl]
    entry := by
      rw [h.rest]
      simp [funext Renaming.method_refl]
    own := by
      rintro t rfl
      simp [h.def? ha, funext Renaming.typeDef_refl] }
  roles := by rw [Renaming.roles_refl, h.rest]

/-- Members of one type are declared alike where the same is known of it. -/
theorem Local.declareType_same (h : c.Local .refl (Symbols.Linked .refl) (· = d.type) c') :
    Agree (fun r r' => r'.1 = r.1 ∧ r.2.Local .refl (Symbols.Linked .refl) (· = d.type) r'.2) (c.declareType d)
      (c'.declareType d) := by
  have hagree := h.declareType (Symbols.Linked.naming .refl) (d := d) rfl
  rw [Renaming.declaredType_refl] at hagree
  exact hagree.mono fun r r' hr => ⟨by rw [hr.1, Renaming.declaredType_refl], hr.2⟩

/-- Two changes in either order come to the same, if each changes its own part, and in the same way. -/
theorem glued {ι α : Type} {g g₁ g₂ g₃ g' : ι → α} {D E : ι → Prop} (hDE : ∀ i, D i → ¬E i)
    (h₁ : ∀ i, ¬D i → g₁ i = g i) (h₂ : ∀ i, ¬E i → g₂ i = g₁ i) (h₃ : ∀ i, ¬E i → g₃ i = g i)
    (h' : ∀ i, ¬D i → g' i = g₃ i)
    (hD : ∀ i, D i → g' i = g₁ i) (hE : ∀ i, E i → g₂ i = g₃ i) (i : ι) : g' i = g₂ i := by
  by_cases hd : D i
  · rw [hD i hd, h₂ i (hDE i hd)]
  · by_cases he : E i
    · rw [h' i hd, hE i he]
    · rw [h' i hd, h₃ i he, h₂ i he, h₁ i hd]

section Parts

variable {c₃ : Compilation} (ha : Separate d e) (h₁ : Confined d.type c c₁) (h₂ : Confined e.type c₁ c₂)
    (h₁' : Confined e.type c c₃)
  (h₂' : Confined d.type c₃ c') (hlocal : c₁.Local .refl (Symbols.Linked .refl) (· = d.type) c')
  (hlocal' : c₃.Local .refl (Symbols.Linked .refl) (· = e.type) c₂)
include ha h₁ h₂ h₁' h₂' hlocal hlocal'

theorem members_of_parts : (∀ t, c'.symbols.fieldsOf t = c₂.symbols.fieldsOf t) ∧
    (∀ t, c'.symbols.allMethods t = c₂.symbols.allMethods t) ∧ ∀ t, c'.symbols.ctorsOf t = c₂.symbols.ctorsOf t := by
  have apart : ∀ t : Ty, Symbols.key t.name = Symbols.key d.type.name → ¬Symbols.key t.name = Symbols.key e.type.name :=
    fun t hd he => ha.key (hd.symm.trans he)
  have hs := hlocal.symbols
  have hs' := hlocal'.symbols
  refine ⟨?_, ?_, ?_⟩
  · refine glued apart (fun _ => h₁.symbols.fields) (fun _ => h₂.symbols.fields) (fun _ => h₁'.symbols.fields)
        (fun _ => h₂'.symbols.fields)
      (fun t ht => ?_) fun t ht => ?_
    · rw [Symbols.fieldsOf_congr ht, Symbols.fieldsOf_congr (s := c₁.symbols) ht]
      simpa [funext Renaming.field_refl] using hs.fields rfl
    · rw [Symbols.fieldsOf_congr ht, Symbols.fieldsOf_congr (s := c₃.symbols) ht]
      simpa [funext Renaming.field_refl] using hs'.fields rfl
  · refine glued apart (fun _ => h₁.symbols.methods) (fun _ => h₂.symbols.methods) (fun _ => h₁'.symbols.methods)
        (fun _ => h₂'.symbols.methods)
      (fun t ht => ?_) fun t ht => ?_
    · rw [Symbols.allMethods_congr ht, Symbols.allMethods_congr (s := c₁.symbols) ht]
      simpa [funext Renaming.method_refl] using hs.methods rfl
    · rw [Symbols.allMethods_congr ht, Symbols.allMethods_congr (s := c₃.symbols) ht]
      simpa [funext Renaming.method_refl] using hs'.methods rfl
  · refine glued apart (fun _ => h₁.symbols.ctors) (fun _ => h₂.symbols.ctors) (fun _ => h₁'.symbols.ctors)
        (fun _ => h₂'.symbols.ctors)
      (fun t ht => ?_) fun t ht => ?_
    · rw [Symbols.ctorsOf_congr ht, Symbols.ctorsOf_congr (s := c₁.symbols) ht]
      simpa [funext Renaming.method_refl] using hs.ctors rfl
    · rw [Symbols.ctorsOf_congr ht, Symbols.ctorsOf_congr (s := c₃.symbols) ht]
      simpa [funext Renaming.method_refl] using hs'.ctors rfl

theorem types_of_parts (hd : Home c d) (he : Home c e) : c'.module.types = c₂.module.types := by
  have id₁ : c₁.module.id = c.module.id := by rw [h₁.rest]
  have id₂ : c₂.module.id = c.module.id := by rw [h₂.rest, h₁.rest]
  have id₃ : c₃.module.id = c.module.id := by rw [h₁'.rest]
  have id' : c'.module.id = c.module.id := by rw [h₂'.rest, h₁'.rest]
  apply Array.ext_getElem?
  refine glued (D := fun i => i = d.type.declared.index) (E := fun i => i = e.type.declared.index)
      (fun i hd he => ha.place (hd.symm.trans he)) h₁.places
    h₂.places h₁'.places h₂'.places ?_ ?_
  · rintro _ rfl
    have hown := hlocal.module.own rfl
    rw [Renaming.ty_refl, Module.def?_eq hd.notArray, Module.def?_eq hd.notArray, id', id₁, if_pos hd.module,
        if_pos hd.module] at hown
    simpa [funext Renaming.typeDef_refl] using hown
  · rintro _ rfl
    have hown := hlocal'.module.own rfl
    rw [Renaming.ty_refl, Module.def?_eq he.notArray, Module.def?_eq he.notArray, id₂, id₃, if_pos he.module,
        if_pos he.module] at hown
    simpa [funext Renaming.typeDef_refl] using hown

end Parts

/-- The members of two types may be declared in either order. -/
theorem declareType_swap (hp : c.symbols.PlainAliases) (ha : Separate d e) (hd : Home c d) (he : Home c e)
    (h₁ : c.declareType d = .ok (d', c₁)) (h₂ : c₁.declareType e = .ok (e', c₂)) :
    ∃ c₁' c₂', c.declareType e = .ok (e', c₁') ∧ c₁'.declareType d = .ok (d', c₂') ∧ Same c₂ c₂' := by
  have hframe₁ := declareType_confined h₁
  obtain ⟨⟨_, c₁'⟩, he', rfl, hlocal'⟩ := (hframe₁.local ha hp).declareType_same.of_ok_right h₂
  have hframe₁' := declareType_confined he'
  obtain ⟨⟨_, c₂'⟩, hd', rfl, hlocal⟩ := (hframe₁'.local ha.symm hp).declareType_same.of_ok h₁
  have hframe₂ := declareType_confined h₂
  have hframe₂' := declareType_confined hd'
  obtain ⟨hfields, hmethods, hctors⟩ := members_of_parts ha hframe₁ hframe₂ hframe₁' hframe₂' hlocal hlocal'
  have htypes := types_of_parts ha hframe₁ hframe₂ hframe₁' hframe₂' hlocal hlocal' hd he
  have hnames := hframe₁.symbols.names hp
  have hnames' := hframe₁'.symbols.names hp
  have hsame : c₂.symbols.SameNames c₂'.symbols :=
    (hnames.trans (hframe₂.symbols.names (hnames.plainAliases hp))).symm.trans
      (hnames'.trans (hframe₂'.symbols.names (hnames'.plainAliases hp)))
  have hrest : c₂' = { c₂ with symbols := c₂'.symbols } := by
    rw [hframe₂'.rest, hframe₁'.rest, htypes, hframe₂.rest, hframe₁.rest]
  have hplain : c₂.symbols.PlainAliases := (hnames.trans (hframe₂.symbols.names (hnames.plainAliases hp))).plainAliases hp
  refine ⟨c₁', c₂', he', hd', ?_⟩
  rw [hrest]
  exact .of_symbols hplain hsame
      (by rw [hframe₂'.symbols.phase, hframe₁'.symbols.phase, hframe₂.symbols.phase, hframe₁.symbols.phase])
    hfields hmethods hctors fun k => by
      rw [hframe₂'.symbols.delegates, hframe₁'.symbols.delegates, hframe₂.symbols.delegates, hframe₁.symbols.delegates]

/-- Members of a renamed type are the renamed ones. -/
theorem Moved.declareType (h : c.Moved ρ (Symbols.Linked ρ) c') (hd : c.declareType d = .ok (d', c₁)) :
    ∃ c₁', c'.declareType (ρ.declaredType d) = .ok (ρ.declaredType d', c₁') ∧ c₁.Moved ρ (Symbols.Linked ρ) c₁' := by
  obtain ⟨⟨_, c₁'⟩, hd', rfl, hknown⟩ := (h.known.declareType (Symbols.Linked.naming ρ) (d := d) trivial).of_ok hd
  have hrest := (declareType_confined hd).rest
  have hrest' := (declareType_confined hd').rest
  refine ⟨c₁', hd', hknown, ?_, ?_, ?_, ?_, ?_⟩
  · rw [hrest', hrest]
    exact h.types
  · rw [hrest', hrest]
    exact h.entry
  · rw [hrest', hrest]
    exact h.backend
  · rw [hrest', hrest]
    exact h.name
  · rw [hrest', hrest]
    exact h.lines

/-- Members are declared in any order of the types. -/
theorem declareTypes_moved {ds ds' out : List DeclaredType} (h : c.Moved ρ (Symbols.Linked ρ) c')
    (hperm : ds'.Perm (ds.map ρ.declaredType))
    (hapart : ds'.Pairwise Separate) (hhome : ∀ d ∈ ds', Home c' d) (hd : ds.foldlM declareOnto ([], c) = .ok (out, c₁)) :
    ∃ out' c₁', ds'.foldlM declareOnto ([], c') = .ok (out', c₁') ∧ out'.Perm (out.map ρ.declaredType) ∧
      c₁.Moved ρ (Symbols.Linked ρ) c₁' := by
  -- First the renamed types in the same order, then their order.
  obtain ⟨⟨out₁, c₂⟩, hsame, hout, hmoved⟩ := foldlM_simulates
    (R := fun (r r' : List DeclaredType × Compilation) => r'.1 = r.1.map ρ.declaredType ∧
      r.2.Moved ρ (Symbols.Linked ρ) r'.2)
    (s := ([], c)) (t := ([], c')) (g := declareOnto) (m := ρ.declaredType) (fun d _ {r r₁ r'} hr hd => by
      obtain ⟨⟨d', c₁⟩, h1, hd⟩ := bind_eq_ok.mp hd
      cases hd
      obtain ⟨c₁', h1', hm⟩ := hr.2.declareType h1
      exact ⟨_, bind_eq_ok.mpr ⟨_, h1', rfl⟩, by rw [hr.1]; simp, hm⟩) ⟨rfl, h⟩ hd
  have apart : (ds.map ρ.declaredType).Pairwise fun d e => Separate d e ∧ Home c' d ∧ Home c' e := by
    refine ((hperm.pairwise_iff fun h => h.symm).mp hapart).imp_of_mem fun hd he ha => ?_
    exact ⟨ha, hhome _ (hperm.mem_iff.mpr hd), hhome _ (hperm.mem_iff.mpr he)⟩
  obtain ⟨⟨out', c₁'⟩, hfold, hout', hsame', -⟩ := foldlM_perm
    (R := fun (r r' : List DeclaredType × Compilation) => r'.1.Perm r.1 ∧ Same r.2 r'.2 ∧ r'.2.module.id = c'.module.id)
    (D := fun d e => Separate d e ∧ Home c' d ∧ Home c' e) (fun h => ⟨.refl _, h.2.1.right, h.2.2⟩)
    (fun h h' => ⟨h'.1.trans h.1, h.2.1.same h'.2.1, h'.2.2⟩)
    (fun {d r r₁ r'} h hd => by
      obtain ⟨⟨d', c₃⟩, h1, hd⟩ := bind_eq_ok.mp hd
      cases hd
      obtain ⟨c₃', h1', hm⟩ := h.2.1.declareType h1
      rw [Renaming.declaredType_refl, Renaming.declaredType_refl] at h1'
      refine ⟨_, bind_eq_ok.mpr ⟨_, h1', rfl⟩, h.1.append_right _, hm, ?_⟩
      rw [(declareType_confined h1').rest]
      exact h.2.2)
    (fun {d e r r₁ r₂} hD h hd he => by
      obtain ⟨⟨d', c₃⟩, h1, hd⟩ := bind_eq_ok.mp hd
      cases hd
      obtain ⟨⟨e', c₄⟩, h2, he⟩ := bind_eq_ok.mp he
      cases he
      have home : ∀ {d : DeclaredType}, Home c' d → Home r.2 d := fun h' => ⟨h'.notArray, h'.module.trans h.2.2.symm⟩
      obtain ⟨c₃', c₄', h1', h2', hm⟩ :=
        declareType_swap h.2.1.known.symbols.names.plain hD.1 (home hD.2.1) (home hD.2.2) h1 h2
      refine ⟨_, _, bind_eq_ok.mpr ⟨_, h1', rfl⟩, bind_eq_ok.mpr ⟨_, h2', rfl⟩, ?_, hm, ?_⟩
      · simpa only [List.append_assoc, List.singleton_append] using (List.Perm.swap d' e' []).append_left r.1
      · rw [(declareType_confined h2').rest, (declareType_confined h1').rest]
        exact h.2.2)
    (fun h => ⟨h.1.symm, h.2.2, h.2.1⟩) hperm.symm apart ⟨.refl _, .self h.known.symbols.names.plain', rfl⟩ hsame
  exact ⟨out', c₁', hfold, hout ▸ hout', hmoved.same hsame'⟩

end Compilation
end CilCompiler
