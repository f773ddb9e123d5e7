import CilCompiler.Proofs.Module
import CilCompiler.Proofs.Symbols

/-!
Symbols and module agree. The symbols know every definition of the module under its name, list its members in
the module's order, and know no other members. While the members of one type are declared, its definition is
the only one that changes.
-/

namespace CilCompiler

/-! ### Entering members -/

namespace Symbols
variable {s s' : Symbols}

/-- The symbols list the members of a definition. -/
structure Lists (s : Symbols) (d : TypeDef) : Prop where
  fields : s.fieldsOf d.type = d.fields.toList
  methods : s.allMethods d.type = d.methods.toList.map Routine.method
  ctors : s.ctorsOf d.type = d.ctors.toList.map Routine.method

/-- The members entered under one key may differ, and nothing else. -/
structure ChangedAt (s s' : Symbols) (k : Text) : Prop where
  types : s'.types = s.types
  aliases : s'.aliases = s.aliases
  delegates : s'.delegates = s.delegates
  fields : ∀ t : Ty, key t.name ≠ k → s'.fieldsOf t = s.fieldsOf t
  methods : ∀ t : Ty, key t.name ≠ k → s'.allMethods t = s.allMethods t
  ctors : ∀ t : Ty, key t.name ≠ k → s'.ctorsOf t = s.ctorsOf t

theorem ChangedAt.grown {k : Text} (h : s.ChangedAt s' k) : s.Grown s' := by
  refine ⟨h.aliases, fun hk => ?_, fun hk => ?_⟩
  · rw [h.types]
    exact hk
  · rw [h.types] at hk
    exact .inl hk

theorem ChangedAt.lists {k : Text} (h : s.ChangedAt s' k) {d : TypeDef} (hd : s.Lists d) (hk : key d.type.name ≠ k) :
    s'.Lists d :=
  ⟨(h.fields _ hk).trans hd.fields, (h.methods _ hk).trans hd.methods, (h.ctors _ hk).trans hd.ctors⟩

theorem fieldsOf_congr {t u : Ty} (h : key t.name = key u.name) : s.fieldsOf t = s.fieldsOf u := by
  rw [fieldsOf, fieldsOf, h]

theorem allMethods_congr {t u : Ty} (h : key t.name = key u.name) : s.allMethods t = s.allMethods u := by
  rw [allMethods, allMethods, h]

theorem ctorsOf_congr {t u : Ty} (h : key t.name = key u.name) : s.ctorsOf t = s.ctorsOf u := by
  rw [ctorsOf, ctorsOf, h]

/-- The symbols with a field added to those of its owner. -/
def withField (s : Symbols) (f : Field) : Symbols :=
  { s with fields := s.fields.put (key f.owner.name) (s.fieldsOf f.owner ++ [f]) }

/-- The symbols with a method or constructor added to those of its owner. -/
def withRoutine (s : Symbols) (r : Method) : Symbols :=
  if r.isCtor then { s with ctors := s.ctors.put (key r.owner.name) (s.ctorsOf r.owner ++ [r]) }
  else { s with methods := s.methods.put (key r.owner.name) (s.allMethods r.owner ++ [r]) }

theorem registerField_ok {f : Field} (h : s.registerField f = .ok s') : s' = s.withField f := by
  obtain ⟨_, -, h⟩ := bind_eq_ok.mp h
  dsimp only at h
  split at h
  · cases h
  · cases h
    rfl

theorem registerMethod_ok {r : Method} (hr : r.isCtor = false) (h : s.registerMethod r = .ok s') :
    s' = s.withRoutine r := by
  obtain ⟨_, -, h⟩ := bind_eq_ok.mp h
  dsimp only at h
  split at h
  · cases h
  · cases h
    rw [withRoutine, hr]
    rfl

theorem registerConstructor_ok {r : Method} (hr : r.isCtor = true) (h : s.registerConstructor r = .ok s') :
    s' = s.withRoutine r := by
  obtain ⟨_, -, h⟩ := bind_eq_ok.mp h
  dsimp only at h
  split at h
  · cases h
  · cases h
    rw [withRoutine, hr]
    rfl

theorem getD_put {α : Type} (t : Table (List α)) (k k' : Text) (l : List α) :
    ((t.put k l).get? k').getD [] = if k = k' then l else (t.get? k').getD [] := by
  rw [Table.get?_put]
  split <;> rfl

theorem changedAt_withField (s : Symbols) (f : Field) : s.ChangedAt (s.withField f) (key f.owner.name) := by
  refine ⟨rfl, rfl, rfl, fun t ht => ?_, fun t _ => rfl, fun t _ => rfl⟩
  show ((s.fields.put _ _).get? _).getD [] = _
  rw [getD_put, if_neg (Ne.symm ht)]
  rfl

theorem changedAt_withRoutine (s : Symbols) (r : Method) : s.ChangedAt (s.withRoutine r) (key r.owner.name) := by
  unfold withRoutine
  split
  · refine ⟨rfl, rfl, rfl, fun t _ => rfl, fun t _ => rfl, fun t ht => ?_⟩
    show ((s.ctors.put _ _).get? _).getD [] = _
    rw [getD_put, if_neg (Ne.symm ht)]
    rfl
  · refine ⟨rfl, rfl, rfl, fun t _ => rfl, fun t ht => ?_, fun t _ => rfl⟩
    show ((s.methods.put _ _).get? _).getD [] = _
    rw [getD_put, if_neg (Ne.symm ht)]
    rfl

theorem Lists.withField {d : TypeDef} {f : Field} {n : Nat} (h : s.Lists d) (ho : f.owner = d.type) :
    (s.withField f).Lists { d with fields := d.fields.push f, slots := n } := by
  refine ⟨?_, h.methods, h.ctors⟩
  show ((s.fields.put _ _).get? _).getD [] = _
  rw [getD_put, ho, if_pos rfl, h.fields]
  simp

theorem Lists.withRoutine {d : TypeDef} {x : Routine} (h : s.Lists d) (ho : x.method.owner = d.type) :
    (s.withRoutine x.method).Lists (d.pushRoutine x) := by
  unfold Symbols.withRoutine TypeDef.pushRoutine
  split
  · refine ⟨h.fields, h.methods, ?_⟩
    show ((s.ctors.put _ _).get? _).getD [] = _
    rw [getD_put, ho, if_pos rfl, h.ctors]
    simp
  · refine ⟨h.fields, ?_, h.ctors⟩
    show ((s.methods.put _ _).get? _).getD [] = _
    rw [getD_put, ho, if_pos rfl, h.methods]
    simp

end Symbols

/-! ### Definitions with more members -/

namespace TypeDef
variable {d : TypeDef} {id i : Nat}

theorem Shaped.pushField (h : d.Shaped id i) {f : Field} (ho : f.owner = d.type) (hi : f.index = d.fields.size)
    (hs : f.slot = if f.isStatic then none else some d.slots) :
    Shaped id i { d with fields := d.fields.push f, slots := if f.isStatic then d.slots else d.slots + 1 } := by
  refine ⟨h.notArray, h.module, h.index, fun {k g} hg => ?_, ?_, h.ctors, h.methods⟩
  · have hg : (d.fields.push f)[k]? = some g := hg
    show g.owner = d.type ∧ g.index = k ∧
      g.slot = if g.isStatic then none else some (Field.instances ((d.fields.push f).toList.take k))
    rw [Array.getElem?_push] at hg
    split at hg
    · rename_i hk
      cases hg
      rw [hk, Array.toList_push, List.take_left' (by simp)]
      exact ⟨ho, hi, by rw [hs, h.slots]⟩
    · have hlt := (Array.getElem?_eq_some_iff.mp hg).1
      rw [Array.toList_push, List.take_append_of_le_length (by simp; omega)]
      exact h.fields hg
  · show (if f.isStatic then d.slots else d.slots + 1) = Field.instances (d.fields.push f).toList
    rw [Array.toList_push, Field.instances, List.countP_append, ← Field.instances, ← h.slots]
    cases hf : f.isStatic <;> simp [hf]

theorem Shaped.pushRoutine (h : d.Shaped id i) {x : Routine} (ho : x.method.owner = d.type)
    (hi : x.method.index = d.nextIndex x.method.isCtor) (hs : x.method.isCtor = true → x.method.isStatic = false) :
    (d.pushRoutine x).Shaped id i := by
  unfold TypeDef.pushRoutine
  unfold nextIndex at hi
  cases hc : x.method.isCtor with
  | true =>
    rw [hc] at hi
    refine ⟨h.notArray, h.module, h.index, h.fields, h.slots, fun {k y} hy => ?_, h.methods⟩
    have hy : (d.ctors.push x)[k]? = some y := hy
    rw [Array.getElem?_push] at hy
    split at hy
    · rename_i hk
      cases hy
      exact ⟨ho, hc, by rw [hi, hk]; rfl, hs hc⟩
    · exact h.ctors hy
  | false =>
    rw [hc] at hi
    refine ⟨h.notArray, h.module, h.index, h.fields, h.slots, h.ctors, fun {k y} hy => ?_⟩
    have hy : (d.methods.push x)[k]? = some y := hy
    rw [Array.getElem?_push] at hy
    split at hy
    · rename_i hk
      cases hy
      exact ⟨ho, hc, by rw [hi, hk]; rfl⟩
    · exact h.methods hy

/-- The type and all types its members mention are of a kind; only a result may be void. -/
structure Admitted (P : Ty → Prop) (d : TypeDef) : Prop where
  type : P d.type
  fields : ∀ f ∈ d.fields.toList, ∃ t, f.type = some t ∧ P t ∧ t.isVoid = false
  results : ∀ x ∈ d.routines, ∃ t, x.method.ret = some t ∧ P t
  params : ∀ x ∈ d.routines, ∀ p ∈ x.method.params, ∃ t, p = some t ∧ P t ∧ t.isVoid = false

theorem mem_routines_pushRoutine {x y : Routine} : y ∈ (d.pushRoutine x).routines ↔ y ∈ d.routines ∨ y = x := by
  unfold TypeDef.pushRoutine routines
  split <;> simp only [Array.toList_push, List.mem_append, List.mem_singleton] <;> grind

theorem Admitted.pushRoutine {P : Ty → Prop} (h : d.Admitted P) {x : Routine} (hr : ∃ t, x.method.ret = some t ∧ P t)
    (hp : ∀ p ∈ x.method.params, ∃ t, p = some t ∧ P t ∧ t.isVoid = false) : (d.pushRoutine x).Admitted P := by
  refine ⟨by rw [type_pushRoutine]; exact h.type, ?_, fun y hy => ?_, fun y hy => ?_⟩
  · have hf : (d.pushRoutine x).fields = d.fields := by
      unfold TypeDef.pushRoutine
      split <;> rfl
    rw [hf]
    exact h.fields
  · rcases mem_routines_pushRoutine.mp hy with hy | rfl
    · exact h.results y hy
    · exact hr
  · rcases mem_routines_pushRoutine.mp hy with hy | rfl
    · exact h.params y hy
    · exact hp

end TypeDef

/-! ### Coherence -/

namespace Compilation

/-- Symbols and module agree. -/
structure Coherent (c : Compilation) : Prop where
  dynamic : c.module.backend = .dynamic
  shaped : c.module.Shaped
  void : c.module.type? TypeName.void = some c.roles.void
  entered : ∀ {i : Nat} {d : TypeDef}, c.module.types[i]? = some d →
    c.symbols.types.get? (Symbols.key d.type.name) = some d.type
  unaliased : ∀ {i : Nat} {d : TypeDef}, c.module.types[i]? = some d →
    c.symbols.aliases.get? (Symbols.key d.type.name) = none
  known : ∀ {k : Text} {t : Ty}, c.symbols.types.get? k = some t → t.isArray = false →
    k = Symbols.key t.name ∧ ∃ (i : Nat) (d : TypeDef), c.module.types[i]? = some d ∧ d.type = t
  lists : ∀ {i : Nat} {d : TypeDef}, c.module.types[i]? = some d → c.symbols.Lists d
  owned : ∀ {t : Ty}, c.symbols.fieldsOf t ≠ [] ∨ c.symbols.allMethods t ≠ [] ∨ c.symbols.ctorsOf t ≠ [] →
    ∃ (i : Nat) (d : TypeDef), c.module.types[i]? = some d ∧ Symbols.key d.type.name = Symbols.key t.name

variable {c c' : Compilation}

namespace Coherent

/-- A name is that of one definition at most. -/
theorem unique (h : c.Coherent) {i j : Nat} {d e : TypeDef} (hd : c.module.types[i]? = some d)
    (he : c.module.types[j]? = some e) (hk : Symbols.key d.type.name = Symbols.key e.type.name) : i = j := by
  have hd' := h.entered hd
  rw [hk, h.entered he] at hd'
  have ht : e.type = d.type := by simpa using hd'
  rw [← (h.shaped hd).index, ← ht, (h.shaped he).index]

theorem mem_fieldsOf (h : c.Coherent) {t : Ty} {f : Field} (hf : f ∈ c.symbols.fieldsOf t) :
    ∃ (i : Nat) (d : TypeDef), c.module.types[i]? = some d ∧ Symbols.key d.type.name = Symbols.key t.name ∧
      f ∈ d.fields.toList := by
  obtain ⟨i, d, hd, hk⟩ := h.owned (.inl (List.ne_nil_of_mem hf))
  rw [← Symbols.fieldsOf_congr hk, (h.lists hd).fields] at hf
  exact ⟨i, d, hd, hk, hf⟩

theorem mem_allMethods (h : c.Coherent) {t : Ty} {r : Method} (hr : r ∈ c.symbols.allMethods t) :
    ∃ (i : Nat) (d : TypeDef), c.module.types[i]? = some d ∧ Symbols.key d.type.name = Symbols.key t.name ∧
      ∃ x ∈ d.methods.toList, x.method = r := by
  obtain ⟨i, d, hd, hk⟩ := h.owned (.inr (.inl (List.ne_nil_of_mem hr)))
  rw [← Symbols.allMethods_congr hk, (h.lists hd).methods] at hr
  exact ⟨i, d, hd, hk, List.mem_map.mp hr⟩

theorem mem_ctorsOf (h : c.Coherent) {t : Ty} {r : Method} (hr : r ∈ c.symbols.ctorsOf t) :
    ∃ (i : Nat) (d : TypeDef), c.module.types[i]? = some d ∧ Symbols.key d.type.name = Symbols.key t.name ∧
      ∃ x ∈ d.ctors.toList, x.method = r := by
  obtain ⟨i, d, hd, hk⟩ := h.owned (.inr (.inr (List.ne_nil_of_mem hr)))
  rw [← Symbols.ctorsOf_congr hk, (h.lists hd).ctors] at hr
  exact ⟨i, d, hd, hk, List.mem_map.mp hr⟩

/-- Array types may be entered. -/
theorem extended (h : c.Coherent) {s : Symbols} (hs : c.symbols.Extends s) : ({ c with symbols := s }).Coherent := by
  refine ⟨h.dynamic, h.shaped, h.void, fun hd => hs.grown.kept (h.entered hd), fun hd => ?_, fun {k t} hk ht => ?_,
    fun hd => ?_, fun {t} ht => ?_⟩
  · show s.aliases.get? _ = none
    rw [hs.grown.aliases]
    exact h.unaliased hd
  · rcases hs.grown.added hk with hk | ha
    · exact h.known hk ht
    · rw [ha] at ht
      cases ht
  · exact ⟨(hs.fieldsOf _).trans (h.lists hd).fields, (hs.allMethods _).trans (h.lists hd).methods,
      (hs.ctorsOf _).trans (h.lists hd).ctors⟩
  · have ht : s.fieldsOf t ≠ [] ∨ s.allMethods t ≠ [] ∨ s.ctorsOf t ≠ [] := ht
    rw [hs.fieldsOf, hs.allMethods, hs.ctorsOf] at ht
    exact h.owned ht

/-- A definition may get other members that the symbols list. -/
theorem put (h : c.Coherent) {i : Nat} {d d' : TypeDef} (hd : c.module.types[i]? = some d)
    (hshaped : d'.Shaped c.module.id i) (htype : d'.type = d.type) {s : Symbols}
    (hs : c.symbols.ChangedAt s (Symbols.key d.type.name)) (hl : s.Lists d') :
    ({ c with module := c.module.put i d', symbols := s }).Coherent := by
  have hlt := (Array.getElem?_eq_some_iff.mp hd).1
  -- Where a definition is now, one of the same type was before.
  have before : ∀ {j : Nat} {e : TypeDef}, (c.module.put i d').types[j]? = some e →
      ∃ e', c.module.types[j]? = some e' ∧ e'.type = e.type ∧ (i = j ∧ e = d' ∨ i ≠ j ∧ e = e') := by
    intro j e he
    rw [Module.types_put hlt] at he
    split at he
    · rename_i hij
      cases he
      exact ⟨d, hij ▸ hd, htype.symm, .inl ⟨hij, rfl⟩⟩
    · exact ⟨e, he, rfl, .inr ⟨‹_›, rfl⟩⟩
  have after : ∀ {j : Nat} {e : TypeDef}, c.module.types[j]? = some e → ∃ e', (c.module.put i d').types[j]? = some e' ∧
      e'.type = e.type := by
    intro j e he
    rw [Module.types_put hlt]
    split
    · rename_i hij
      subst hij
      rw [hd] at he
      cases he
      exact ⟨d', rfl, htype⟩
    · exact ⟨e, he, rfl⟩
  refine ⟨h.dynamic, Module.Shaped.put h.shaped hshaped, ?_, fun {j e} he => ?_, fun {j e} he => ?_, fun {k t} hk ht => ?_,
    fun {j e} he => ?_, fun {t} ht => ?_⟩
  · show (c.module.put i d').type? TypeName.void = _
    rw [Module.type?_put hd htype]
    exact h.void
  · obtain ⟨e', he', ht, -⟩ := before he
    show s.types.get? _ = _
    rw [hs.types, ← ht]
    exact h.entered he'
  · obtain ⟨e', he', ht, -⟩ := before he
    show s.aliases.get? _ = none
    rw [hs.aliases, ← ht]
    exact h.unaliased he'
  · have hk : s.types.get? k = some t := hk
    rw [hs.types] at hk
    obtain ⟨hkey, j, e, he, rfl⟩ := h.known hk ht
    obtain ⟨e', he', ht'⟩ := after he
    exact ⟨hkey, j, e', he', ht'⟩
  · obtain ⟨e', he', ht, ⟨-, rfl⟩ | ⟨hij, rfl⟩⟩ := before he
    · exact hl
    · exact hs.lists (h.lists he') fun hk => hij (h.unique hd he' hk.symm)
  · by_cases hk : Symbols.key t.name = Symbols.key d.type.name
    · obtain ⟨e', he', ht'⟩ := after hd
      exact ⟨i, e', he', by rw [ht', hk]⟩
    · have ht : s.fieldsOf t ≠ [] ∨ s.allMethods t ≠ [] ∨ s.ctorsOf t ≠ [] := ht
      rw [hs.fields t hk, hs.methods t hk, hs.ctors t hk] at ht
      obtain ⟨j, e, he, hkey⟩ := h.owned ht
      obtain ⟨e', he', ht'⟩ := after he
      exact ⟨j, e', he', by rw [ht', hkey]⟩

end Coherent
end Compilation
end CilCompiler
