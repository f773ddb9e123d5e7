import CilCompiler.Compiler
import CilCompiler.Proofs.Compilation.Members
import CilCompiler.Proofs.Renaming.Names

/-! A compilation whose bodies are about to be generated. All members have been declared, no two of them are the same,
    and none has a body (`Ready`); then each member's body is what lowering it leaves, whatever has been lowered
    before (`Ready.generate`). -/

namespace CilCompiler

/-! ### Other spellings -/

/-- The spellings of the catalog are the only ones that have been entered. -/
def Symbols.HostAliased (s : Symbols) : Prop :=
  ∀ e ∈ s.aliases.entries, ∃ a ∈ Host.aliases, e = (key a.1, key a.2)

/-- No spelling of the catalog is an array's name. -/
theorem Symbols.HostAliased.plain {s : Symbols} (h : s.HostAliased) : s.PlainAliases := by
  have names : ∀ a ∈ Host.aliases, TypeName.elem? a.1 = none ∧ TypeName.elem? a.2 = none := by decide
  have entry : ∀ {k v : Text}, s.aliases.get? k = some v → ∃ a ∈ Host.aliases, k = key a.1 ∧ v = key a.2 := by
    intro k v hk
    obtain ⟨e, he, rfl⟩ := Option.map_eq_some_iff.mp hk
    obtain ⟨a, ha, rfl⟩ := h e (List.mem_of_find?_eq_some he)
    have hkey := List.find?_some he
    simp only [decide_eq_true_eq] at hkey
    exact ⟨a, ha, hkey.symm, rfl⟩
  intro n e hn
  have array : ∀ {m : Text}, TypeName.elem? m = none → key n ≠ key m := by
    intro m hm hk
    obtain ⟨e', he', -⟩ := TypeName.elem?_of_key hk.symm hn
    rw [hm] at he'
    cases he'
  refine ⟨?_, fun k hk => ?_⟩
  · cases hk : s.aliases.get? (key n) with
    | none => rfl
    | some v =>
      obtain ⟨a, ha, he, -⟩ := entry hk
      exact absurd he (array (names a ha).1)
  · obtain ⟨a, ha, -, he⟩ := entry hk
    exact array (names a ha).2 he

namespace Compilation

variable {c c' : Compilation}

theorem registerAliases_entries {s s' : Symbols} {l : List (Text × Text)} (h : registerAliases s l = .ok s') :
    ∀ e ∈ s'.aliases.entries, e ∈ s.aliases.entries ∨ ∃ a ∈ l, e = (Symbols.key a.1, Symbols.key a.2) := by
  induction l generalizing s with
  | nil =>
    cases h
    exact fun e he => .inl he
  | cons a l ih =>
    obtain ⟨s₁, h1, h2⟩ := bind_eq_ok.mp h
    obtain ⟨_, -, h1⟩ := bind_eq_ok.mp h1
    split at h1
    · cases h1
      intro e he
      rcases ih h2 e he with he | ⟨b, hb, rfl⟩
      · rcases List.mem_cons.mp he with rfl | he
        · exact .inr ⟨a, List.mem_cons_self, rfl⟩
        · exact .inl he
      · exact .inr ⟨b, List.mem_cons_of_mem _ hb, rfl⟩
    · cases h1

/-- Entering the catalog changes the symbols only, and gives its spellings. -/
theorem enterCatalog_start {m : Module} (h : enterCatalog (start m) = .ok c) :
    c.module = m ∧ c.types = [] ∧ c.symbols.HostAliased := by
  obtain ⟨s, h1, h⟩ := bind_eq_ok.mp h
  obtain ⟨s', h2, h⟩ := bind_eq_ok.mp h
  cases h
  refine ⟨rfl, rfl, fun e he => ?_⟩
  have entered : ∀ (xs : List TypeMembers) (s : Symbols), (xs.foldl Symbols.enterMembers s).aliases = s.aliases := by
    intro xs
    induction xs with
    | nil => exact fun _ => rfl
    | cons x xs ih => exact fun s => ih _
  obtain ⟨_, -, h1⟩ := bind_eq_ok.mp h1
  cases h1
  rcases registerAliases_entries h2 e he with he | he
  · rw [entered] at he
    cases he
  · exact he

/-! ### Declared types -/

/-- Types that are laid out are open and have no members yet. -/
structure Outlined (c : Compilation) : Prop where
  blank : c.module.Bodied (· = {})
  empty : ∀ d ∈ c.types, d.members = []
  isOpen : ∀ d ∈ c.types, c.module.isCreated d.type = false
  aliased : c.symbols.HostAliased

/-- Once the catalog has been entered, no type of a program is there. -/
theorem enterCatalog_outlined {m : Module} (hblank : m.Bodied (· = {}))
    (h : enterCatalog (start m) = .ok c) : c.Outlined := by
  obtain ⟨hmodule, htypes, haliased⟩ := enterCatalog_start h
  refine ⟨by rw [hmodule]; exact hblank, fun d hd => ?_, fun d hd => ?_, haliased⟩
  all_goals
    rw [htypes] at hd
    cases hd

theorem Outlined.defineType {src : Declaration} {attrs : TypeAttributes} {base : Option Ty} (h : c.Outlined)
    (hd : c.defineType src attrs base = .ok c') : c'.Outlined := by
  unfold Compilation.defineType at hd
  dsimp only at hd
  split at hd
  · cases hd
  · split at hd
    · cases hd
    · obtain ⟨⟨t, m⟩, h1, hd⟩ := bind_eq_ok.mp hd
      obtain ⟨s, h2, hd⟩ := bind_eq_ok.mp hd
      cases hd
      obtain ⟨hnew, hold⟩ := Module.defineType_open h1
      refine ⟨h.blank.defineType h1, fun d hd => ?_, fun d hd => ?_, ?_⟩
      · rcases List.mem_append.mp hd with hd | hd
        · exact h.empty d hd
        · rw [List.mem_singleton.mp hd]
      · rcases List.mem_append.mp hd with hd | hd
        · exact hold (h.isOpen d hd)
        · rw [List.mem_singleton.mp hd]
          exact hnew
      · obtain ⟨_, -, h2⟩ := bind_eq_ok.mp h2
        split at h2
        · cases h2
        · cases h2
          exact h.aliased

theorem Outlined.foldlM {α : Type} {f : Compilation → α → Except Fault Compilation} {l : List α}
    (step : ∀ {c c' : Compilation} {a : α}, c.Outlined → f c a = .ok c' → c'.Outlined) (h : c.Outlined)
    (hf : l.foldlM f c = .ok c') :
    c'.Outlined := by
  induction l generalizing c with
  | nil =>
    cases hf
    exact h
  | cons a l ih =>
    obtain ⟨c₁, h1, h2⟩ := foldlM_cons_ok hf
    exact ih (step h h1) h2

theorem Outlined.defineTypes {p : Program} (h : c.Outlined) (hd : c.defineTypes p = .ok c') : c'.Outlined := by
  obtain ⟨c₁, h1, h2⟩ := bind_eq_ok.mp hd
  exact (h.foldlM Outlined.defineType h1).foldlM Outlined.defineType h2

theorem snd_pairs (ds : List DeclaredType) : (pairs ds).map Prod.snd = ds.flatMap DeclaredType.members := by
  simp [pairs, List.map_flatMap, Function.comp_def]

/-- Declared members, and what stays as it is while they are declared. -/
structure Populated (c : Compilation) (ds ds' : List DeclaredType) (c' : Compilation) : Prop where
  added : Added c c' (ds'.flatMap DeclaredType.members)
  types : ds'.map DeclaredType.type = ds.map DeclaredType.type
  owned : ∀ d ∈ ds', ∀ x ∈ d.members, x.method.owner = d.type
  ctors : ∀ d ∈ ds', ∀ x ∈ d.members, x.method.isCtor = true → Constructs c d.type x
  isCreated : ∀ t, c'.module.isCreated t = c.module.isCreated t
  blank : c.module.Bodied (· = {}) → c'.module.Bodied (· = {})
  void : c'.module.type? TypeName.void = c.module.type? TypeName.void
  rest : c' = { c with module := c'.module, symbols := c'.symbols }
  aliases : c'.symbols.aliases = c.symbols.aliases

theorem declareTypes_populated {ds ds' : List DeclaredType} (hds : ∀ d ∈ ds, d.members = [])
    (h : (c.declareTypes ds).Gives (ds', c')) : Populated c ds ds' c' := by
  induction ds generalizing c ds' with
  | nil =>
    cases h.of_pure
    exact ⟨⟨fun h => h, fun x hx => (by cases hx), fun x hx => (by cases hx), .nil⟩, rfl, fun d hd => (by cases hd),
      fun d hd => (by cases hd), fun _ => rfl, fun h => h, rfl, rfl, rfl⟩
  | cons d ds ih =>
    obtain ⟨⟨d', c₁⟩, h1, h⟩ := h.of_bind
    obtain ⟨⟨rest, c₂⟩, h2, h⟩ := h.of_bind
    cases h.of_pure
    have h1 := h1.of_declareNext
    have hsteps := declareType_steps h1
    obtain ⟨hadded, htype, hmembers⟩ := declareType_added (hds d List.mem_cons_self) h1
    have hrest := ih (fun e he => hds e (List.mem_cons_of_mem _ he)) h2
    refine ⟨?_, by rw [List.map_cons, List.map_cons, htype, hrest.types], fun e he x hx => ?_, fun e he x hx hc => ?_,
      fun t => (hrest.isCreated t).trans (hsteps.isCreated t), fun hb => hrest.blank ?_,
        hrest.void.trans (hsteps.type? _), ?_,
      hrest.aliases.trans hsteps.aliases⟩
    · rw [List.flatMap_cons]
      exact hadded.append hrest.added
    · rcases List.mem_cons.mp he with rfl | he
      · rw [htype]
        exact (hmembers x hx).1
      · exact hrest.owned e he x hx
    · rcases List.mem_cons.mp he with rfl | he
      · rw [htype]
        exact (hmembers x hx).2 hc
      · exact (hrest.ctors e he x hx hc).steps hsteps
    · exact hsteps.keeps (P := fun c => c.module.Bodied (· = {})) (fun hstep hb => hstep.bodied rfl hb) hb
    · rw [hrest.rest, hsteps.rest]

/-- The members of types have been declared, and none has a body. -/
structure Ready (c : Compilation) : Prop where
  blank : c.module.Bodied (· = {})
  has : ∀ y ∈ pairs c.types, c.module.Has y.2.method
  distinct : (pairs c.types).Pairwise fun y z => y.2.method ≠ z.2.method
  owned : ∀ y ∈ pairs c.types, y.2.method.owner = y.1.type
  isOpen : ∀ d ∈ c.types, c.module.isCreated d.type = false
  ctors : ∀ y ∈ pairs c.types, y.2.method.isCtor = true → Constructs c y.1.type y.2
  aliased : c.symbols.HostAliased

theorem Populated.ready {ds : List DeclaredType} (h : Populated c c.types ds c') (ho : c.Outlined) :
    ({ c' with types := ds }).Ready where
  blank := h.blank ho.blank
  has y hy := h.added.has _ (by rw [← snd_pairs]; exact List.mem_map_of_mem hy)
  distinct := by
    have hdistinct := h.added.distinct
    rw [← snd_pairs, List.pairwise_map] at hdistinct
    exact hdistinct
  owned y hy := by
    obtain ⟨hd, hx⟩ := mem_pairs.mp hy
    exact h.owned _ hd _ hx
  isOpen d hd := by
    have hd : d.type ∈ ds.map DeclaredType.type := List.mem_map_of_mem hd
    rw [h.types] at hd
    obtain ⟨e, he, ht⟩ := List.mem_map.mp hd
    show c'.module.isCreated d.type = false
    rw [h.isCreated, ← ht]
    exact ho.isOpen e he
  ctors y hy hc := by
    obtain ⟨hd, hx⟩ := mem_pairs.mp hy
    have hx := h.ctors _ hd _ hx hc
    exact ⟨hx.owner, hx.isStatic, hx.result.trans h.void.symm, by rw [h.rest]; exact hx.ret⟩
  aliased := by
    show ∀ e ∈ c'.symbols.aliases.entries, _
    rw [h.aliases]
    exact ho.aliased

/-- Whether there is an entry point, and how symbols other than spellings are entered, does not matter. -/
theorem Ready.of_same (h : c.Ready) {e : Option Method} (hm : c'.module = { c.module with entry := e })
    (ht : c'.types = c.types)
    (hr : c'.roles = c.roles) (ha : c'.symbols.aliases = c.symbols.aliases) : c'.Ready where
  blank := h.blank.of_types (by rw [hm])
  has y hy := by
    rw [ht] at hy
    rw [hm]
    exact h.has y hy
  distinct := by
    rw [ht]
    exact h.distinct
  owned y hy := by
    rw [ht] at hy
    exact h.owned y hy
  isOpen d hd := by
    rw [ht] at hd
    rw [hm]
    exact h.isOpen d hd
  ctors y hy hc := by
    rw [ht] at hy
    have hx := h.ctors y hy hc
    exact ⟨hx.owner, hx.isStatic, by rw [hm]; exact hx.result, by rw [hr]; exact hx.ret⟩
  aliased := by
    show ∀ e ∈ c'.symbols.aliases.entries, _
    rw [ha]
    exact h.aliased

/-- Looking at a member sets an entry point at most. -/
theorem considerEntry_eq {x : Member} (hx : c.considerEntry x = .ok c') :
    ∃ e e', c' = { c with module := { c.module with entry := e }, entry := e' } := by
  unfold Compilation.considerEntry at hx
  dsimp only at hx
  split at hx
  · cases hx
    exact ⟨_, _, rfl⟩
  · split at hx
    · cases hx
    · split at hx
      · cases hx
      · obtain ⟨m, h1, hx⟩ := bind_eq_ok.mp hx
        cases hx
        unfold Module.setEntryPoint at h1
        repeat' split at h1
        all_goals cases h1
        · exact ⟨_, _, rfl⟩
        · exact ⟨_, _, rfl⟩

theorem Ready.considerEntry {x : Member} (h : c.Ready) (hx : c.considerEntry x = .ok c') : c'.Ready := by
  obtain ⟨e, e', rfl⟩ := considerEntry_eq hx
  exact h.of_same rfl rfl rfl rfl

theorem Ready.findEntry (h : c.Ready) (hx : c.findEntry = .ok c') : c'.Ready := by
  unfold Compilation.findEntry at hx
  generalize c.types.flatMap DeclaredType.members = xs at hx
  induction xs generalizing c with
  | nil =>
    cases hx
    exact h
  | cons x xs ih =>
    obtain ⟨c₁, h1, h2⟩ := foldlM_cons_ok hx
    exact ih (h.considerEntry h1) h2

theorem Outlined.declare {p : Program} (h : c.Outlined) (hd : (Compilation.declare p c).Gives c') : c'.Ready := by
  obtain ⟨s, h1, hmembers⟩ := hd.of_bind
  obtain ⟨_, -, h1⟩ := bind_eq_ok.mp h1.of_except
  cases h1
  obtain ⟨c₁, h2, hmembers⟩ := hmembers.of_bind
  obtain ⟨⟨ds, c₂⟩, h3, hentry⟩ := hmembers.of_bind
  have hbegun : ({ c with symbols := { c.symbols with phase := .declare } }).Outlined :=
    ⟨h.blank, h.empty, h.isOpen, h.aliased⟩
  have houtlined := hbegun.defineTypes h2.of_except
  exact ((declareTypes_populated houtlined.empty h3).ready houtlined).findEntry hentry.of_except

theorem Ready.describeDelegates {ds : List DeclaredType} (h : c.Ready)
    (hd : (c.describeDelegates ds).Gives c') : c'.Ready := by
  induction ds generalizing c with
  | nil =>
    rw [← hd.of_pure]
    exact h
  | cons d ds ih =>
    unfold Compilation.describeDelegates at hd
    split at hd
    · exact ih h hd
    · obtain ⟨s, h1, hd⟩ := hd.of_bind
      obtain ⟨_, -, hd⟩ := hd.of_bind
      obtain ⟨_, -, hd⟩ := hd.of_bind
      have haliases : s.aliases = c.symbols.aliases := by
        obtain ⟨_, -, h1⟩ := bind_eq_ok.mp h1.of_except
        split at h1 <;> cases h1
        rfl
      exact ih (h.of_same rfl rfl rfl haliases : ({ c with symbols := s } : Compilation).Ready) hd

theorem Ready.describe (h : c.Ready) (hd : c.describe.Gives c') : c'.Ready := by
  obtain ⟨c₁, h1, hd⟩ := hd.of_bind
  obtain ⟨s, h2, hd⟩ := hd.of_bind
  cases hd.of_pure
  obtain ⟨_, -, h2⟩ := bind_eq_ok.mp h2.of_except
  cases h2
  exact (h.describeDelegates h1).of_same rfl rfl rfl rfl

/-! ### Bodies -/

/-- Symbols to which array types have been added, which changes the meaning of no name. -/
structure Reads (c : Compilation) (s : Symbols) : Prop where
  symbols : c.symbols.Extends s
  names : c.symbols.SameNames s

theorem Ready.recordable (h : c.Ready) : Recordable c.Reads c (pairs c.types) where
  blank := h.blank
  has := h.has
  distinct := h.distinct
  keeps y _ _ hs _ _ hl :=
    have honward := lowering_onward y.1 y.2 hl
    ⟨hs.symbols.trans honward.symbols, hs.names.trans (honward.names (hs.names.plainAliases h.aliased.plain))⟩

/-- Every member's body is what lowering it leaves, whatever array types have been entered before. -/
theorem Ready.generate (h : c.Ready) (hg : c.generate.Gives c') : ∃ f, Recorded c.Reads c (pairs c.types) f c' :=
  generate_recorded h.recordable ⟨.refl _, .refl _⟩ hg

end Compilation
end CilCompiler
