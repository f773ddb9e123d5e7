import CilCompiler.Proofs.Reordering.Members

/-! The passes before bodies when a program's declarations are permuted. Types are laid out in the other order, their
    members are the same, and so are the entry point and what is said of delegates (`prepared_reordered`). -/

namespace CilCompiler
namespace Compilation

variable {ρ : Renaming} {c c₁ c₂ c' : Compilation} {x y : Member} {d e : DeclaredType}

/-! ### The entry point -/

theorem Moved.considerEntry (hρ : ρ.Distinct) (h : c.Moved ρ (Symbols.Linked ρ) c') (hx : c.considerEntry x = .ok c₁) :
    ∃ c₁', c'.considerEntry (ρ.member x) = .ok c₁' ∧ c₁.Moved ρ (Symbols.Linked ρ) c₁' := by
  have hsealed := h.known.module.isCreated (t := x.method.owner) trivial
  obtain ⟨c₁', hx', hknown, hentry⟩ := (h.known.considerEntry hρ h.entry (x := x) (by rw [h.backend, hsealed])).of_ok hx
  obtain ⟨_, _, rfl⟩ := considerEntry_eq hx
  obtain ⟨_, _, rfl⟩ := considerEntry_eq hx'
  exact ⟨_, hx', hknown, h.types, hentry, h.backend, h.name, h.lines⟩

/-- A member that is considered is no entry point, whatever there is, or becomes the first one. -/
theorem considerEntry_cases (h : c.considerEntry x = .ok c') :
    (∀ c₁ : Compilation, c₁.considerEntry x = .ok c₁) ∨ c.entry = none ∧ c'.entry.isSome = true := by
  unfold Compilation.considerEntry at h ⊢
  dsimp only at h ⊢
  split at h
  · exact .inl fun c₁ => if_pos ‹_›
  · split at h
    · cases h
    · split at h
      · cases h
      · obtain ⟨m, -, h⟩ := bind_eq_ok.mp h
        cases h
        exact .inr ⟨‹_›, rfl⟩

/-- Of two members one is an entry point at most, so they may be considered in either order. -/
theorem considerEntry_swap (hx : c.considerEntry x = .ok c₁) (hy : c₁.considerEntry y = .ok c₂) :
    ∃ c₁', c.considerEntry y = .ok c₁' ∧ c₁'.considerEntry x = .ok c₂ := by
  rcases considerEntry_cases hx with hnone | ⟨-, hfirst⟩
  · cases (hnone c).symm.trans hx
    exact ⟨c₂, hy, hnone c₂⟩
  · rcases considerEntry_cases hy with hnone | ⟨hnone, -⟩
    · cases (hnone c₁).symm.trans hy
      exact ⟨c, hnone c, hx⟩
    · rw [hnone] at hfirst
      cases hfirst

theorem Moved.findEntry (hρ : ρ.Distinct) (h : c.Moved ρ (Symbols.Linked ρ) c') (hf : c.findEntry = .ok c₁) :
    ∃ c₁', c'.findEntry = .ok c₁' ∧ c₁.Moved ρ (Symbols.Linked ρ) c₁' := by
  have hmembers : ((c.types.flatMap DeclaredType.members).map ρ.member).Perm (c'.types.flatMap DeclaredType.members) := by
    rw [List.map_flatMap]
    refine List.Perm.trans (.of_eq ?_) (h.types.symm.flatMap_right _)
    rw [List.flatMap_map]
    rfl
  obtain ⟨c₂, hsame, hmoved⟩ := foldlM_simulates (m := ρ.member) (fun x _ {_ _ _} h hx => h.considerEntry hρ hx) h hf
  obtain ⟨c₁', hfind, hsame'⟩ := foldlM_perm (R := Same) (D := fun _ _ => True) Same.right (fun h h' => h.same h')
    (fun {x _ _ _} h hx => by
      have hx' := h.considerEntry (fun _ _ h => h) hx
      rwa [Renaming.member_refl] at hx')
    (fun {x y _ c₁ c₂} _ h hx hy => by
      obtain ⟨c₁', hy', hx'⟩ := considerEntry_swap hx hy
      refine ⟨c₁', c₂, hy', hx', .self ?_⟩
      obtain ⟨_, _, rfl⟩ := considerEntry_eq hx
      obtain ⟨_, _, rfl⟩ := considerEntry_eq hy
      exact h.known.symbols.names.plain)
    (fun _ => trivial) hmembers (List.pairwise_of_forall fun _ _ => trivial) (.self h.known.symbols.names.plain') hsame
  exact ⟨c₁', hfind, hmoved.same hsame'⟩

/-! ### Delegates -/

theorem Moved.withSymbols (h : c.Moved ρ (Symbols.Linked ρ) c') {s s' : Symbols}
    (hs : s.Local ρ (Symbols.Linked ρ) (fun _ => True) s') :
    ({ c with symbols := s } : Compilation).Moved ρ (Symbols.Linked ρ) { c' with symbols := s' } :=
  ⟨⟨hs, h.known.module, h.known.roles⟩, h.types, h.entry, h.backend, h.name, h.lines⟩

theorem Moved.describeNext (h : c.Moved ρ (Symbols.Linked ρ) c') (hd : c.describeNext d = .ok c₁) :
    ∃ c₁', c'.describeNext (ρ.declaredType d) = .ok c₁' ∧ c₁.Moved ρ (Symbols.Linked ρ) c₁' := by
  have hdelegate : (ρ.declaredType d).delegate = d.delegate.map ρ.delegate := rfl
  unfold Compilation.describeNext at hd ⊢
  rw [hdelegate]
  cases hx : d.delegate with
  | none =>
    rw [hx] at hd
    cases hd
    exact ⟨_, rfl, h⟩
  | some x =>
    rw [hx] at hd
    obtain ⟨s, hs, hd⟩ := bind_eq_ok.mp hd
    cases hd
    obtain ⟨s', hs', hlocal⟩ := (h.known.symbols.registerDelegate (Symbols.Linked.naming ρ) x).of_ok hs
    exact ⟨_, bind_eq_ok.mpr ⟨s', hs', rfl⟩, h.withSymbols hlocal⟩

/-- The compilation with one more delegate described. -/
def withDelegate (c : Compilation) (x : Delegate) : Compilation :=
  { c with symbols := { c.symbols with delegates := c.symbols.delegates.put (Symbols.key x.type.name) x } }

/-- A delegate that can be described. -/
structure Describes (c : Compilation) (x : Delegate) : Prop where
  phase : c.symbols.phase = .declare
  fresh : c.symbols.delegates.get? (Symbols.key x.type.name) = none

theorem describeNext_none (hd : d.delegate = none) : c.describeNext d = .ok c := by rw [Compilation.describeNext, hd]

theorem describeNext_some {x : Delegate} (hd : d.delegate = some x) :
    c.describeNext d = .ok c' ↔ c.Describes x ∧ c' = c.withDelegate x := by
  rw [Compilation.describeNext, hd]
  constructor
  · intro h
    obtain ⟨s, hs, h⟩ := bind_eq_ok.mp h
    obtain ⟨hp, hn, rfl⟩ := Symbols.registerDelegate_ok_iff.mp hs
    cases h
    exact ⟨⟨hp, hn⟩, rfl⟩
  · rintro ⟨⟨hp, hn⟩, rfl⟩
    exact bind_eq_ok.mpr ⟨_, Symbols.registerDelegate_ok_iff.mpr ⟨hp, hn, rfl⟩, rfl⟩

theorem describes_withDelegate_iff {x y : Delegate} :
    (c.withDelegate x).Describes y ↔ c.Describes y ∧ Symbols.key x.type.name ≠ Symbols.key y.type.name := by
  have hget : (c.withDelegate x).symbols.delegates.get? (Symbols.key y.type.name) =
      if Symbols.key x.type.name = Symbols.key y.type.name then some x
        else c.symbols.delegates.get? (Symbols.key y.type.name) :=
    Table.get?_put ..
  constructor
  · rintro ⟨hp, hn⟩
    rw [hget] at hn
    split at hn
    · cases hn
    · exact ⟨⟨hp, hn⟩, ‹_›⟩
  · rintro ⟨⟨hp, hn⟩, hk⟩
    exact ⟨hp, by rw [hget, if_neg hk, hn]⟩

/-- Delegates may be described in either order. -/
theorem describeNext_swap (hp : c.symbols.PlainAliases) (hd : c.describeNext d = .ok c₁) (he : c₁.describeNext e = .ok c₂) :
    ∃ c₁' c₂', c.describeNext e = .ok c₁' ∧ c₁'.describeNext d = .ok c₂' ∧ Same c₂ c₂' := by
  have plain : ∀ {c c' : Compilation} {d : DeclaredType}, c.symbols.PlainAliases → c.describeNext d = .ok c' →
      c'.symbols.PlainAliases := by
    intro c c' d hp h
    cases hd : d.delegate with
    | none =>
      cases (describeNext_none hd).symm.trans h
      exact hp
    | some x =>
      obtain ⟨-, rfl⟩ := (describeNext_some hd).mp h
      exact hp
  cases hx : d.delegate with
  | none =>
    cases (describeNext_none hx).symm.trans hd
    exact ⟨c₂, c₂, he, describeNext_none hx, .self (plain hp he)⟩
  | some x =>
    cases hy : e.delegate with
    | none =>
      cases (describeNext_none hy).symm.trans he
      exact ⟨c, c₁, describeNext_none hy, hd, .self (plain hp hd)⟩
    | some y =>
      obtain ⟨hdx, rfl⟩ := (describeNext_some hx).mp hd
      obtain ⟨hdy, rfl⟩ := (describeNext_some hy).mp he
      obtain ⟨hdy, hk⟩ := describes_withDelegate_iff.mp hdy
      refine ⟨_, _, (describeNext_some hy).mpr ⟨hdy, rfl⟩,
          (describeNext_some hx).mpr ⟨describes_withDelegate_iff.mpr ⟨hdx, hk.symm⟩, rfl⟩, ?_⟩
      refine .of_symbols hp (.of_types rfl rfl) rfl (fun _ => rfl) (fun _ => rfl) (fun _ => rfl) fun k => ?_
      show ((c.symbols.delegates.put _ _).put _ _).get? k = ((c.symbols.delegates.put _ _).put _ _).get? k
      rw [Table.get?_put, Table.get?_put, Table.get?_put, Table.get?_put]
      by_cases hkx : Symbols.key x.type.name = k
      · rw [if_pos hkx, if_pos hkx, if_neg fun hky => hk (hkx.trans hky.symm)]
      · rw [if_neg hkx, if_neg hkx]

theorem Moved.described (h : c.Moved ρ (Symbols.Linked ρ) c') (hd : c.described = .ok c₁) :
    ∃ c₁', c'.described = .ok c₁' ∧ c₁.Moved ρ (Symbols.Linked ρ) c₁' := by
  obtain ⟨c₂, hfold, hd⟩ := bind_eq_ok.mp hd
  obtain ⟨s, hs, hd⟩ := bind_eq_ok.mp hd
  cases hd
  obtain ⟨c₃, hsame, hmoved⟩ := foldlM_simulates (m := ρ.declaredType) (fun d _ {_ _ _} h hd => h.describeNext hd) h hfold
  obtain ⟨c₂', hfold', hsame'⟩ :=
    foldlM_perm (f := Compilation.describeNext) (R := Same) (D := fun _ _ => True) Same.right (fun h h' => h.same h')
    (fun {d _ _ _} h hd => by
      have hd' := h.describeNext hd
      rwa [Renaming.declaredType_refl] at hd')
    (fun _ h hd he => describeNext_swap h.known.symbols.names.plain hd he)
    (fun _ => trivial) h.types.symm (List.pairwise_of_forall fun _ _ => trivial) (.self h.known.symbols.names.plain') hsame
  have hmoved' := hmoved.same hsame'
  obtain ⟨s', hs', hlocal⟩ := (hmoved'.known.symbols.freeze (Symbols.Linked.naming ρ)).of_ok hs
  exact ⟨_, bind_eq_ok.mpr ⟨c₂', hfold', bind_eq_ok.mpr ⟨s', hs', rfl⟩⟩, hmoved'.withSymbols hlocal⟩

/-! ### The passes together -/

theorem prepared_runs (p : Program) (c : Compilation) : (prepared p c).Runs (do
    let c ← c.enterCatalog
    let c ← declared p c
    c.described) :=
  Logged.Runs.bind (.pass (.ofExcept _)) fun c _ => Logged.Runs.bind (.pass (declare_runs p c)) fun c _ =>
    .pass (describe_runs c)

/-- Declarations in any order. -/
theorem declared_reordered {p p' : Program} (hp : p.sources.Perm p'.sources) (h : c.Settled)
    (ho : c.Outlined) (hs : c.Spread)
    (hd : declared p c = .ok c₁) : ∃ c₁' σ, declared p' c = .ok c₁' ∧ (∀ i < Module.hostCount, σ i = i) ∧
      c₁.Moved (.reorder σ) (Symbols.Linked (.reorder σ)) c₁' := by
  obtain ⟨s, hbegin, hd⟩ := bind_eq_ok.mp hd
  obtain ⟨c₂, hdefine, hd⟩ := bind_eq_ok.mp hd
  obtain ⟨⟨ds, c₃⟩, hdeclare, hfind⟩ := bind_eq_ok.mp hd
  obtain ⟨c₂', hdefine', σ, hσ⟩ := defineTypes_reordered hp (h.beginDeclarations hbegin) hdefine
  have begun : ({ c with symbols := s }).Outlined ∧ ({ c with symbols := s }).Spread := by
    obtain ⟨_, -, hbegin⟩ := bind_eq_ok.mp hbegin
    cases hbegin
    exact ⟨⟨ho.blank, ho.empty, ho.isOpen, ho.aliased⟩, hs.apart,
        fun d hd => ⟨(hs.home d hd).notArray, (hs.home d hd).module⟩, hs.entered, hs.below⟩
  have hspread := begun.2.defineTypes hdefine'
  have hmoved := hσ.moved.of_names (hσ.moved.known.symbols.names.linked (begun.1.defineTypes hdefine).aliased.plain)
  obtain ⟨ds', c₃', hdeclare', hperm, hmoved⟩ :=
    declareTypes_moved hmoved hσ.moved.types hspread.apart hspread.home hdeclare
  have hmoved : Moved (.reorder σ) (Symbols.Linked (.reorder σ)) { c₃ with types := ds } { c₃' with types := ds' } :=
    ⟨⟨hmoved.known.symbols, hmoved.known.module, hmoved.known.roles⟩, hperm, hmoved.entry, hmoved.backend,
      hmoved.name, hmoved.lines⟩
  obtain ⟨c₁', hfind', hmoved⟩ := hmoved.findEntry Renaming.reorder_distinct hfind
  exact ⟨c₁', σ, bind_eq_ok.mpr ⟨s, hbegin, bind_eq_ok.mpr ⟨c₂', hdefine', bind_eq_ok.mpr ⟨_, hdeclare', hfind'⟩⟩⟩,
      hσ.host, hmoved⟩

/-- The passes before bodies do the same for declarations in any order. -/
theorem prepared_reordered {p p' : Program} {backend : Backend} {name runtime : Text} (hp : p.sources.Perm p'.sources)
    (h : (prepared p (start (Module.new 0 backend name runtime))).Gives c) :
    ∃ c' σ, (prepared p' (start (Module.new 0 backend name runtime))).Runs (.ok c') ∧ (∀ i < Module.hostCount, σ i = i) ∧
      c.Moved (.reorder σ) (Symbols.Linked (.reorder σ)) c' := by
  obtain ⟨c₁, hcatalog, h⟩ := bind_eq_ok.mp ((prepared_runs p _).of_gives h)
  obtain ⟨c₂, hdeclare, hdescribe⟩ := bind_eq_ok.mp h
  have htypes := (enterCatalog_start hcatalog).2.1
  have houtlined := enterCatalog_outlined (Module.bodied_new (Q := (· = {})) rfl 0 backend name runtime) hcatalog
  have hspread : c₁.Spread := by
    constructor
    · rw [htypes]
      exact .nil
    all_goals
      intro d hd
      rw [htypes] at hd
      cases hd
  obtain ⟨c₂', σ, hdeclare', hhost, hmoved⟩ :=
    declared_reordered hp (enterCatalog_settled hcatalog) houtlined hspread hdeclare
  obtain ⟨c', hdescribe', hmoved⟩ := hmoved.described hdescribe
  have hruns := prepared_runs p' (start (Module.new 0 backend name runtime))
  rw [bind_eq_ok.mpr ⟨c₁, hcatalog, bind_eq_ok.mpr ⟨c₂', hdeclare', hdescribe'⟩⟩] at hruns
  exact ⟨c', σ, hruns, hhost, hmoved⟩

end Compilation
end CilCompiler
