import CilCompiler.Lowering.Resolution
import CilCompiler.Proofs.Outcome

/-!
What looking up does and finds. Looking up a type's name leaves all that was entered and adds array types at
most. A member that is found belongs to one of the types it was looked for on, and its parameters fit.
-/

namespace CilCompiler

namespace Table
variable {α : Type}

theorem get?_put (t : Table α) (k k' : Text) (v : α) : (t.put k v).get? k' = if k = k' then some v else t.get? k' := by
  simp only [get?, put, List.find?_cons]
  by_cases h : k = k' <;> simp [h]

theorem has_eq (t : Table α) (k : Text) : t.has k = (t.get? k).isSome := by
  rw [has, get?, Option.isSome_map, List.isSome_find?]

theorem get?_eq_none_of_has {t : Table α} {k : Text} (h : t.has k = false) : t.get? k = none := by
  simpa [has_eq] using h

end Table

namespace Symbols

/-! ### Type names -/

/-- The types of `s` are still there under their names, and array types only have been added. -/
structure Grown (s s' : Symbols) : Prop where
  aliases : s'.aliases = s.aliases
  kept : ∀ {k : Text} {t : Ty}, s.types.get? k = some t → s'.types.get? k = some t
  added : ∀ {k : Text} {t : Ty}, s'.types.get? k = some t → s.types.get? k = some t ∨ t.isArray = true

theorem Grown.refl (s : Symbols) : s.Grown s := ⟨rfl, fun h => h, fun h => .inl h⟩

theorem Grown.trans {a b c : Symbols} (h : a.Grown b) (h' : b.Grown c) : a.Grown c := by
  refine ⟨h'.aliases.trans h.aliases, fun hk => h'.kept (h.kept hk), fun hk => ?_⟩
  rcases h'.added hk with hk | ht
  · exact h.added hk
  · exact .inr ht

theorem Grown.entered? {s s' : Symbols} (h : s.Grown s') {n : Text} {t : Ty} (he : s.entered? n = some t) :
    s'.entered? n = some t := by
  rw [Symbols.entered?, h.aliases]
  exact h.kept he

/-- Array types have been added, and nothing else is different. -/
structure Extends (s s' : Symbols) : Prop where
  rest : s' = { s with types := s'.types }
  grown : s.Grown s'

theorem Extends.refl (s : Symbols) : s.Extends s := ⟨rfl, .refl s⟩

theorem Extends.trans {a b c : Symbols} (h : a.Extends b) (h' : b.Extends c) : a.Extends c :=
  ⟨by rw [h'.rest, h.rest], h.grown.trans h'.grown⟩

namespace Extends
variable {s s' : Symbols}

theorem fieldsOf (h : s.Extends s') (t : Ty) : s'.fieldsOf t = s.fieldsOf t := by rw [h.rest]; rfl

theorem allMethods (h : s.Extends s') (t : Ty) : s'.allMethods t = s.allMethods t := by rw [h.rest]; rfl

theorem ctorsOf (h : s.Extends s') (t : Ty) : s'.ctorsOf t = s.ctorsOf t := by rw [h.rest]; rfl

theorem delegate? (h : s.Extends s') (t : Option Ty) : s'.delegate? t = s.delegate? t := by rw [h.rest]; rfl

end Extends

/-- A name that is looked up is entered, or is that of an array whose element type is looked up. -/
theorem lookup_cases {s s' : Symbols} {n : Text} {t : Ty} (h : s.lookup n = .ok (t, s')) :
    (s.entered? n = some t ∧ s' = s) ∨
      (s.entered? n = none ∧ ∃ e u s₁, TypeName.elem? n = some e ∧ s.lookup e = .ok (u, s₁) ∧ t = .array u ∧
        s' = { s₁ with types := s₁.types.put ((s₁.aliases.get? (key n)).getD (key n)) (.array u) }) := by
  rw [lookup] at h
  split at h
  · cases h
    exact .inl ⟨‹_›, rfl⟩
  · rename_i hn
    split at h
    · rename_i e he
      obtain ⟨⟨u, s₁⟩, hu, h⟩ := bind_eq_ok.mp h
      cases h
      exact .inr ⟨hn, e, u, s₁, he, hu, rfl, rfl⟩
    · cases h

/-- Where the name of an array has been entered for an array only, it stands for one, also when more arrays have been
    entered. -/
theorem Extends.lookup_array {s s₁ s' : Symbols} (h : s.Extends s₁) {n : Text} {t : Ty}
    (harrays : ∀ {n : Text} {t : Ty}, s.entered? (TypeName.array n) = some t → t.isArray = true)
    (hl : s₁.lookup (TypeName.array n) = .ok (t, s')) : t.isArray = true := by
  rcases lookup_cases hl with ⟨he, -⟩ | ⟨-, e, u, s₂, -, -, rfl, -⟩
  · rw [entered?, h.grown.aliases] at he
    rcases h.grown.added he with he | harray
    · exact harrays he
    · exact harray
  · rfl

theorem lookup_of_entered {s : Symbols} {n : Text} {t : Ty} (h : s.entered? n = some t) : s.lookup n = .ok (t, s) := by
  rw [lookup, h]

/-- What a name stood for when it was looked up is entered for it. -/
theorem lookup_entered {s s' : Symbols} {n : Text} {t : Ty} (h : s.lookup n = .ok (t, s')) : s'.entered? n = some t := by
  rcases lookup_cases h with ⟨he, rfl⟩ | ⟨-, e, u, s₁, -, -, rfl, rfl⟩
  · exact he
  · simp only [entered?]
    rw [Table.get?_put, if_pos rfl]

/-- The name of what has not been entered can be that of an array only. -/
theorem lookup_of_none {s : Symbols} {n : Text} (h : s.entered? n = none) : s.lookup n =
    match TypeName.elem? n with
    | some e => do
      let (t, s) ← s.lookup e
      return (.array t, { s with types := s.types.put ((s.aliases.get? (key n)).getD (key n)) (.array t) })
    | none => .error (.lookup (.missingType n)) := by
  rw [lookup, h]
  dsimp only
  split
  · rename_i he
    rw [he]
  · rename_i he
    rw [he]

theorem lookup_of_elem {s s₁ : Symbols} {n e : Text} {u : Ty} (h : s.entered? n = none) (he : TypeName.elem? n = some e)
    (hu : s.lookup e = .ok (u, s₁)) : ∃ s₂, s.lookup n = .ok (.array u, s₂) := by
  rw [lookup_of_none h, he]
  dsimp only
  rw [hu]
  exact ⟨_, rfl⟩

/-- Induction on the parts of array names. -/
theorem elem?_induction {P : Text → Prop} (h : ∀ n, (∀ e, TypeName.elem? n = some e → P e) → P n) (n : Text) : P n :=
  h n fun e _ => elem?_induction h e
termination_by n.size
decreasing_by exact TypeName.elem?_size ‹_›

theorem lookup_extends {s s' : Symbols} {n : Text} {t : Ty} (h : s.lookup n = .ok (t, s')) : s.Extends s' := by
  induction n using elem?_induction generalizing s s' t with
  | h n ih =>
    rcases lookup_cases h with ⟨-, rfl⟩ | ⟨hn, e, u, s₁, he, hu, rfl, rfl⟩
    · exact .refl _
    · have hx := ih e he hu
      have hfree : s.types.get? ((s₁.aliases.get? (key n)).getD (key n)) = none := by
        rw [hx.rest]
        exact hn
      refine ⟨?_, ?_, fun {k t} hk => ?_, fun {k t} hk => ?_⟩
      · show { s₁ with types := _ } = { s with types := _ }
        rw [hx.rest]
      · rw [hx.rest]
      · show (s₁.types.put _ _).get? k = some t
        rw [Table.get?_put, if_neg (fun hkk => by rw [hkk, hk] at hfree; cases hfree)]
        exact hx.grown.kept hk
      · have hk : (s₁.types.put _ _).get? k = some t := hk
        rw [Table.get?_put] at hk
        split at hk
        · cases hk
          exact .inr rfl
        · exact hx.grown.added hk

/-- All types that have been entered are of a kind. -/
def All (s : Symbols) (P : Ty → Prop) : Prop := ∀ {k : Text} {t : Ty}, s.types.get? k = some t → P t

/-- What a name stands for is of a kind, however many array types have been added to `s`. -/
def Names (s : Symbols) (P : Ty → Prop) (n : Text) : Prop :=
  ∀ (s₁ s₂ : Symbols) (t : Ty), s.Grown s₁ → s₁.All P → s₁.lookup n = .ok (t, s₂) → P t ∧ s₂.All P

theorem Names.grown {s s' : Symbols} {P : Ty → Prop} {n : Text} (h : s.Names P n) (hg : s.Grown s') : s'.Names P n :=
  fun s₁ s₂ t hs ha hl => h s₁ s₂ t (hg.trans hs) ha hl

/-- Names stand for types of a kind that goes over to arrays. -/
theorem names_of_array {P : Ty → Prop} (hP : ∀ {e : Ty}, P e → P (.array e)) (s : Symbols) (n : Text) : s.Names P n := by
  induction n using elem?_induction with
  | h n ih =>
    intro s₁ s₂ t hg ha hl
    rcases lookup_cases hl with ⟨he, rfl⟩ | ⟨-, e, u, s₃, he, hu, rfl, rfl⟩
    · exact ⟨ha he, ha⟩
    · obtain ⟨hPu, ha'⟩ := ih e he s₁ s₃ u hg ha hu
      refine ⟨hP hPu, fun {k t} hk => ?_⟩
      have hk : (s₃.types.put _ _).get? k = some t := hk
      rw [Table.get?_put] at hk
      split at hk
      · cases hk
        exact hP hPu
      · exact ha' hk

/-! ### Entering symbols -/

/-- What is done in a phase unless something stands against it. -/
theorem guarded_ok_iff {s s' u : Symbols} {p : Phase} {what : Text} {b : Bool} {f : Fault} :
    (do s.requirePhase p what; if b = true then Except.error f else return u) = .ok s' ↔ s.phase = p ∧
      b = false ∧ s' = u := by
  unfold requirePhase
  by_cases hp : s.phase = p
  · rw [if_pos hp]
    cases b with
    | true => exact ⟨fun h => (by cases h), fun h => (by cases h.2.1)⟩
    | false => exact ⟨fun h => (by cases h; exact ⟨hp, rfl, rfl⟩), fun h => (by rw [h.2.2]; rfl)⟩
  · rw [if_neg hp]
    exact ⟨fun h => (by cases h), fun h => absurd h.1 hp⟩

theorem registerType_ok_iff {s s' : Symbols} {t : Ty} :
    s.registerType t = .ok s' ↔ s.phase = .declare ∧ s.hasType t.name = false ∧
    s' = { s with types := s.types.put (key t.name) t, declared := s.declared ++ [t] } :=
  guarded_ok_iff

theorem registerDelegate_ok_iff {s s' : Symbols} {x : Delegate} : s.registerDelegate x = .ok s' ↔
    s.phase = .declare ∧ s.delegates.get? (key x.type.name) = none ∧
      s' = { s with delegates := s.delegates.put (key x.type.name) x } := by
  refine guarded_ok_iff.trans (and_congr_right fun _ => and_congr_left fun _ => ?_)
  rw [Table.has_eq, Option.isSome_eq_false_iff, Option.isNone_iff_eq_none]

/-! ### Members -/

theorem mem_methodsOf {s : Symbols} {t : Ty} {n : Text} {m : Method} :
    m ∈ s.methodsOf t n ↔ m ∈ s.allMethods t ∧ m.name = n := by
  simp [methodsOf]

theorem mem_methodsAlong {s : Symbols} {object t : Ty} {n : Text} {m : Method} :
    m ∈ s.methodsAlong object t n ↔ ∃ c ∈ Ty.lineage object t, m ∈ s.allMethods c ∧ m.name = n := by
  simp only [methodsAlong, List.mem_flatMap, mem_methodsOf]

theorem fieldAlong_mem {s : Symbols} {object t : Ty} {n : Text} {f : Field} (h : s.fieldAlong object t n = .ok f) :
    ∃ c ∈ Ty.lineage object t, f ∈ s.fieldsOf c := by
  unfold fieldAlong at h
  split at h
  · rename_i g hg
    cases h
    obtain ⟨c, hc, hf⟩ := List.exists_of_findSome?_eq_some hg
    exact ⟨c, hc, List.mem_of_find?_eq_some hf⟩
  · cases h

theorem findMethod_mem {s : Symbols} {t : Ty} {n : Text} {args : List (Option Ty)} {isStatic : Bool} {m : Method}
    (h : s.findMethod t n args isStatic = .ok m) :
    m ∈ s.allMethods t ∧ m.name = n ∧ m.isStatic = isStatic ∧ Ty.sameList m.params args = true := by
  unfold findMethod at h
  split at h
  · cases h
  · split at h
    · rename_i x hx
      cases h
      have hm := mem_methodsOf.mp (List.mem_of_find?_eq_some hx)
      have hp := List.find?_some hx
      simp only [Bool.and_eq_true, beq_iff_eq] at hp
      exact ⟨hm.1, hm.2, hp⟩
    · cases h

theorem findConstructor_mem {s : Symbols} {t : Ty} {args : List (Option Ty)} {c : Method}
    (h : s.findConstructor t args = .ok c) : c ∈ s.ctorsOf t ∧ Ty.sameList c.params args = true := by
  unfold findConstructor at h
  split at h
  · cases h
  · split at h
    · rename_i x hx
      cases h
      have hp := List.find?_some hx
      exact ⟨List.mem_of_find?_eq_some hx, hp⟩
    · cases h

theorem matchNull?_mem {s : Symbols} {t : Ty} {n : Text} {args : List (Option Ty)} {isStatic : Bool} {m : Method}
    (h : s.matchNull? t n args isStatic = some m) :
    m ∈ s.allMethods t ∧ m.name = n ∧ m.isStatic = isStatic ∧ Ty.fits m.params args = true := by
  unfold matchNull? at h
  split at h
  · have hm := mem_methodsOf.mp (List.mem_of_find?_eq_some h)
    have hp := List.find?_some h
    simp only [Bool.and_eq_true, beq_iff_eq] at hp
    exact ⟨hm.1, hm.2, hp⟩
  · cases h

/-- The overload of a call is a method of one of the types, and takes the arguments. -/
theorem resolveAlong_mem {s : Symbols} {n : Text} {args : List (Option Ty)} {isStatic : Bool} {failed : Option Fault}
    {ts : List Ty} {m : Method} (h : s.resolveAlong n args isStatic failed ts = .ok m) :
    ∃ c ∈ ts, m ∈ s.allMethods c ∧ m.name = n ∧ m.isStatic = isStatic ∧
      (Ty.sameList m.params args = true ∨ Ty.fits m.params args = true) := by
  induction ts generalizing failed with
  | nil => cases h
  | cons t ts ih =>
    unfold resolveAlong at h
    split at h
    · rename_i x hx
      cases h
      obtain ⟨hm, hn, hst, hp⟩ := findMethod_mem hx
      exact ⟨t, List.mem_cons_self, hm, hn, hst, .inl hp⟩
    · split at h
      · rename_i x hx
        cases h
        obtain ⟨hm, hn, hst, hp⟩ := matchNull?_mem hx
        exact ⟨t, List.mem_cons_self, hm, hn, hst, .inr hp⟩
      · obtain ⟨c, hc, hm⟩ := ih h
        exact ⟨c, List.mem_cons_of_mem _ hc, hm⟩

theorem delegateTarget_mem {s : Symbols} {object t : Ty} {n : Text} {only : Option Bool} {d : Delegate} {shownAs : Ty}
    {m : Method} (h : s.delegateTarget object t n only d shownAs = .ok m) :
    (∃ c ∈ Ty.lineage object t, m ∈ s.allMethods c ∧ m.name = n) ∧ (∀ b, only = some b → m.isStatic = b) ∧
      Ty.sameList m.params d.params = true ∧ Ty.same m.ret d.ret = true := by
  unfold delegateTarget at h
  dsimp only at h
  split at h
  · rename_i x hx
    cases h
    have hm := List.mem_filter.mp (List.mem_of_find?_eq_some hx)
    have hp := List.find?_some hx
    simp only [Bool.and_eq_true] at hp
    refine ⟨mem_methodsAlong.mp hm.1, fun b hb => ?_, hp⟩
    have hst := hm.2
    rw [hb] at hst
    simpa using hst
  · split at h
    all_goals cases h

end Symbols

/-! ### Parameters and arguments -/

namespace Ty

/-- The line of a type begins with the type itself. -/
theorem lineage_head (object t : Ty) : ∃ bases, lineage object t = t :: bases := by
  have hchain : ∃ bases, t.chain = t :: bases := by
    cases t <;> exact ⟨_, rfl⟩
  obtain ⟨bases, hc⟩ := hchain
  unfold lineage
  split
  · exact ⟨bases, hc⟩
  · exact ⟨bases ++ [object], by rw [hc]; rfl⟩

theorem same_iff {a b : Option Ty} : same a b = true ↔ a.map name = b.map name := by
  simp [same]

/-- Lists of types agree where their names do. -/
theorem sameList_iff {as bs : List (Option Ty)} :
    sameList as bs = true ↔ as.map (Option.map name) = bs.map (Option.map name) := by
  induction as generalizing bs with
  | nil => cases bs <;> simp [sameList]
  | cons a as ih =>
    cases bs with
    | nil => simp [sameList]
    | cons b bs => simp [sameList, same, ih]

theorem sameList_refl (ts : List (Option Ty)) : sameList ts ts = true := sameList_iff.mpr rfl

/-- Exact types fit, where parameters have types. -/
theorem fits_of_sameList {ps args : List (Option Ty)} (hp : ∀ p ∈ ps, ∃ t, p = some t) (h : sameList ps args = true) :
    fits ps args = true := by
  induction ps generalizing args with
  | nil =>
    cases args with
    | nil => rfl
    | cons a as => cases h
  | cons p ps ih =>
    cases args with
    | nil => cases h
    | cons a as =>
      simp only [sameList, Bool.and_eq_true] at h
      simp only [fits, Bool.and_eq_true]
      refine ⟨?_, ih (fun q hq => hp q (List.mem_cons_of_mem _ hq)) h.2⟩
      obtain ⟨t, rfl⟩ := hp p List.mem_cons_self
      cases a with
      | none => simp [same] at h
      | some u => exact h.1

theorem sameList_length {as bs : List (Option Ty)} (h : sameList as bs = true) : as.length = bs.length := by
  induction as generalizing bs with
  | nil =>
    cases bs with
    | nil => rfl
    | cons b bs => cases h
  | cons a as ih =>
    cases bs with
    | nil => cases h
    | cons b bs =>
      simp only [sameList, Bool.and_eq_true] at h
      simp only [List.length_cons, ih h.2]

theorem fits_length {as bs : List (Option Ty)} (h : fits as bs = true) : as.length = bs.length := by
  induction as generalizing bs with
  | nil =>
    cases bs with
    | nil => rfl
    | cons b bs => cases h
  | cons a as ih =>
    cases bs with
    | nil => cases h
    | cons b bs =>
      simp only [fits, Bool.and_eq_true] at h
      simp only [List.length_cons, ih h.2]

/-- What an argument can be is a parameter type of a candidate. -/
theorem mem_hints {ms : List Method} {arity : Nat} {t : Ty} (h : some t ∈ hints ms arity) :
    ∃ m ∈ ms, some t ∈ m.params := by
  simp only [hints, List.mem_map, List.mem_range] at h
  obtain ⟨i, -, h⟩ := h
  have head : ∀ {l : List (Option Ty)}, agreed l = some t → some t ∈ l := by
    intro l hl
    cases l with
    | nil => cases hl
    | cons a as =>
      simp only [agreed] at hl
      split at hl
      · rw [hl]
        exact List.mem_cons_self
      · cases hl
  obtain ⟨ps, hps, hi⟩ := List.mem_map.mp (head h)
  obtain ⟨m, hm, rfl⟩ := List.mem_map.mp (List.mem_filter.mp hps).1
  refine ⟨m, hm, ?_⟩
  cases hp : m.params[i]? with
  | none => simp [hp] at hi
  | some p =>
    rw [hp] at hi
    cases hi
    exact List.mem_of_getElem? hp

end Ty
end CilCompiler
