import CilCompiler.Proofs.Outcome
import CilCompiler.Proofs.Renaming.Type
import CilCompiler.Proofs.Symbols
import CilCompiler.Proofs.Text.Composed

/-!
Symbols under a renaming. When the members entered for a renamed type are the renamed members, every way to find a
member gives the renamed member, or fails with the same code.

What names stand for. Looking up the name of an array type enters it, so the types that are entered depend on the
order of lookups. What a name stands for does not (`lookup_sameNames`), and neither does the type that a name other
than an array's is entered for.
-/

namespace CilCompiler

/-! ### Members -/

/-- The members of a renamed type are the renamed ones. -/
structure Symbols.Mirrors (ρ : Renaming) (s s' : Symbols) : Prop where
  fields : ∀ t, s'.fieldsOf (ρ.ty t) = (s.fieldsOf t).map ρ.field
  methods : ∀ t, s'.allMethods (ρ.ty t) = (s.allMethods t).map ρ.method
  ctors : ∀ t, s'.ctorsOf (ρ.ty t) = (s.ctorsOf t).map ρ.method
  delegates : ∀ t, s'.delegate? (ρ.opt t) = (s.delegate? t).map ρ.delegate

namespace Symbols.Mirrors

variable {ρ : Renaming} {s s' : Symbols} (h : s.Mirrors ρ s')
include h

theorem fieldAlong (object t : Ty) (name : Text) :
    Agree (fun f f' => f' = ρ.field f) (s.fieldAlong object t name) (s'.fieldAlong (ρ.ty object) (ρ.ty t) name) := by
  have hfind : ((Ty.lineage (ρ.ty object) (ρ.ty t)).findSome? fun c => (s'.fieldsOf c).find? fun f => f.name = name) =
      ((Ty.lineage object t).findSome? fun c => (s.fieldsOf c).find? fun f => f.name = name).map ρ.field := by
    rw [Renaming.lineage_ty, List.findSome?_map, List.map_findSome?]
    congr 1
    funext c
    simp only [Function.comp_apply, h.fields, List.find?_map]
    rfl
  rw [Symbols.fieldAlong, Symbols.fieldAlong, hfind]
  generalize List.findSome? _ (Ty.lineage object t) = found
  cases found with
  | none => exact .error rfl
  | some f => exact .ok rfl

theorem methodsOf (t : Ty) (name : Text) : s'.methodsOf (ρ.ty t) name = (s.methodsOf t name).map ρ.method := by
  rw [Symbols.methodsOf, h.methods, List.filter_map]
  rfl

theorem methodsAlong (object t : Ty) (name : Text) :
    s'.methodsAlong (ρ.ty object) (ρ.ty t) name = (s.methodsAlong object t name).map ρ.method := by
  simp only [Symbols.methodsAlong, Renaming.lineage_ty, List.flatMap_map, List.map_flatMap, h.methodsOf]

theorem candidates (object t : Ty) (name : Text) (isStatic : Bool) :
    s'.candidates (ρ.ty object) (ρ.ty t) name isStatic = (s.candidates object t name isStatic).map ρ.method := by
  rw [Symbols.candidates, h.methodsAlong, List.filter_map]
  rfl

theorem findMethod (t : Ty) (name : Text) (args : List (Option Ty)) (isStatic : Bool) :
    Agree (fun m m' => m' = ρ.method m) (s.findMethod t name args isStatic)
      (s'.findMethod (ρ.ty t) name (args.map ρ.opt) isStatic) := by
  rw [Symbols.findMethod, Symbols.findMethod, h.methodsOf]
  cases s.methodsOf t name with
  | nil => exact .error rfl
  | cons m ms =>
    simp only [List.map_cons]
    rw [← List.map_cons, List.find?_map]
    simp only [Function.comp_def, Renaming.isStatic_method, Renaming.params_method, Renaming.sameList_map]
    cases (m :: ms).find? _ with
    | none => exact .error rfl
    | some m => exact .ok rfl

theorem findConstructor (t : Ty) (args : List (Option Ty)) :
    Agree (fun m m' => m' = ρ.method m) (s.findConstructor t args) (s'.findConstructor (ρ.ty t) (args.map ρ.opt)) := by
  rw [Symbols.findConstructor, Symbols.findConstructor, h.ctors]
  cases s.ctorsOf t with
  | nil => exact .error rfl
  | cons m ms =>
    simp only [List.map_cons]
    rw [← List.map_cons, List.find?_map]
    simp only [Function.comp_def, Renaming.params_method, Renaming.sameList_map]
    cases (m :: ms).find? _ with
    | none => exact .error rfl
    | some m => exact .ok rfl

theorem matchNull? (t : Ty) (name : Text) (args : List (Option Ty)) (isStatic : Bool) :
    s'.matchNull? (ρ.ty t) name (args.map ρ.opt) isStatic = (s.matchNull? t name args isStatic).map ρ.method := by
  have hnone : (args.map ρ.opt).contains none = args.contains none := by
    induction args with
    | nil => rfl
    | cons a args ih => cases a <;> simp_all
  simp only [Symbols.matchNull?, hnone, h.methodsOf, List.find?_map, Function.comp_def, Renaming.isStatic_method,
    Renaming.params_method, Renaming.fits_map]
  split <;> rfl

omit h in
/-- Of two failures the code alone says which is kept. -/
theorem answer?_clearer {first first' : Option Fault} {f f' : Fault}
    (hf : first.map Fault.answer? = first'.map Fault.answer?)
    (hc : f.answer? = f'.answer?) : (clearer first f).answer? = (clearer first' f').answer? := by
  cases first <;> cases first' <;> simp only [Option.map_none, Option.map_some, Option.some.injEq, reduceCtorEq] at hf
  · exact hc
  · simp only [clearer, Fault.code?_of_answer hf, Fault.code?_of_answer hc]
    split
    · exact hc
    · exact hf

theorem resolveAlong (name : Text) (args : List (Option Ty)) (isStatic : Bool) {failed failed' : Option Fault}
    (hf : failed.map Fault.answer? = failed'.map Fault.answer?) (ts : List Ty) :
    Agree (fun m m' => m' = ρ.method m) (s.resolveAlong name args isStatic failed ts)
      (s'.resolveAlong name (args.map ρ.opt) isStatic failed' (ts.map ρ.ty)) := by
  induction ts generalizing failed failed' with
  | nil =>
    refine .error ?_
    cases failed <;> cases failed' <;> simp_all
  | cons t ts ih =>
    simp only [List.map_cons, Symbols.resolveAlong, h.matchNull?]
    have hm := h.findMethod t name args isStatic
    generalize s.findMethod t name args isStatic = x at hm ⊢
    generalize s'.findMethod (ρ.ty t) name (args.map ρ.opt) isStatic = y at hm ⊢
    cases hm with
    | ok hm => exact .ok hm
    | error hc =>
      cases s.matchNull? t name args isStatic with
      | some m => exact .ok rfl
      | none => exact ih (by simp [answer?_clearer hf hc])

theorem resolve (object t : Ty) (name : Text) (args : List (Option Ty)) (isStatic : Bool) :
    Agree (fun m m' => m' = ρ.method m) (s.resolve object t name args isStatic)
      (s'.resolve (ρ.ty object) (ρ.ty t) name (args.map ρ.opt) isStatic) := by
  rw [Symbols.resolve, Symbols.resolve, Renaming.lineage_ty]
  exact h.resolveAlong name args isStatic rfl _

theorem delegateTarget (object t : Ty) (name : Text) (only : Option Bool) (d : Delegate) (shownAs shownAs' : Ty) :
    Agree (fun m m' => m' = ρ.method m) (s.delegateTarget object t name only d shownAs)
      (s'.delegateTarget (ρ.ty object) (ρ.ty t) name only (ρ.delegate d) shownAs') := by
  simp only [Symbols.delegateTarget, h.methodsAlong, List.filter_map, List.find?_map, List.isEmpty_map, Function.comp_def,
    Renaming.isStatic_method, Renaming.params_method, Renaming.ret_method, Renaming.delegate, Renaming.sameList_map,
    Renaming.same_opt]
  generalize List.filter _ (s.methodsAlong object t name) = found
  cases found.find? _ with
  | some m => exact .ok rfl
  | none => exact .ite Iff.rfl (fun _ => .error rfl) (fun _ => .error rfl)

end Symbols.Mirrors

namespace Symbols

/-! ### The meaning of a name -/

/-- The type a name stands for, if it stands for one. -/
def meaning (s : Symbols) (n : Text) : Option Ty := (s.lookup n).toOption.map Prod.fst

theorem meaning_eq_some {s : Symbols} {n : Text} {t : Ty} : s.meaning n = some t ↔ ∃ s', s.lookup n = .ok (t, s') := by
  unfold meaning
  cases s.lookup n with
  | error f => simp [Except.toOption]
  | ok r =>
    obtain ⟨u, s'⟩ := r
    simp [Except.toOption]

theorem meaning_eq_none {s : Symbols} {n : Text} : s.meaning n = none ↔ ∃ f, s.lookup n = .error f := by
  unfold meaning
  cases s.lookup n with
  | error f => simp [Except.toOption]
  | ok r => simp [Except.toOption]

/-- A name stands for the type entered for it, or for an array of what the name of its elements stands for. -/
theorem meaning_eq (s : Symbols) (n : Text) :
    s.meaning n = (s.entered? n).or ((TypeName.elem? n).bind fun e => (s.meaning e).map .array) := by
  unfold meaning
  rw [lookup]
  cases s.entered? n with
  | some t => rfl
  | none =>
    simp only [Option.none_or]
    split
    · rename_i e he
      rw [he, Option.bind_some]
      cases s.lookup e <;> rfl
    · rename_i he
      rw [he]
      rfl

theorem lookup_error {s : Symbols} {n : Text} {f : Fault} (h : s.lookup n = .error f) :
    f.answer? = some (some .missingType) := by
  induction n using elem?_induction generalizing f with
  | h n ih =>
    rw [lookup] at h
    split at h
    · cases h
    · split at h
      · rename_i e he
        rcases hl : s.lookup e with g | r
        · rw [hl] at h
          cases h
          exact ih e he hl
        · rw [hl] at h
          cases h
      · cases h
        rfl

theorem entered?_congr {s : Symbols} {n m : Text} (h : key n = key m) : s.entered? n = s.entered? m := by
  simp only [entered?, h]

/-- Names with one key mean the same. -/
theorem meaning_congr {s : Symbols} {n m : Text} (h : key n = key m) : s.meaning n = s.meaning m := by
  induction n using elem?_induction generalizing m with
  | h n ih =>
    rw [meaning_eq, meaning_eq s m, entered?_congr h]
    congr 1
    cases hn : TypeName.elem? n with
    | none =>
      cases hm : TypeName.elem? m with
      | none => rfl
      | some e =>
        obtain ⟨e', he', -⟩ := TypeName.elem?_of_key h hm
        rw [hn] at he'
        cases he'
    | some e =>
      obtain ⟨e', he', hk⟩ := TypeName.elem?_of_key h.symm hn
      rw [he', Option.bind_some, Option.bind_some, ih e hn hk.symm]

/-! ### Array types that are entered -/

/-- No other spelling has to do with the names of array types. -/
def PlainAliases (s : Symbols) : Prop :=
  ∀ ⦃n e : Text⦄, TypeName.elem? n = some e →
    s.aliases.get? (key n) = none ∧ ∀ k, s.aliases.get? k ≠ some (key n)

/-- All names mean the same, and those that are not of arrays are entered for the same types. -/
structure SameNames (s s' : Symbols) : Prop where
  aliases : s'.aliases = s.aliases
  meaning : ∀ n, s'.meaning n = s.meaning n
  entered : ∀ n, TypeName.elem? n = none → s'.entered? n = s.entered? n

theorem SameNames.refl (s : Symbols) : s.SameNames s := ⟨rfl, fun _ => rfl, fun _ _ => rfl⟩

theorem SameNames.trans {s s' s'' : Symbols} (h : s.SameNames s') (h' : s'.SameNames s'') : s.SameNames s'' :=
  ⟨h'.aliases.trans h.aliases, fun n => (h'.meaning n).trans (h.meaning n),
    fun n hn => (h'.entered n hn).trans (h.entered n hn)⟩

theorem SameNames.symm {s s' : Symbols} (h : s.SameNames s') : s'.SameNames s :=
  ⟨h.aliases.symm, fun n => (h.meaning n).symm, fun n hn => (h.entered n hn).symm⟩

theorem SameNames.plainAliases {s s' : Symbols} (h : s.SameNames s') (hp : s.PlainAliases) : s'.PlainAliases := by
  intro n e he
  rw [h.aliases]
  exact hp he

/-- Only types and aliases have to do with names. -/
theorem SameNames.of_types {s s' : Symbols} (ht : s'.types = s.types) (ha : s'.aliases = s.aliases) : s.SameNames s' := by
  have hent : ∀ n, s'.entered? n = s.entered? n := fun n => by simp only [entered?, ht, ha]
  refine ⟨ha, fun n => ?_, fun n _ => hent n⟩
  induction n using elem?_induction with
  | h n ih =>
    rw [meaning_eq, meaning_eq s, hent]
    cases he : TypeName.elem? n with
    | none => rfl
    | some e => rw [Option.bind_some, Option.bind_some, ih e he]

/-- The key under which a type is entered is that of an array's name only for this name. -/
theorem PlainAliases.key_eq {s : Symbols} (hp : s.PlainAliases) {n m e : Text} (he : TypeName.elem? n = some e)
    (hk : (s.aliases.get? (key m)).getD (key m) = key n) : key m = key n := by
  cases ha : s.aliases.get? (key m) with
  | none => simpa [ha] using hk
  | some k =>
    rw [ha, Option.getD_some] at hk
    exact absurd (ha.trans (congrArg some hk)) ((hp he).2 (key m))

/-- An array type that is entered under its name changes the meaning of none. -/
theorem sameNames_put {s : Symbols} (hp : s.PlainAliases) {n e : Text} {t : Ty} (he : TypeName.elem? n = some e)
    (hm : s.meaning n = some t) : s.SameNames { s with types := s.types.put (key n) t } := by
  have hent : ∀ m, key m ≠ key n → ({ s with types := s.types.put (key n) t } : Symbols).entered? m = s.entered? m := by
    intro m hne
    simp only [entered?]
    rw [Table.get?_put, if_neg fun hk => hne (hp.key_eq he hk.symm)]
  refine ⟨rfl, fun m => ?_, fun m hem => hent m fun hk => ?_⟩
  · induction m using elem?_induction with
    | h m ih =>
      by_cases hk : key m = key n
      · have hput : ({ s with types := s.types.put (key n) t } : Symbols).entered? m = some t := by
          simp only [entered?, hk, (hp he).1, Option.getD_none]
          rw [Table.get?_put, if_pos rfl]
        rw [meaning_congr hk (s := s), hm, meaning_eq, hput, Option.some_or]
      · rw [meaning_eq, meaning_eq s, hent m hk]
        cases hem : TypeName.elem? m with
        | none => rfl
        | some e' => rw [Option.bind_some, Option.bind_some, ih e' hem]
  · obtain ⟨e', he', -⟩ := TypeName.elem?_of_key hk he
    rw [hem] at he'
    cases he'

/-- Looking up a name changes the meaning of none. -/
theorem lookup_sameNames {s s' : Symbols} {n : Text} {t : Ty} (hp : s.PlainAliases) (h : s.lookup n = .ok (t, s')) :
    s.SameNames s' := by
  induction n using elem?_induction generalizing s s' t with
  | h n ih =>
    have hm : s.meaning n = some t := meaning_eq_some.2 ⟨s', h⟩
    rcases lookup_cases h with ⟨-, rfl⟩ | ⟨hn, e, u, s₁, he, hu, rfl, rfl⟩
    · exact .refl _
    · have hs := ih e he hp hu
      have hp₁ := hs.plainAliases hp
      rw [(hp₁ he).1, Option.getD_none]
      exact hs.trans (sameNames_put hp₁ he ((hs.meaning n).trans hm))

end Symbols

/-! ### Names under a renaming -/

/-- A relation between symbols under which names stand for renamed types. It has to do with what the names stand for
    only and outlives lookups; of what is entered it says something for the names `V`. -/
structure Renaming.Naming (ρ : Renaming) (V : Text → Prop) (K : Symbols → Symbols → Prop) : Prop where
  lookup : ∀ {s s' : Symbols} (n : Text), K s s' →
    Agree (fun r r' => r'.1 = ρ.ty r.1 ∧ K r.2 r'.2) (s.lookup n) (s'.lookup n)
  entered : ∀ {s s' : Symbols} {n : Text}, K s s' → V n → s'.entered? n = (s.entered? n).map ρ.ty
  keeps : ∀ {s s' r r' : Symbols}, K s s' → r.types = s.types → r.aliases = s.aliases → r'.types = s'.types →
    r'.aliases = s'.aliases → K r r'

/-- Names stand for renamed types, whichever array types have been entered on either side. -/
structure Symbols.Linked (ρ : Renaming) (s s' : Symbols) : Prop where
  plain : s.PlainAliases
  plain' : s'.PlainAliases
  meaning : ∀ n, s'.meaning n = (s.meaning n).map ρ.ty
  entered : ∀ n, TypeName.elem? n = none → s'.entered? n = (s.entered? n).map ρ.ty

theorem Symbols.Linked.of_sameNames {ρ : Renaming} {s s' r r' : Symbols} (h : s.Linked ρ s') (hs : s.SameNames r)
    (hs' : s'.SameNames r') : r.Linked ρ r' :=
  ⟨hs.plainAliases h.plain, hs'.plainAliases h.plain',
    fun n => by rw [hs'.meaning, h.meaning, hs.meaning],
    fun n hn => by rw [hs'.entered n hn, h.entered n hn, hs.entered n hn]⟩

theorem Symbols.Linked.naming (ρ : Renaming) : ρ.Naming (fun n => TypeName.elem? n = none) (Linked ρ) where
  lookup := by
    intro s s' n h
    have hm := h.meaning n
    rcases hl : s.lookup n with f | ⟨t, r⟩
    · rw [meaning_eq_none.2 ⟨f, hl⟩, Option.map_none] at hm
      obtain ⟨g, hg⟩ := meaning_eq_none.1 hm
      rw [hg]
      exact .error ((lookup_error hl).trans (lookup_error hg).symm)
    · rw [meaning_eq_some.2 ⟨r, hl⟩, Option.map_some] at hm
      obtain ⟨r', hr'⟩ := meaning_eq_some.1 hm
      rw [hr']
      exact .ok ⟨rfl, h.of_sameNames (lookup_sameNames h.plain hl) (lookup_sameNames h.plain' hr')⟩
  entered h hn := h.entered _ hn
  keeps h ht ha ht' ha' := h.of_sameNames (.of_types ht ha) (.of_types ht' ha')

end CilCompiler
