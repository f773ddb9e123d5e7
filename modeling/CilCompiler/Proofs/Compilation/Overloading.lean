import CilCompiler.Proofs.Compilation.ArrayNames

/-! Which method a call is to. When the bodies of a program are generated, the overloads of a name on a type differ in
    their parameters or in whether they are static (`Frozen.overloaded`), so exact argument types leave at most one of
    them on each type. A call is to that one on the nearest type that has it; null fits any reference, and the first
    overload that the arguments fit counts then (`Frozen.resolve_exact`). The fault of a call that no method takes
    says whether there are methods of its name at all. -/

namespace CilCompiler

/-- The first element of a kind. -/
def First {α : Type} (P : α → Prop) (l : List α) (x : α) : Prop :=
  P x ∧ ∃ before after, l = before ++ x :: after ∧ ∀ y ∈ before, ¬P y

namespace First
variable {α : Type} {P Q : α → Prop} {l : List α} {x y : α}

theorem holds (h : First P l x) : P x := h.1

theorem mem (h : First P l x) : x ∈ l := by
  obtain ⟨-, before, after, rfl, -⟩ := h
  simp

theorem congr (h : ∀ x, P x ↔ Q x) : First P l x ↔ First Q l x := by
  simp only [First, h]

theorem iff_find? (p : α → Bool) : First (fun x => p x = true) l x ↔ l.find? p = some x := by
  simp only [First, List.find?_eq_some_iff_append, Bool.not_eq_true', Bool.not_eq_true]

theorem cons_of_pos (h : P y) : First P (y :: l) x ↔ x = y := by
  constructor
  · rintro ⟨-, before, after, hl, hnone⟩
    cases before with
    | nil => exact (List.cons.inj hl).1.symm
    | cons z before =>
      rw [(List.cons.inj hl).1] at h
      exact absurd h (hnone z List.mem_cons_self)
  · rintro rfl
    exact ⟨h, [], l, rfl, by simp⟩

theorem cons_of_neg (h : ¬P y) : First P (y :: l) x ↔ First P l x := by
  constructor
  · rintro ⟨hx, before, after, hl, hnone⟩
    cases before with
    | nil =>
      obtain ⟨rfl, -⟩ := List.cons.inj hl
      exact absurd hx h
    | cons z before => exact ⟨hx, before, after, (List.cons.inj hl).2, fun w hw => hnone w (List.mem_cons_of_mem _ hw)⟩
  · rintro ⟨hx, before, after, rfl, hnone⟩
    exact ⟨hx, y :: before, after, rfl, List.forall_mem_cons.mpr ⟨h, hnone⟩⟩

theorem not_nil : ¬First P [] x := by
  rintro ⟨-, before, after, hl, -⟩
  simp at hl

theorem exists_iff : (∃ x, First P l x) ↔ ∃ x ∈ l, P x := by
  induction l with
  | nil => simp [not_nil]
  | cons y l ih =>
    by_cases hy : P y
    · simp [cons_of_pos hy, hy]
    · simp [cons_of_neg hy, hy, ih]

end First

/-! ### Overloads on one type -/

namespace Method

/-- The parameters have types, and methods of one name differ in these or in whether they are static. -/
structure Overloads (ms : List Method) : Prop where
  typed : ∀ m ∈ ms, ∀ p ∈ m.params, ∃ t, p = some t
  distinct : ms.Pairwise fun m m' => ¬(m.name = m'.name ∧ m.isStatic = m'.isStatic ∧ Ty.sameList m.params m'.params = true)

theorem Overloads.nil : Overloads [] := ⟨by simp, .nil⟩

/-- What the check at an entry leaves. -/
theorem Overloads.append {ms : List Method} {m : Method} (h : Overloads ms) (hp : ∀ p ∈ m.params, ∃ t, p = some t)
    (hnew : (ms.any fun g => g.name = m.name && g.isStatic == m.isStatic && Ty.sameList g.params m.params) = false) :
    Overloads (ms ++ [m]) := by
  refine ⟨fun g hg => ?_, List.pairwise_append.mpr ⟨h.distinct, List.pairwise_singleton _ _, fun g hg m' hm => ?_⟩⟩
  · rcases List.mem_append.mp hg with hg | hg
    · exact h.typed g hg
    · rw [List.mem_singleton.mp hg]
      exact hp
  · rw [List.mem_singleton.mp hm]
    rintro ⟨hname, hstatic, hparams⟩
    have hg := List.any_eq_false.mp hnew g hg
    simp [hname, hstatic, hparams] at hg

/-- A method of a name, static or not, with exactly the argument types as parameter types. -/
structure Matches (n : Text) (isStatic : Bool) (args : List (Option Ty)) (m : Method) : Prop where
  name : m.name = n
  isStatic : m.isStatic = isStatic
  params : m.params.map (Option.map Ty.name) = args.map (Option.map Ty.name)

/-- An argument is null and the parameter a reference, or both have one type. -/
def Admits (p a : Option Ty) : Prop :=
  match a with
  | none => ∃ t, p = some t ∧ t.isValue = false
  | some u => ∃ t, p = some t ∧ t.name = u.name

/-- A method of a name, static or not, that takes the arguments position by position. -/
structure Takes (n : Text) (isStatic : Bool) (args : List (Option Ty)) (m : Method) : Prop where
  name : m.name = n
  isStatic : m.isStatic = isStatic
  params : List.Forall₂ Admits m.params args

theorem accepts_iff {p a : Option Ty} : Ty.accepts p a = true ↔ Admits p a := by
  cases a <;> cases p <;> simp [Ty.accepts, Ty.same, Admits]

theorem fits_iff {ps args : List (Option Ty)} : Ty.fits ps args = true ↔ List.Forall₂ Admits ps args := by
  induction ps generalizing args with
  | nil => cases args <;> simp [Ty.fits]
  | cons p ps ih => cases args <;> simp [Ty.fits, accepts_iff, ih]

theorem matches_iff {n : Text} {isStatic : Bool} {args : List (Option Ty)} {m : Method} :
    Matches n isStatic args m ↔ (m.name = n ∧ m.isStatic = isStatic ∧ Ty.sameList m.params args = true) := by
  rw [Ty.sameList_iff]
  exact ⟨fun h => ⟨h.name, h.isStatic, h.params⟩, fun ⟨h₁, h₂, h₃⟩ => ⟨h₁, h₂, h₃⟩⟩

theorem takes_iff {n : Text} {isStatic : Bool} {args : List (Option Ty)} {m : Method} :
    Takes n isStatic args m ↔ (m.name = n ∧ m.isStatic = isStatic ∧ Ty.fits m.params args = true) := by
  rw [fits_iff]
  exact ⟨fun h => ⟨h.name, h.isStatic, h.params⟩, fun ⟨h₁, h₂, h₃⟩ => ⟨h₁, h₂, h₃⟩⟩

variable {ms : List Method} {n : Text} {isStatic : Bool} {args : List (Option Ty)} {m : Method}

/-- No parameter is without a type, so null matches none exactly. -/
theorem Overloads.not_matches (h : Overloads ms) (hm : m ∈ ms) (hnull : none ∈ args) : ¬Matches n isStatic args m := by
  intro hx
  have hmem : none ∈ m.params.map (Option.map Ty.name) := by
    rw [hx.params]
    exact List.mem_map.mpr ⟨none, hnull, rfl⟩
  obtain ⟨p, hp, hnone⟩ := List.mem_map.mp hmem
  obtain ⟨t, rfl⟩ := h.typed m hm p hp
  cases hnone

end Method

namespace Symbols
open Method

/-- Overloads can be told apart on every type. -/
def Overloaded (s : Symbols) : Prop := ∀ t, Overloads (s.allMethods t)

variable {s s' : Symbols}

theorem Overloaded.of_methods (h : s.Overloaded) (hm : s'.methods = s.methods) : s'.Overloaded := by
  intro t
  rw [allMethods, hm]
  exact h t

theorem Overloaded.registerMethod {m : Method} (h : s.Overloaded) (hp : ∀ p ∈ m.params, ∃ t, p = some t)
    (hs : s.registerMethod m = .ok s') : s'.Overloaded := by
  obtain ⟨_, -, hs⟩ := bind_eq_ok.mp hs
  dsimp only at hs
  split at hs
  · cases hs
  rename_i hnew
  cases hs
  intro t
  simp only [allMethods, Table.get?_put]
  split
  · exact (h m.owner).append hp (by simpa using hnew)
  · exact h t

theorem overloaded_invariant : Invariant Overloaded where
  registerMethod := .registerMethod
  lookup h hl := h.of_methods (by rw [(lookup_extends hl).rest])
  beginDeclarations h hs := by
    obtain ⟨_, -, hs⟩ := bind_eq_ok.mp hs
    cases hs
    exact h.of_methods rfl
  freeze h hs := by
    obtain ⟨_, -, hs⟩ := bind_eq_ok.mp hs
    cases hs
    exact h.of_methods rfl
  registerType h _ _ hs := by
    obtain ⟨_, -, hs⟩ := bind_eq_ok.mp hs
    split at hs <;> cases hs
    exact h.of_methods rfl
  registerField h hs := by
    obtain ⟨_, -, hs⟩ := bind_eq_ok.mp hs
    dsimp only at hs
    split at hs <;> cases hs
    exact h.of_methods rfl
  registerConstructor h hs := by
    obtain ⟨_, -, hs⟩ := bind_eq_ok.mp hs
    dsimp only at hs
    split at hs <;> cases hs
    exact h.of_methods rfl
  registerDelegate h hs := by
    obtain ⟨_, -, hs⟩ := bind_eq_ok.mp hs
    split at hs <;> cases hs
    exact h.of_methods rfl

/-! ### The catalog -/

/-- Methods of one name differ in the catalog, and all their parameters are of types of the catalog. -/
theorem catalog_methods : ∀ e ∈ Host.catalog,
    (e.methods.Pairwise fun m m' => ¬(m.name = m'.name ∧ m.isStatic = m'.isStatic ∧ m.params = m'.params)) ∧
      ∀ m ∈ e.methods, ∀ p ∈ m.params, p ∈ Host.catalog.map Host.TypeEntry.name := by decide

/-- A name of the catalog refers to the type of this name. -/
theorem ref_name {host : List Ty} {n : Text} (h : n ∈ host.map Ty.name) :
    ∃ t, (host.find? fun t => t.name = n) = some t ∧ t.name = n := by
  obtain ⟨t, ht, rfl⟩ := List.mem_map.mp h
  cases hf : host.find? fun u => u.name = t.name with
  | none =>
    have hnone := List.find?_eq_none.mp hf t ht
    simp at hnone
  | some u => exact ⟨u, rfl, by simpa using List.find?_some hf⟩

theorem ofEntry_overloads {host : List Ty} (hhost : host.map Ty.name = Host.catalog.map Host.TypeEntry.name) (t : Ty)
    {e : Host.TypeEntry} (he : e ∈ Host.catalog) :
      Overloads ((TypeDef.ofEntry host t e).methods.toList.map Routine.method) := by
  obtain ⟨hdistinct, hparams⟩ := catalog_methods e he
  rw [← hhost] at hparams
  have names : ∀ m ∈ e.methods, (m.params.map fun n => host.find? fun t => t.name = n).map (Option.map Ty.name) =
      m.params.map some := by
    intro m hm
    rw [List.map_map]
    refine List.map_congr_left fun p hp => ?_
    obtain ⟨u, hu, hname⟩ := ref_name (hparams m hm p hp)
    simp [hu, hname]
  have isStatic : ∀ a b : Bool, (MethodAttributes.isStatic ⟨9 + (if a then 2 else 0) + (if b then 4 else 0)⟩) = a :=
    by decide
  have hzip : e.methods.zipIdx.Pairwise fun x y =>
    ¬(x.1.name = y.1.name ∧ x.1.isStatic = y.1.isStatic ∧ x.1.params = y.1.params) := by
    rw [← List.zipIdx_map_fst 0 e.methods] at hdistinct
    exact List.pairwise_map.mp hdistinct
  simp only [TypeDef.ofEntry, List.map_map]
  refine ⟨fun m hm p hp => ?_, List.pairwise_map.mpr (hzip.imp_of_mem fun hx hy hne => ?_)⟩
  · obtain ⟨⟨r, i⟩, hr, rfl⟩ := List.mem_map.mp hm
    obtain ⟨n, hn, rfl⟩ := List.mem_map.mp hp
    obtain ⟨u, hu, -⟩ := ref_name (hparams r (List.fst_mem_of_mem_zipIdx hr) n hn)
    exact ⟨u, hu⟩
  · rintro ⟨hname, hstatic, hsame⟩
    refine hne ⟨hname, ?_, ?_⟩
    · simpa [Method.isStatic, isStatic] using hstatic
    · have hsame := Ty.sameList_iff.mp hsame
      simp only [Function.comp_apply] at hsame
      rw [names _ (List.fst_mem_of_mem_zipIdx hx), names _ (List.fst_mem_of_mem_zipIdx hy)] at hsame
      exact List.map_injective_iff.mpr (fun _ _ h => Option.some.inj h) hsame

theorem membersOf_overloads (id : Nat) (backend : Backend) (name runtime : Text) (t : Ty) :
    Overloads ((Module.new id backend name runtime).membersOf t).methods := by
  show Overloads ((Module.new id backend name runtime).methods t .all)
  unfold Module.methods
  split
  · rename_i d hd
    have hmem := Array.mem_toList_iff.mpr (Array.mem_of_getElem? (Module.def?_some hd).1)
    simp only [Module.new, List.mem_map] at hmem
    obtain ⟨⟨u, e⟩, hue, rfl⟩ := hmem
    have all : Binding.all.selects false = true ∧ Binding.all.selects true = true := by decide
    rw [List.filter_eq_self.mpr fun r _ => by cases r.isStatic; exacts [all.1, all.2]]
    refine ofEntry_overloads ?_ u (List.of_mem_zip hue).2
    rw [Host.types, typesFrom_names]
    rfl
  · exact .nil

theorem enterMembers_overloaded {xs : List TypeMembers} (hxs : ∀ x ∈ xs, Overloads x.methods) (h : s.Overloaded) :
    (xs.foldl enterMembers s).Overloaded := by
  induction xs generalizing s with
  | nil => exact h
  | cons x xs ih =>
    refine ih (fun y hy => hxs y (List.mem_cons_of_mem _ hy)) fun t => ?_
    simp only [enterMembers, allMethods, Table.get?_put]
    split
    · exact hxs x List.mem_cons_self
    · exact h t

theorem Overloaded.of_catalog {id : Nat} {backend : Backend} {name runtime : Text} {c : Compilation}
    (h : Compilation.enterCatalog (Compilation.start (Module.new id backend name runtime)) = .ok c) :
      c.symbols.Overloaded := by
  obtain ⟨s₁, h1, h⟩ := bind_eq_ok.mp h
  obtain ⟨s₂, h2, h⟩ := bind_eq_ok.mp h
  cases h
  obtain ⟨_, -, h1⟩ := bind_eq_ok.mp h1
  obtain rfl := Except.ok.inj h1
  have hnone : Overloaded {} := fun t => .nil
  refine Overloaded.of_methods (enterMembers_overloaded (fun x hx => ?_) hnone) (registerAliases_kept h2).2.2
  obtain ⟨t, -, rfl⟩ := List.mem_map.mp hx
  exact membersOf_overloads id backend name runtime t

/-- The symbols that bodies are generated with: what the passes ahead of bodies leave for a program, and the array
    types that are entered when they are looked up. -/
inductive Frozen : Symbols → Prop
  | prepared {id backend name runtime p c} :
      (Compilation.prepared p (.start (Module.new id backend name runtime))).Gives c → Frozen c.symbols
  | lookup {s s' n t} : Frozen s → s.lookup n = .ok (t, s') → Frozen s'

theorem Frozen.overloaded (h : s.Frozen) : s.Overloaded := by
  induction h with
  | prepared h => exact overloaded_invariant.prepared .of_catalog h
  | lookup _ hl ih => exact overloaded_invariant.lookup ih hl

/-! ### A call on one type -/

variable {object t : Ty} {n : Text} {isStatic : Bool} {args : List (Option Ty)} {m : Method}

/-- The method of a call on one type: one that matches exactly, or else one that takes null. -/
def chosen? (s : Symbols) (t : Ty) (n : Text) (args : List (Option Ty)) (isStatic : Bool) : Option Method :=
  ((s.methodsOf t n).find? fun m => m.isStatic == isStatic && Ty.sameList m.params args).or (s.matchNull? t n args isStatic)

/-- What is wrong with a call that no method of a type takes. -/
def missed (s : Symbols) (t : Ty) (n : Text) (args : List (Option Ty)) (isStatic : Bool) : LookupCause :=
  if s.methodsOf t n = [] then .missingMethod t.name n else .noMethodOverload isStatic t.name (signature n args)

theorem find?_methodsOf (p : Method → Bool) :
    (s.methodsOf t n).find? p = (s.allMethods t).find? fun m => decide (m.name = n) && p m := by
  simp only [methodsOf, List.find?_filter, Bool.decide_and, Bool.decide_eq_true]

theorem resolveAlong_cons {failed : Option Fault} {types : List Ty} :
    s.resolveAlong n args isStatic failed (t :: types) =
      match s.chosen? t n args isStatic with
      | some m => .ok m
      | none => s.resolveAlong n args isStatic (some (clearer failed (.lookup (s.missed t n args isStatic)))) types := by
  rw [resolveAlong, chosen?, missed]
  unfold findMethod
  cases hms : s.methodsOf t n with
  | nil => cases s.matchNull? t n args isStatic <;> rfl
  | cons g ms =>
    rw [if_neg (List.cons_ne_nil g ms)]
    dsimp only
    cases (g :: ms).find? _ with
    | some m => rfl
    | none => cases s.matchNull? t n args isStatic <;> rfl

/-- A call is to the choice on the first type that has one. -/
theorem resolveAlong_eq_ok {failed : Option Fault} {types : List Ty} :
    s.resolveAlong n args isStatic failed types = .ok m ↔
      ∃ c, First (fun c => (s.chosen? c n args isStatic).isSome = true) types c ∧ s.chosen? c n args isStatic = some m := by
  induction types generalizing failed with
  | nil =>
    refine ⟨fun h => (by cases h), fun h => ?_⟩
    obtain ⟨c, hc, -⟩ := h
    exact absurd hc First.not_nil
  | cons t types ih =>
    rw [resolveAlong_cons]
    cases hchosen : s.chosen? t n args isStatic with
    | some g =>
      have hpos : (s.chosen? t n args isStatic).isSome = true := by rw [hchosen]; rfl
      simp only [First.cons_of_pos (P := fun c => (s.chosen? c n args isStatic).isSome = true) hpos,
          exists_eq_left, hchosen,
        Except.ok.injEq, Option.some.injEq]
    | none =>
      have hneg : ¬(s.chosen? t n args isStatic).isSome = true := by rw [hchosen]; exact Bool.false_ne_true
      simp only [First.cons_of_neg (P := fun c => (s.chosen? c n args isStatic).isSome = true) hneg, ih]

/-- The fault of a call that no type has a method for: the first type with methods of the name counts. -/
theorem resolveAlong_missed {types : List Ty} {f : LookupCause} (h : ∀ c ∈ types, s.chosen? c n args isStatic = none) :
    s.resolveAlong n args isStatic (some (.lookup f)) types = .error (.lookup
      (if f.code = .noOverload then f
       else match types.find? fun c => s.methodsOf c n ≠ [] with
         | some c => .noMethodOverload isStatic c.name (signature n args)
         | none => f)) := by
  induction types generalizing f with
  | nil =>
    simp only [resolveAlong, List.find?_nil, ite_self]
    rfl
  | cons t types ih =>
    obtain ⟨ht, htypes⟩ := List.forall_mem_cons.mp h
    rw [resolveAlong_cons, ht]
    have hcode : ∀ g : LookupCause, (Fault.lookup g).code? = some g.code := fun _ => rfl
    dsimp only
    by_cases hf : f.code = .noOverload
    · have hclear : clearer (some (.lookup f)) (.lookup (s.missed t n args isStatic)) = .lookup f := by
        simp [clearer, hcode, hf]
      rw [hclear, ih htypes, if_pos hf, if_pos hf]
    · by_cases hms : s.methodsOf t n = []
      · have hclear : clearer (some (.lookup f)) (.lookup (s.missed t n args isStatic)) = .lookup f := by
          have hne : LookupCause.code (.missingMethod t.name n) ≠ .noOverload :=
            show Code.missingMethod ≠ .noOverload by decide
          simp [clearer, hcode, missed, hms, hne]
        rw [hclear, ih htypes, if_neg hf, if_neg hf, List.find?_cons_of_neg (by simp [hms])]
      · have hclear : clearer (some (.lookup f)) (.lookup (s.missed t n args isStatic)) =
            .lookup (.noMethodOverload isStatic t.name (signature n args)) := by
          have heq : LookupCause.code (.noMethodOverload isStatic t.name (signature n args)) = .noOverload := rfl
          simp [clearer, hcode, missed, hms, heq, hf]
        have heq : LookupCause.code (.noMethodOverload isStatic t.name (signature n args)) = .noOverload := rfl
        rw [hclear, ih htypes, if_pos heq, if_neg hf, List.find?_cons_of_pos (by simp [hms])]

/-! ### The method of a call -/

theorem matchNull?_eq (hnull : none ∈ args) :
    s.matchNull? t n args isStatic = some m ↔ First (Takes n isStatic args) (s.allMethods t) m := by
  rw [matchNull?, if_pos (List.contains_iff_mem.mpr hnull), find?_methodsOf, ← First.iff_find?]
  exact First.congr fun g => by simp [takes_iff]

namespace Overloaded
variable (h : s.Overloaded)
include h

theorem chosen?_exact (hargs : none ∉ args) :
    s.chosen? t n args isStatic = some m ↔ m ∈ s.allMethods t ∧ Matches n isStatic args m := by
  have hfind : s.chosen? t n args isStatic = some m ↔ First (Matches n isStatic args) (s.allMethods t) m := by
    have hnone : s.matchNull? t n args isStatic = none := by
      rw [matchNull?, if_neg (by simpa using hargs)]
    rw [chosen?, hnone, Option.or_none, find?_methodsOf, ← First.iff_find?]
    exact First.congr fun g => by simp [matches_iff]
  rw [hfind]
  refine ⟨fun hm => ⟨hm.mem, hm.holds⟩, ?_⟩
  rintro ⟨hm, hx⟩
  refine ⟨hx, ?_⟩
  obtain ⟨before, after, hms⟩ := List.append_of_mem hm
  refine ⟨before, after, hms, fun g hg hgx => ?_⟩
  -- Another match before this one would be a second method of the same signature.
  have hmem : g ∈ s.allMethods t := by rw [hms]; exact List.mem_append_left _ hg
  have hdistinct := (h t).distinct
  rw [hms] at hdistinct
  exact (List.pairwise_append.mp hdistinct).2.2 g hg m List.mem_cons_self
    ⟨hgx.name.trans hx.name.symm, hgx.isStatic.trans hx.isStatic.symm,
      Ty.sameList_iff.mpr (hgx.params.trans hx.params.symm)⟩

theorem chosen?_null (hnull : none ∈ args) :
    s.chosen? t n args isStatic = some m ↔ First (Takes n isStatic args) (s.allMethods t) m := by
  have hnone : ((s.methodsOf t n).find? fun m => m.isStatic == isStatic && Ty.sameList m.params args) = none := by
    refine List.find?_eq_none.mpr fun g hg hsame => ?_
    obtain ⟨hg, hname⟩ := mem_methodsOf.mp hg
    simp only [Bool.and_eq_true, beq_iff_eq] at hsame
    exact (h t).not_matches hg hnull (matches_iff.mpr ⟨hname, hsame.1, hsame.2⟩)
  rw [chosen?, hnone, Option.none_or, matchNull?_eq hnull]

end Overloaded

/-- A type has a method of a kind. -/
def Has (s : Symbols) (P : Method → Prop) (c : Ty) : Prop := ∃ m ∈ s.allMethods c, P m

/-- Which method a call is to, whatever a program declares. Without null it is the method with exactly the argument
    types on the nearest type that has one; with null it is the first that takes the arguments on the nearest type
    that has one. A call that is to no method fails, and the fault names the nearest type with methods of the name, or
    says that there are none. -/
theorem Frozen.resolve_exact (h : s.Frozen) (object t : Ty) (n : Text) (isStatic : Bool) (args : List (Option Ty)) :
    (none ∉ args → ∀ m, s.resolve object t n args isStatic = .ok m ↔
      ∃ c, First (s.Has (Matches n isStatic args)) (Ty.lineage object t) c ∧ m ∈ s.allMethods c ∧
        Matches n isStatic args m) ∧
    (none ∈ args → ∀ m, s.resolve object t n args isStatic = .ok m ↔
      ∃ c, First (s.Has (Takes n isStatic args)) (Ty.lineage object t) c ∧
        First (Takes n isStatic args) (s.allMethods c) m) ∧
    ((∀ m, s.resolve object t n args isStatic ≠ .ok m) →
      ∃ f, s.resolve object t n args isStatic = .error (.lookup f) ∧
        ((∃ c, First (s.Has (·.name = n)) (Ty.lineage object t) c ∧
          f = .noMethodOverload isStatic c.name (signature n args) ∧
            f.code = .noOverload) ∨
          (∀ c ∈ Ty.lineage object t, ¬s.Has (·.name = n) c) ∧ f = .missingMethod t.name n ∧ f.code = .missingMethod)) := by
  have ho := h.overloaded
  refine ⟨fun hargs m => ?_, fun hnull m => ?_, fun hfail => ?_⟩
  · have hhas : ∀ c, (s.chosen? c n args isStatic).isSome = true ↔ s.Has (Matches n isStatic args) c := fun c => by
      rw [Option.isSome_iff_exists]
      exact exists_congr fun g => ho.chosen?_exact hargs
    simp only [resolve, resolveAlong_eq_ok, First.congr hhas, ho.chosen?_exact hargs]
  · have hhas : ∀ c, (s.chosen? c n args isStatic).isSome = true ↔ s.Has (Takes n isStatic args) c := fun c => by
      rw [Option.isSome_iff_exists, Has, ← First.exists_iff]
      exact exists_congr fun g => ho.chosen?_null hnull
    simp only [resolve, resolveAlong_eq_ok, First.congr hhas, ho.chosen?_null hnull]
  · obtain ⟨bases, hline⟩ := Ty.lineage_head object t
    have named : ∀ c, s.methodsOf c n ≠ [] ↔ s.Has (·.name = n) c := fun c => by
      simp [Has, methodsOf, List.filter_eq_nil_iff]
    have hnone : ∀ c ∈ Ty.lineage object t, s.chosen? c n args isStatic = none := by
      by_contra hsome
      push Not at hsome
      obtain ⟨c, hc, hsome⟩ := hsome
      obtain ⟨c', hfirst⟩ := (First.exists_iff (P := fun c => (s.chosen? c n args isStatic).isSome = true)).mpr
        ⟨c, hc, Option.isSome_iff_ne_none.mpr hsome⟩
      obtain ⟨m, hm⟩ := Option.isSome_iff_exists.mp hfirst.holds
      exact hfail m (resolveAlong_eq_ok.mpr ⟨c', hfirst, hm⟩)
    obtain ⟨ht, hbases⟩ := List.forall_mem_cons.mp (hline ▸ hnone)
    have hresolve : s.resolve object t n args isStatic =
        s.resolveAlong n args isStatic (some (.lookup (s.missed t n args isStatic))) bases := by
      rw [resolve, hline, resolveAlong_cons, ht]
      rfl
    rw [hresolve, resolveAlong_missed hbases, hline]
    refine ⟨_, rfl, ?_⟩
    by_cases hms : s.methodsOf t n = []
    · have hneg : ¬s.Has (·.name = n) t := fun h => (named t).mpr h hms
      have hcode : LookupCause.code (.missingMethod t.name n) ≠ .noOverload :=
        show Code.missingMethod ≠ .noOverload by decide
      simp only [missed, hms, if_true, if_neg hcode, First.cons_of_neg hneg, List.forall_mem_cons, hneg,
          not_false_eq_true, true_and]
      cases hfind : bases.find? fun c => s.methodsOf c n ≠ [] with
      | some c =>
        have hfirst := (First.iff_find? fun c => decide (s.methodsOf c n ≠ [])).mpr hfind
        exact .inl ⟨c, (First.congr fun c => by rw [decide_eq_true_iff, named c]).mp hfirst, rfl, rfl⟩
      | none =>
        refine .inr ⟨fun c hc hhas => ?_, rfl, rfl⟩
        exact List.find?_eq_none.mp hfind c hc (decide_eq_true ((named c).mpr hhas))
    · have hpos : s.Has (·.name = n) t := (named t).mp hms
      have hcode : LookupCause.code (.noMethodOverload isStatic t.name (signature n args)) = .noOverload := rfl
      simp only [missed, hms, if_false, if_pos hcode]
      exact .inl ⟨t, (First.cons_of_pos hpos).mpr rfl, rfl, rfl⟩

/-! ### A sample -/

/-- A class with overloads of a method that all objects have. -/
def overloadedNote : Program where
  delegates := []
  classes := [{
    name := "Note"
    fields := []
    ctors := []
    methods := [
      { name := "Equals", isStatic := false, ret := "", params := [{ name := "n", type := "int" }], body := [] },
      { name := "Equals", isStatic := false, ret := "", params := [{ name := "text", type := "string" }], body := [] },
      { name := "Equals", isStatic := false, ret := "", params := [{ name := "other", type := "Note" }], body := [] }] }]

/-- The methods of three calls on it, by what tells them apart. -/
def resolvesAsOverloaded (c : Compilation) : Bool :=
  (c.symbols.meaning "Note").any fun note =>
    (c.symbols.resolve c.roles.object note "Equals" [some c.roles.object] false).toOption.any (·.owner = c.roles.object) &&
    (c.symbols.resolve c.roles.object note "Equals" [none] false).toOption.any (·.params = [some c.roles.string]) &&
    (match c.symbols.resolve c.roles.object note "GetHashCode" [] true with
      | .error g => decide (g.code? = some .noOverload)
      | .ok _ => false)

/-- An object takes the method of all objects, null the first overload with a reference parameter, and a type has no
    static method of a name that only objects have. -/
theorem Frozen.resolve_exact_note : ∃ c note m m' f,
    (Compilation.prepared overloadedNote (.start (Module.new 0 .dynamic "m" "v4"))).Gives c ∧ c.symbols.Frozen ∧
    c.symbols.meaning "Note" = some note ∧
    (c.symbols.resolve c.roles.object note "Equals" [some c.roles.object] false = .ok m ∧ m.owner = c.roles.object ∧
      ∃ b, First (c.symbols.Has (Matches "Equals" false [some c.roles.object])) (Ty.lineage c.roles.object note) b ∧
        m ∈ c.symbols.allMethods b ∧ Matches "Equals" false [some c.roles.object] m) ∧
    (c.symbols.resolve c.roles.object note "Equals" [none] false = .ok m' ∧ m'.params = [some c.roles.string] ∧
      ∃ b, First (c.symbols.Has (Takes "Equals" false [none])) (Ty.lineage c.roles.object note) b ∧
        First (Takes "Equals" false [none]) (c.symbols.allMethods b) m') ∧
    c.symbols.resolve c.roles.object note "GetHashCode" [] true = .error (.lookup f) ∧ f.code = .noOverload := by
  obtain ⟨c, hc, hall⟩ := Logged.gives_of_any (j := default) (p := resolvesAsOverloaded)
    (x := Compilation.prepared overloadedNote (.start (Module.new 0 .dynamic "m" "v4"))) (by decide +kernel)
  have hfrozen : c.symbols.Frozen := .prepared hc
  have of_toOption : ∀ {x : Except Fault Method} {m : Method}, x.toOption = some m → x = .ok m := by
    rintro (f | m) m' h <;> cases h
    rfl
  obtain ⟨note, hnote, hall⟩ := (Option.any_eq_true _ _).mp hall
  simp only [Bool.and_eq_true, Option.any_eq_true, decide_eq_true_eq] at hall
  obtain ⟨⟨⟨m, hm, howner⟩, ⟨m', hm', hparams⟩⟩, hcode⟩ := hall
  have hm := of_toOption hm
  have hm' := of_toOption hm'
  have exact := (hfrozen.resolve_exact c.roles.object note "Equals" false [some c.roles.object]).1 (by simp) m
  have null := (hfrozen.resolve_exact c.roles.object note "Equals" false [none]).2.1 (by simp) m'
  cases hfail : c.symbols.resolve c.roles.object note "GetHashCode" [] true with
  | ok g =>
    rw [hfail] at hcode
    cases hcode
  | error g =>
    rw [hfail, decide_eq_true_eq] at hcode
    obtain ⟨f, hf, -⟩ := (hfrozen.resolve_exact c.roles.object note "GetHashCode" true []).2.2 fun m hm => by
      rw [hfail] at hm
      cases hm
    rw [hfail] at hf
    cases hf
    exact ⟨c, note, m, m', f, hc, hfrozen, hnote, ⟨hm, howner, exact.mp hm⟩, ⟨hm', hparams, null.mp hm'⟩, hfail,
        Option.some.inj hcode⟩

end Symbols
end CilCompiler
