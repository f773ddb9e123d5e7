import CilCompiler.Compiler
import CilCompiler.Proofs.Lowering.Stepwise

/-! Overloads of constructors and of static methods. Both are tried in order, and the first with exactly the argument
    types is taken. So `new` takes the constructor whose place a call takes among static methods with the same
    parameters, and finds none where the call finds none. The one exception are arguments that fit no constructor
    exactly but, with null among them, fit some: there a call goes on with the first method they fit, and `new` fails
    (`constructors_like_methods`). -/

namespace CilCompiler
namespace Symbols

/-- The static methods of a name on a type. -/
def staticsOf (s : Symbols) (u : Ty) (n : Text) : List Method := (s.methodsOf u n).filter Method.isStatic

/-- The static methods `n` of `u` have the parameters of the constructors of `t`, in the same order, and no base of
    `u` has more of them. -/
structure Corresponds (s : Symbols) (object u : Ty) (n : Text) (t : Ty) : Prop where
  params : (s.ctorsOf t).map Method.params = (s.staticsOf u n).map Method.params
  alone : ∀ b ∈ (Ty.lineage object u).tail, s.staticsOf b n = []

/-- A constructor and a static method in the same place. -/
def Paired (s : Symbols) (t u : Ty) (n : Text) (x m : Method) : Prop :=
  ∃ k : Nat, (s.ctorsOf t)[k]? = some x ∧ (s.staticsOf u n)[k]? = some m

/-- The arguments fit a constructor, but only as null fits any reference. -/
structure FitsByNull (s : Symbols) (t : Ty) (args : List (Option Ty)) : Prop where
  null : none ∈ args
  inexact : ∀ x ∈ s.ctorsOf t, Ty.sameList x.params args = false
  fits : ∃ x ∈ s.ctorsOf t, Ty.fits x.params args = true

variable {s s' : Symbols} {object t u : Ty} {n : Text} {args : List (Option Ty)}

theorem Extends.methodsOf (h : s.Extends s') (u : Ty) (n : Text) : s'.methodsOf u n = s.methodsOf u n := by
  simp only [Symbols.methodsOf, h.allMethods]

theorem Extends.findConstructor (h : s.Extends s') (t : Ty) (args : List (Option Ty)) :
    s'.findConstructor t args = s.findConstructor t args := by
  simp only [Symbols.findConstructor, h.ctorsOf]

theorem Extends.resolve (h : s.Extends s') (object u : Ty) (n : Text) (args : List (Option Ty)) (isStatic : Bool) :
    s'.resolve object u n args isStatic = s.resolve object u n args isStatic := by
  have along : ∀ (types : List Ty) failed, s'.resolveAlong n args isStatic failed types =
      s.resolveAlong n args isStatic failed types := by
    intro types
    induction types with
    | nil => intro failed; rfl
    | cons b types ih =>
      intro failed
      simp only [Symbols.resolveAlong, Symbols.findMethod, Symbols.matchNull?, h.methodsOf, ih]
  exact along _ _

/-- What a test of parameter lists chooses among methods with the same parameters: those in one place, or none of either. -/
theorem find?_alike (p : List (Option Ty) → Bool) {xs ms : List Method} (h : xs.map Method.params = ms.map Method.params) :
    (xs.find? (fun x => p x.params) = none ∧ ms.find? (fun m => p m.params) = none) ∨
      ∃ (k : Nat) (x m : Method), xs[k]? = some x ∧ ms[k]? = some m ∧ xs.find? (fun x => p x.params) = some x ∧
        ms.find? (fun m => p m.params) = some m := by
  induction xs generalizing ms with
  | nil =>
    rw [List.map_nil, eq_comm, List.map_eq_nil_iff] at h
    exact .inl ⟨rfl, by rw [h]; rfl⟩
  | cons x xs ih =>
    cases ms with
    | nil => cases h
    | cons m ms =>
      obtain ⟨hp, ht⟩ := List.cons.inj h
      cases hx : p x.params with
      | true =>
        have hm : p m.params = true := hp ▸ hx
        exact .inr ⟨0, x, m, rfl, rfl, List.find?_cons_of_pos hx, List.find?_cons_of_pos hm⟩
      | false =>
        have hm : p m.params = false := hp ▸ hx
        simp only [List.find?_cons, hx, hm]
        rcases ih ht with hnone | ⟨k, x', m', hx', hm', hfx, hfm⟩
        · exact .inl hnone
        · exact .inr ⟨k + 1, x', m', hx', hm', hfx, hfm⟩

/-! ### Choosing -/

theorem findConstructor_of_find {x : Method} (h : (s.ctorsOf t).find? (fun x => Ty.sameList x.params args) = some x) :
    s.findConstructor t args = .ok x := by
  unfold findConstructor
  split
  · rename_i hnil
    rw [hnil] at h
    cases h
  · simp only [h]

theorem findConstructor_of_none (h : (s.ctorsOf t).find? (fun x => Ty.sameList x.params args) = none) :
    ∃ f, s.findConstructor t args = .error (.lookup f) := by
  unfold findConstructor
  split
  · exact ⟨_, rfl⟩
  · simp only [h]
    exact ⟨_, rfl⟩

theorem find?_static (p : List (Option Ty) → Bool) :
    (s.methodsOf u n).find? (fun m => m.isStatic == true && p m.params) =
      (s.staticsOf u n).find? (fun m => p m.params) := by
  simp only [staticsOf, List.find?_filter, beq_true, Bool.decide_and, Bool.decide_eq_true]

theorem findMethod_of_find {m : Method} (h : (s.staticsOf u n).find? (fun m => Ty.sameList m.params args) = some m) :
    s.findMethod u n args true = .ok m := by
  unfold findMethod
  split
  · rename_i hnil
    rw [staticsOf, hnil] at h
    cases h
  · simp only [find?_static (fun ps => Ty.sameList ps args), h]

theorem findMethod_of_none (h : (s.staticsOf u n).find? (fun m => Ty.sameList m.params args) = none) :
    ∃ f, s.findMethod u n args true = .error (.lookup f) := by
  unfold findMethod
  split
  · exact ⟨_, rfl⟩
  · simp only [find?_static (fun ps => Ty.sameList ps args), h]
    exact ⟨_, rfl⟩

theorem matchNull?_static : s.matchNull? u n args true =
    if none ∈ args then (s.staticsOf u n).find? (fun m => Ty.fits m.params args) else none := by
  simp only [matchNull?, List.contains_iff_mem, find?_static (fun ps => Ty.fits ps args)]

theorem clearer_lookup {f g : LookupCause} : ∃ e, clearer (some (.lookup f)) (.lookup g) = .lookup e := by
  unfold clearer
  split
  · cases ‹_›
  · split
    · exact ⟨g, rfl⟩
    · cases ‹some _ = some _›
      exact ⟨f, rfl⟩

/-- Types without a static method of the name have none to call. -/
theorem resolveAlong_of_none {f : LookupCause} {types : List Ty} (h : ∀ b ∈ types, s.staticsOf b n = []) :
    ∃ e, s.resolveAlong n args true (some (.lookup f)) types = .error (.lookup e) := by
  induction types generalizing f with
  | nil => exact ⟨f, rfl⟩
  | cons b types ih =>
    obtain ⟨hb, htypes⟩ := List.forall_mem_cons.mp h
    have hfind : (s.staticsOf b n).find? (fun m => Ty.sameList m.params args) = none := by rw [hb]; rfl
    obtain ⟨g, hg⟩ := findMethod_of_none hfind
    obtain ⟨e, he⟩ := clearer_lookup (f := f) (g := g)
    have hnull : s.matchNull? b n args true = none := by
      rw [matchNull?_static, hb]
      simp
    simp only [resolveAlong, hg, hnull, he]
    exact ih htypes

/-- How a call chooses among static methods that are on one type alone. -/
theorem resolve_cases (args : List (Option Ty)) (h : ∀ b ∈ (Ty.lineage object u).tail, s.staticsOf b n = []) :
    match (s.staticsOf u n).find? (fun m => Ty.sameList m.params args),
      (if none ∈ args then (s.staticsOf u n).find? (fun m => Ty.fits m.params args) else none) with
    | some m, _ => s.resolve object u n args true = .ok m
    | none, some m => s.resolve object u n args true = .ok m
    | none, none => ∃ f, s.resolve object u n args true = .error (.lookup f) := by
  obtain ⟨bases, hline⟩ := Ty.lineage_head object u
  rw [hline, List.tail_cons] at h
  have hresolve : s.resolve object u n args true = s.resolveAlong n args true none (u :: bases) := by rw [resolve, hline]
  rw [← matchNull?_static, hresolve, resolveAlong]
  cases hm : (s.staticsOf u n).find? (fun m => Ty.sameList m.params args) with
  | some m => simp only [findMethod_of_find hm]
  | none =>
    obtain ⟨f, hf⟩ := findMethod_of_none hm
    simp only [hf]
    cases s.matchNull? u n args true with
    | some m => rfl
    | none => exact resolveAlong_of_none h

/-- Exact arguments choose a constructor and the static method in its place, those that fit by null only choose a
    method, and otherwise there is neither. -/
theorem Corresponds.choices (h : s.Corresponds object u n t) (args : List (Option Ty)) :
    (∃ x m, s.Paired t u n x m ∧ Ty.sameList x.params args = true ∧ s.findConstructor t args = .ok x ∧
      s.resolve object u n args true = .ok m) ∨
    (s.FitsByNull t args ∧ ∃ x m f, s.Paired t u n x m ∧ (s.ctorsOf t).find? (fun x => Ty.fits x.params args) = some x ∧
      s.findConstructor t args = .error (.lookup f) ∧ s.resolve object u n args true = .ok m) ∨
    ¬s.FitsByNull t args ∧ ∃ f g, s.findConstructor t args = .error (.lookup f) ∧
      s.resolve object u n args true = .error (.lookup g) := by
  have hcases := resolve_cases args h.alone
  rcases find?_alike (fun ps => Ty.sameList ps args) h.params with ⟨hx, hm⟩ | ⟨k, x, m, hkx, hkm, hx, hm⟩
  · obtain ⟨f, hf⟩ := findConstructor_of_none hx
    simp only [hm] at hcases
    have inexact : ∀ x ∈ s.ctorsOf t, Ty.sameList x.params args = false := by simpa using hx
    by_cases hnull : none ∈ args
    · simp only [if_pos hnull] at hcases
      rcases find?_alike (fun ps => Ty.fits ps args) h.params with ⟨hx', hm'⟩ | ⟨k, x, m, hkx, hkm, hx', hm'⟩
      · simp only [hm'] at hcases
        obtain ⟨g, hg⟩ := hcases
        refine .inr (.inr ⟨fun hfits => ?_, f, g, hf, hg⟩)
        obtain ⟨x, hx, hfits⟩ := hfits.fits
        exact List.find?_eq_none.mp hx' x hx hfits
      · simp only [hm'] at hcases
        have hfits : s.FitsByNull t args :=
          ⟨hnull, inexact, x, List.mem_of_getElem? hkx, List.find?_some (p := fun x : Method => Ty.fits x.params args) hx'⟩
        exact .inr (.inl ⟨hfits, x, m, f, ⟨k, hkx, hkm⟩, hx', hf, hcases⟩)
    · simp only [if_neg hnull] at hcases
      obtain ⟨g, hg⟩ := hcases
      exact .inr (.inr ⟨fun hfits => hnull hfits.null, f, g, hf, hg⟩)
  · simp only [hm] at hcases
    exact .inl ⟨x, m, ⟨k, hkx, hkm⟩, List.find?_some (p := fun x : Method => Ty.sameList x.params args) hx,
        findConstructor_of_find hx, hcases⟩

end Symbols

/-! ### Lowering -/

namespace Lower

/-- Makes an object with a constructor. -/
def newWith (t : Ty) (x : Method) : Lower Pushed := do
  emit (.ctor .newobj x)
  return { type := some t }

/-- Calls a static method. -/
def callWith (m : Method) : Lower Pushed := do
  emit (.method .call m)
  return { type := m.ret }

variable {α β : Type} {c : Scope} {w w' w₁ w₂ : Work} {t u : Ty} {types : List (Option Ty)} {args : List Expr}

theorem typeTarget_some {e : Expr} (h : typeTarget e c w = .ok (some u, w')) : e.isMissing = false := by
  cases e with
  | missing => cases h
  | _ => rfl

theorem arguments_extends {position : Nat} {hints : List (Option Ty)}
    (h : arguments position hints args c w = .ok (types, w')) :
    w.symbols.Extends w'.symbols :=
  extends_stepwise.arguments position hints args h

theorem new_run {type : Text} (named : lookupType type c w = .ok (t, w₁)) (plain : w.symbols.delegate? (some t) = none)
    (reference : t.isValue = false) (given : arguments 1 (Ty.hints (c.ctorsOf t) args.length) args c w₁ = .ok (types, w'))
    (hint : Option Ty) (called : Bool) : expr (.new type args) hint called c w =
      match w.symbols.findConstructor t types with
      | .ok x => newWith t x c w'
      | .error f => .error f := by
  have hw₁ : w.symbols.Extends w₁.symbols := extends_stepwise.lookupType type named
  have hx : w.symbols.Extends w'.symbols := hw₁.trans (arguments_extends given)
  have plain : w₁.symbols.delegate? (some t) = none := (hw₁.delegate? _).trans plain
  rw [expr, bind_of_ok named, bind_of_ok symbols_run]
  simp only [plain, construct, reference, Bool.false_eq_true, if_false]
  rw [bind_of_ok read_run, bind_of_ok given, bind_of_ok symbols_run, hx.findConstructor]
  cases w.symbols.findConstructor t types with
  | ok x => rfl
  | error f => rfl

theorem call_run {target : Expr} {n : Text} (named : typeTarget target c w = .ok (some u, w))
    (given : arguments 1 (Ty.hints (w.symbols.candidates c.roles.object u n true) args.length) args c w = .ok (types, w'))
    (hint : Option Ty) (called : Bool) : expr (.call target n args) hint called c w =
      match w.symbols.resolve c.roles.object u n types true with
      | .ok m => callWith m c w'
      | .error f => .error f := by
  have hints : hintsFor u n true args.length c w =
      .ok (Ty.hints (w.symbols.candidates c.roles.object u n true) args.length, w) := rfl
  rw [expr]
  simp only [typeTarget_some named, Bool.false_eq_true, if_false]
  rw [bind_of_ok named]
  simp only
  rw [bind_of_ok hints, callStatic, bind_of_ok given]
  show (ofExcept (w'.symbols.resolve c.roles.object u n types true) >>= callWith) c w' = _
  rw [(arguments_extends given).resolve]
  cases w.symbols.resolve c.roles.object u n types true with
  | ok m => rfl
  | error f => rfl

/-- Where arguments lower to the same types, `new` makes an object with the constructor in whose place a call finds a
    static method, and finds none where the call finds none. If the arguments fit by null only, the call goes on with
    the method in the place of the first constructor they fit, and `new` finds none. -/
theorem constructors_like_methods {type : Text} {target : Expr} {n : Text} {w₀ : Work}
    (named : lookupType type c w = .ok (t, w₀))
    (plain : w.symbols.delegate? (some t) = none) (reference : t.isValue = false)
    (static : typeTarget target c w = .ok (some u, w)) (corresponds : w.symbols.Corresponds c.roles.object u n t)
    (made : arguments 1 (Ty.hints (c.ctorsOf t) args.length) args c w₀ = .ok (types, w₁))
    (called : arguments 1 (Ty.hints (w.symbols.candidates c.roles.object u n true) args.length) args c w = .ok (types, w₂))
    (hint hint' : Option Ty) (onto onto' : Bool) :
    (¬w.symbols.FitsByNull t types →
      (∃ x m, w.symbols.Paired t u n x m ∧ expr (.new type args) hint onto c w = newWith t x c w₁ ∧
        expr (.call target n args) hint' onto' c w = callWith m c w₂) ∨
      ∃ f g, expr (.new type args) hint onto c w = .error (.lookup f) ∧
        expr (.call target n args) hint' onto' c w = .error (.lookup g)) ∧
    (w.symbols.FitsByNull t types →
      ∃ x m f, w.symbols.Paired t u n x m ∧ (w.symbols.ctorsOf t).find? (fun x => Ty.fits x.params types) = some x ∧
        expr (.new type args) hint onto c w = .error (.lookup f) ∧
        expr (.call target n args) hint' onto' c w = callWith m c w₂) := by
  rw [new_run named plain reference made, call_run static called]
  rcases corresponds.choices types with ⟨x, m, hpair, hexact, hx, hm⟩ | ⟨hfits, x, m, f, hpair, hfirst, hx,
      hm⟩ | ⟨hnot, f, g, hx, hm⟩
  · rw [hx, hm]
    refine ⟨fun _ => .inl ⟨x, m, hpair, rfl, rfl⟩, fun hfits => ?_⟩
    obtain ⟨k, hk, -⟩ := hpair
    rw [hfits.inexact x (List.mem_of_getElem? hk)] at hexact
    cases hexact
  · rw [hx, hm]
    exact ⟨fun hnot => absurd hfits hnot, fun _ => ⟨x, m, f, hpair, hfirst, rfl, rfl⟩⟩
  · rw [hx, hm]
    exact ⟨fun _ => .inr ⟨f, g, rfl, rfl⟩, fun hfits => absurd hfits hnot⟩

end Lower

/-! ### A sample -/

namespace Note

def string : Ty := .root { module := 0, index := 0, assembly := "host", name := TypeName.string, isValue := false }

def type : Ty := .root { module := 0, index := 1, assembly := "notes", name := "Note", isValue := false }

def ctor : Method where
  owner := type
  isCtor := true
  index := 0
  name := Method.ctorName
  attrs := MethodAttributes.methods.forConstructor
  params := [some string]
  ret := none

def make : Method where
  owner := type
  isCtor := false
  index := 0
  name := "Make"
  attrs := .statics
  params := [some string]
  ret := some type

def symbols : Symbols where
  types := ⟨[("Note", type)]⟩
  methods := ⟨[("Note", [make])]⟩
  ctors := ⟨[("Note", [ctor])]⟩

def scope : Scope where
  site := { backend := .dynamic, moduleName := "notes", method := make, isSealed := false }
  roles := { (default : Roles) with object := string, string }
  ret := type
  params := []
  ctorsOf _ := [ctor]

def work : Work := { symbols }

theorem corresponds : symbols.Corresponds scope.roles.object type "Make" type where
  params := by decide +kernel
  alone := by decide +kernel

end Note

/-- A text chooses the only constructor and the only method, and null the method alone. -/
theorem Lower.constructors_like_methods_note :
    (∃ x m w₁ w₂, Note.symbols.Paired Note.type Note.type "Make" x m ∧
      expr (.new "Note" [.string "text"]) none false Note.scope Note.work = newWith Note.type x Note.scope w₁ ∧
      expr (.call (.ident "Note") "Make" [.string "text"]) none false Note.scope Note.work = callWith m Note.scope w₂) ∧
    ∃ x m f w₂, Note.symbols.Paired Note.type Note.type "Make" x m ∧
      expr (.new "Note" [.null]) none false Note.scope Note.work = .error (.lookup f) ∧
      expr (.call (.ident "Note") "Make" [.null]) none false Note.scope Note.work = callWith m Note.scope w₂ := by
  have hentered : Note.symbols.entered? "Note" = some Note.type := by decide +kernel
  have named : lookupType "Note" Note.scope Note.work = .ok (Note.type, Note.work) :=
    lookupType_ok.mpr ⟨_, Symbols.lookup_of_entered hentered, rfl⟩
  have static : typeTarget (.ident "Note") Note.scope Note.work = .ok (some Note.type, Note.work) := by
    show Except.ok (Note.symbols.entered? "Note", Note.work) = _
    rw [hentered]
  have plain : Note.symbols.delegate? (some Note.type) = none := by decide +kernel
  have made : ∀ e t w', arguments 1 [some Note.string] [e] Note.scope Note.work = .ok ([t], w') →
      arguments 1 (Ty.hints (Note.scope.ctorsOf Note.type) [e].length) [e] Note.scope Note.work = .ok ([t], w') :=
        fun _ _ _ h => h
  have called : ∀ e t w', arguments 1 [some Note.string] [e] Note.scope Note.work = .ok ([t], w') →
      arguments 1 (Ty.hints (Note.work.symbols.candidates Note.scope.roles.object Note.type "Make" true) [e].length) [e]
        Note.scope
        Note.work = .ok ([t], w') := by
    have hints : Ty.hints (Note.symbols.candidates Note.scope.roles.object Note.type "Make" true) 1 =
        [some Note.string] := by
      decide +kernel
    intro e t w' h
    rw [← h, ← hints]
    rfl
  constructor
  · obtain ⟨w', given⟩ : ∃ w', arguments 1 [some Note.string] [.string "text"] Note.scope Note.work =
        .ok ([some Note.string], w') :=
      ⟨_, rfl⟩
    have all := constructors_like_methods named plain rfl static Note.corresponds (made _ _ _ given)
        (called _ _ _ given) none none false
      false
    rcases all.1 (fun h => by simpa using h.null) with hboth | ⟨f, -, hf, -⟩
    · obtain ⟨x, m, hpair, hx, hm⟩ := hboth
      exact ⟨x, m, w', w', hpair, hx, hm⟩
    · have hsome : (expr (.new "Note" [.string "text"]) none false Note.scope Note.work).isOk = true := by decide +kernel
      rw [hf] at hsome
      cases hsome
  · obtain ⟨w', given⟩ : ∃ w', arguments 1 [some Note.string] [.null] Note.scope Note.work = .ok ([none], w') := ⟨_, rfl⟩
    have all := constructors_like_methods named plain rfl static Note.corresponds (made _ _ _ given)
        (called _ _ _ given) none none false
      false
    obtain ⟨x, m, f, hpair, -, hx, hm⟩ := all.2 ⟨by simp, by decide +kernel, by decide +kernel⟩
    exact ⟨x, m, f, w', hpair, hx, hm⟩

/-- A class that makes a note, where notes have a constructor and a static method that both take a text. -/
def noteProgram (note : Expr) : Program where
  classes := [
    { name := "Note"
      fields := []
      ctors := [{ params := [{ name := "text", type := "string" }], body := [] }]
      methods := [{ name := "Make", isStatic := true, ret := "Note", params := [{ name := "text", type := "string" }],
                    body := [.return (.new "Note" [.ident "text"])] }] },
    { name := "Desk"
      fields := []
      ctors := []
      methods := [{ name := "Main", isStatic := true, ret := "", params := [], body := [.local "note" "" note] }] }]

/-- The method takes null, and the constructor does not. -/
theorem constructors_strict_about_null :
    (∃ c, (compile (noteProgram (.call (.ident "Note") "Make" [.null])) .dynamic "m" "v4" false).Gives c) ∧
      ∃ f, (compile (noteProgram (.new "Note" [.null])) .dynamic "m" "v4" false).Fails f ∧ f.code? = some .noOverload := by
  constructor
  · exact Logged.gives_of_isOk (j := default) (by decide +kernel)
  · exact Logged.fails_of_code (j := default) (by decide +kernel)

end CilCompiler
