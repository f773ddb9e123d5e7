import CilCompiler.Proofs.Compilation.Passes
import CilCompiler.Proofs.Renaming.Lowering
import Mathlib.Logic.Equiv.Basic

/-! Initial values of fields. Every constructor stores them behind the call of the base constructor and ahead of its
    statements, and lowers them for itself, in its own setting. They become the same code in all constructors of a
    class, provided that no constructor has a parameter with the name of a variable that they mention
    (`initializers_agree`). A parameter of that name takes the place of the field or method that is meant
    (`initializers_captured`). -/

namespace CilCompiler

namespace Lower

/-- Stores the initial values of fields, one after another. -/
def initFields (inits : List (Field × Expr)) : Lower Unit := do
  for x in inits do initField x.1 x.2

theorem initFields_cons (z : Field × Expr) (zs : List (Field × Expr)) : initFields (z :: zs) = (do
    initField z.1 z.2
    initFields zs) := by
  simp only [initFields, List.forIn_cons, bind_assoc, pure_bind]

theorem Agrees.initFields {μ : Matching} {V : Text → Prop} {K : Symbols → Symbols → Prop} (hK : μ.Naming V K)
    {inits : List (Field × Expr)} (hi : ∀ z ∈ inits, z.2.Visible V μ.Sees) :
    Agrees μ K (fun _ _ => True) (Lower.initFields inits) (Lower.initFields (inits.map fun z => (μ.field z.1, z.2))) := by
  induction inits with
  | nil => exact .pure trivial
  | cons z zs ih =>
    rw [List.map_cons, initFields_cons, initFields_cons]
    obtain ⟨hz, hzs⟩ := List.forall_mem_cons.mp hi
    exact (Agrees.initField hK z.1 hz).bind fun _ _ _ => ih hzs

/-- What a constructor's statements are but for the call of the base constructor. -/
def afterBase : List Stmt → List Stmt
  | .baseCall :: rest => rest
  | body => body

theorem constructor_eq (inits : List (Field × Expr)) (body : List Stmt) : constructor inits body = (do
    baseCall
    initFields inits
    statements (afterBase body)) := by
  have parts : ∀ b : List Stmt, (do
      baseCall
      for x in inits do initField x.1 x.2
      statements b) = (do
      baseCall
      initFields inits
      statements b) := fun b => by simp only [initFields, bind_assoc, pure_bind]
  exact parts (afterBase body)

end Lower

/-! ### The parts of a constructor -/

/-- A constructor's code is lowered from some symbols in three parts: the base constructor is called, the initial values are
    stored, and the statements follow. -/
structure Compilation.Stores (scope : Scope) (d : DeclaredType) (x : Member) (s : Symbols) (D : Draft)
    (w₁ w₂ : Work) : Prop where
  base : Lower.baseCall scope { symbols := s } = .ok ((), w₁)
  inits : Lower.initFields d.inits scope w₁ = .ok ((), w₂)
  rest : ∃ b w₃, Lower.statements (Lower.afterBase x.body) scope w₂ = .ok (b, w₃) ∧ w₃.draft.code.toList <+: D.code.toList

/-- Of a constructor's code, `code` is what its lowering leaves for the initial values, whatever array types have been
    entered before. -/
def Compilation.Initializes (c : Compilation) (d : DeclaredType) (x : Member) (D : Draft) (code : List Instr) : Prop :=
  ∃ s w₁ w₂, c.Reads s ∧ Stores (c.scopeOf x) d x s D w₁ w₂ ∧ w₂.draft.code.toList = w₁.draft.code.toList ++ code

namespace Compilation

variable {c : Compilation} {d : DeclaredType} {x : Member} {D : Draft} {s : Symbols}

theorem Emits.stores {scope : Scope} (h : Emits scope d x { symbols := s } D) (hx : x.method.isCtor = true) :
    ∃ w₁ w₂, Stores scope d x s D w₁ w₂ := by
  obtain ⟨b, w, w', hl, hret, rfl⟩ := h
  rw [lowering, if_pos hx, Lower.constructor_eq] at hl
  obtain ⟨_, w₁, hbase, hl⟩ := Lower.bind_ok.mp hl
  obtain ⟨_, w₂, hinits, hrest⟩ := Lower.bind_ok.mp hl
  refine ⟨w₁, w₂, hbase, hinits, b, w, hrest, ?_⟩
  rcases hret with ⟨-, rfl⟩ | ⟨-, he⟩
  · exact List.prefix_refl _
  · exact (Work.Onward.emit _ he).code

theorem initFields_onward (inits : List (Field × Expr)) : (Lower.initFields inits).Keeps Work.Onward :=
  have hR := Work.Onward.labelwise
  hR.bind (hR.forIn inits fun x => hR.initField x.1 x.2) fun _ => hR.pure _

theorem baseCall_size {scope : Scope} {w w' : Work} {u : Unit} (h : Lower.baseCall scope w = .ok (u, w')) :
    w'.draft.code.size = w.draft.code.size + 2 := by
  obtain ⟨_, _, h1, h⟩ := Lower.bind_ok.mp h
  obtain ⟨_, _, h2, h⟩ := Lower.bind_ok.mp h
  obtain ⟨_, _, h3, h⟩ := Lower.bind_ok.mp h
  obtain ⟨_, _, h4, h5⟩ := Lower.bind_ok.mp h
  cases h1
  cases h2
  obtain ⟨-, rfl⟩ := Lower.ofExcept_ok.mp h3
  obtain ⟨i, -, hi, -⟩ := Lower.emit_pushes h4
  obtain ⟨j, -, hj, -⟩ := Lower.emit_pushes h5
  rw [hj, Array.size_push, hi, Array.size_push]

/-- An initial value takes the receiver and the instruction that stores it, at the least. -/
theorem initField_size {scope : Scope} {w w' : Work} {f : Field} {e : Expr} {u : Unit}
    (h : Lower.initField f e scope w = .ok (u, w')) :
    w.draft.code.size + 2 ≤ w'.draft.code.size := by
  obtain ⟨_, w₁, h1, h⟩ := Lower.bind_ok.mp h
  obtain ⟨t, w₂, h2, h⟩ := Lower.bind_ok.mp h
  obtain ⟨_, w₃, h3, h4⟩ := Lower.bind_ok.mp h
  obtain ⟨i, -, hi, -⟩ := Lower.emit_pushes h1
  obtain ⟨j, -, hj, -⟩ := Lower.emit_pushes h4
  have hvalue := (Work.Onward.labelwise.value e f.type h2).code.length_le
  have hexpect := (Work.Onward.labelwise.expect f.type t _ h3).code.length_le
  simp only [Array.length_toList, hi, hj, Array.size_push] at hvalue hexpect ⊢
  omega

/-- The code for initial values stands behind the two instructions that call the base constructor. -/
theorem Initializes.at {code : List Instr} (h : c.Initializes d x D code) : code <+: D.code.toList.drop 2 := by
  obtain ⟨s, w₁, w₂, -, hstores, hcode⟩ := h
  obtain ⟨b, w₃, hrest, hprefix⟩ := hstores.rest
  have hbase : w₁.draft.code.toList.length = 2 := by
    rw [Array.length_toList]
    exact baseCall_size hstores.base
  have hall : w₁.draft.code.toList ++ code <+: D.code.toList := by
    rw [← hcode]
    exact ((Work.Onward.labelwise.statements _) hrest).code.trans hprefix
  obtain ⟨tail, htail⟩ := hall
  exact ⟨tail, by rw [← htail, List.append_assoc, List.drop_left' hbase]⟩

theorem Initializes.two_le {code : List Instr} (h : c.Initializes d x D code) (hd : d.inits ≠ []) : 2 ≤ code.length := by
  obtain ⟨s, w₁, w₂, -, hstores, hcode⟩ := h
  obtain ⟨z, zs, hz⟩ := List.exists_cons_of_ne_nil hd
  have hl := hstores.inits
  rw [hz, Lower.initFields_cons] at hl
  obtain ⟨_, w, hfirst, hl⟩ := Lower.bind_ok.mp hl
  have hsize := initField_size hfirst
  have hrest := (initFields_onward zs hl).code.length_le
  rw [hcode, List.length_append, Array.length_toList, Array.length_toList] at hrest
  omega

/-! ### Constructors of one class -/

section Matched

variable {t : Ty} {x' : Member}

/-- Nothing is renamed between two constructors of a class. Names that are parameters of neither mean the same, and
    the receiver is the one argument that both are known to have. -/
def constructors (x x' : Member) : Matching :=
  { Renaming.refl with
    body := Equiv.swap x.method x'.method
    Sees := fun n => n ∉ x.params.map Param.name ∧ n ∉ x'.params.map Param.name
    Args := fun n => n = 0
    receiver := rfl }

theorem constructors_refl (x x' : Member) : (constructors x x' : Renaming) = Renaming.refl := rfl

theorem Constructs.site (hx : Constructs c t x) (hc : x.method.isCtor = true) (hx' : Constructs c t x')
    (hc' : x'.method.isCtor = true) :
    (c.scopeOf x).site.Matched (constructors x x') (c.scopeOf x').site where
  distinct := (Equiv.swap x.method x'.method).injective
  backend := rfl
  isSealed := by
    show c.module.isCreated x'.method.owner = c.module.isCreated x.method.owner
    rw [hx.owner, hx'.owner]
  method := (Equiv.swap_apply_left _ _).symm
  owner := by
    show x'.method.owner = _
    rw [constructors_refl, Renaming.ty_refl, hx'.owner]
    exact hx.owner.symm
  isStatic := hx'.isStatic.trans hx.isStatic.symm
  isCtor := hc'.trans hc.symm
  ret := by
    rw [constructors_refl, Renaming.opt_refl]
    exact hx'.result.trans hx.result.symm
  args n hn := by
    cases (hn : n = 0)
    have positive : ∀ {y : Member}, Constructs c t y → ¬((y.method.argCount : Int) ≤ 0) := by
      intro y hy
      rw [Method.argCount, hy.isStatic]
      simp
    exact iff_of_false (positive hx') (positive hx)

theorem param?_scopeOf (c : Compilation) {x : Member} {n : Text} (hn : n ∉ x.params.map Param.name) :
    (c.scopeOf x).param? n = none := by
  rw [Scope.param?, List.find?_eq_none.mpr fun p hp => ?_, Option.map_none]
  simp only [scopeOf, List.mem_map] at hp
  obtain ⟨⟨⟨m, t⟩, i⟩, hm, rfl⟩ := hp
  have hname : m ∈ x.params.map Param.name := (List.of_mem_zip (List.fst_mem_of_mem_zipIdx hm)).1
  simp only [decide_eq_true_eq]
  rintro rfl
  exact hn hname

theorem Constructs.scope (hx : Constructs c t x) (hc : x.method.isCtor = true) (hx' : Constructs c t x')
    (hc' : x'.method.isCtor = true) :
    (c.scopeOf x).Matched (constructors x x') (c.scopeOf x') where
  site := hx.site hc hx' hc'
  roles := (Renaming.roles_refl _).symm
  ret := by
    rw [constructors_refl, Renaming.ty_refl]
    exact hx'.ret.trans hx.ret.symm
  param? n hn := by rw [param?_scopeOf c hn.1, param?_scopeOf c hn.2, Option.map_none]
  args n hn p hp := by
    rw [param?_scopeOf c hn.1] at hp
    cases hp
  ctorsOf t := by simp [constructors_refl, scopeOf, funext Renaming.method_refl]

theorem Reads.matched {s s' : Symbols} (hp : c.symbols.PlainAliases) (hs : c.Reads s) (hs' : c.Reads s') :
    ({ symbols := s } : Work).Matched (constructors x x') (Symbols.Linked Renaming.refl) { symbols := s' } where
  names := by
    have same : c.symbols.Linked Renaming.refl c.symbols :=
      ⟨hp, hp, fun n => by simp [funext Renaming.ty_refl], fun n _ => by simp [funext Renaming.ty_refl]⟩
    exact same.of_sameNames hs.names hs'.names
  members := by
    constructor
    all_goals intro t
    · simp [constructors_refl, hs.symbols.fieldsOf, hs'.symbols.fieldsOf, funext Renaming.field_refl]
    · simp [constructors_refl, hs.symbols.allMethods, hs'.symbols.allMethods, funext Renaming.method_refl]
    · simp [constructors_refl, hs.symbols.ctorsOf, hs'.symbols.ctorsOf, funext Renaming.method_refl]
    · simp [constructors_refl, hs.symbols.delegate?, hs'.symbols.delegate?, funext Renaming.delegate_refl]
  draft := (Renaming.draft_refl _).symm
  locals := rfl

/-- The initial values mention no parameter, and none of their identifiers is the name of an array. Ahead of a dot a
    name stands for a type as soon as the type has been entered, and the first body that makes an array of numbers
    enters `int[]`. From there on the name no longer stands for a field that is called so: an initial value that is
    lowered in one constructor is refused in the next one. -/
structure Apart (d : DeclaredType) (x : Member) : Prop where
  unseen : ∀ z ∈ d.inits, ∀ n ∈ z.2.bareNames, n ∉ x.params.map Param.name
  plain : ∀ z ∈ d.inits, ∀ n ∈ z.2.identifiers, TypeName.elem? n = none

theorem initFields_agrees (h : Apart d x) (h' : Apart d x') :
    Lower.Agrees (constructors x x') (Symbols.Linked Renaming.refl)
      (fun _ _ => True) (Lower.initFields d.inits) (Lower.initFields d.inits) := by
  have visible : ∀ z ∈ d.inits, z.2.Visible (fun n => TypeName.elem? n = none) (constructors x x').Sees := fun z hz =>
    ⟨h.plain z hz, fun n hn => ⟨h.unseen z hz n hn, h'.unseen z hz n hn⟩⟩
  have agrees := Lower.Agrees.initFields (Symbols.Linked.naming (constructors x x')) visible
  have same : d.inits.map (fun z => ((constructors x x').field z.1, z.2)) = d.inits := by simp [constructors_refl]
  rw [same] at agrees
  exact agrees

/-- Two constructors of a class store the initial values with the same code, at the same place. -/
theorem Stores.same {D' : Draft} {s' : Symbols} {w₁ w₁' w₂ w₂' : Work} (hp : c.symbols.PlainAliases)
    (hx : Constructs c t x) (hc : x.method.isCtor = true) (hx' : Constructs c t x') (hc' : x'.method.isCtor = true)
    (ha : Apart d x) (ha' : Apart d x') (hs : c.Reads s) (hs' : c.Reads s')
    (h : Stores (c.scopeOf x) d x s D w₁ w₂) (h' : Stores (c.scopeOf x') d x' s' D' w₁' w₂') :
    w₁'.draft = w₁.draft ∧ w₂'.draft = w₂.draft := by
  have hscope := hx.scope hc hx' hc'
  obtain ⟨r, hr, -, hbase⟩ := (Lower.Agrees.baseCall hscope (hs.matched hp hs')).of_ok h.base
  rw [h'.base] at hr
  cases hr
  obtain ⟨r, hr, -, hinits⟩ := (initFields_agrees ha ha' hscope hbase).of_ok h.inits
  rw [h'.inits] at hr
  cases hr
  exact ⟨hbase.draft.trans (Renaming.draft_refl _), hinits.draft.trans (Renaming.draft_refl _)⟩

end Matched

theorem Ready.initializes (h : c.Ready) {c₁ : Compilation} (hg : c.generate.Gives c₁) (hd : d ∈ c.types)
    (ha : ∀ x ∈ d.members, x.method.isCtor = true → Apart d x) :
    ∃ code, ∀ x ∈ d.members, x.method.isCtor = true → c.Initializes d x (c₁.module.draft x.method) code := by
  obtain ⟨f, hf⟩ := h.generate hg
  have stores : ∀ x ∈ d.members, x.method.isCtor = true →
      Constructs c d.type x ∧ ∃ s w₁ w₂, c.Reads s ∧ Stores (c.scopeOf x) d x s (c₁.module.draft x.method) w₁ w₂ := by
    intro x hx hc
    have hmem : (d, x) ∈ pairs c.types := mem_pairs.mpr ⟨hd, hx⟩
    obtain ⟨s, hs, he⟩ := hf.emitted _ hmem
    obtain ⟨y, hroutine, hy⟩ := h.has _ hmem
    have hdraft : c₁.module.draft x.method = f x.method := by
      rw [hf.eq]
      exact Module.draft_withDrafts hroutine hy
    rw [hdraft]
    obtain ⟨w₁, w₂, hstores⟩ := he.stores hc
    exact ⟨h.ctors _ hmem hc, s, w₁, w₂, hs, hstores⟩
  by_cases hnone : ∃ x ∈ d.members, x.method.isCtor = true
  · obtain ⟨x, hx, hc⟩ := hnone
    obtain ⟨hctor, s, w₁, w₂, hs, hstores⟩ := stores x hx hc
    obtain ⟨code, hcode⟩ := (initFields_onward _ hstores.inits).code
    refine ⟨code, fun x' hx' hc' => ?_⟩
    obtain ⟨hctor', s', w₁', w₂', hs', hstores'⟩ := stores x' hx' hc'
    obtain ⟨h₁, h₂⟩ := Stores.same h.aliased.plain hctor hc hctor' hc' (ha x hx hc) (ha x' hx' hc') hs hs' hstores hstores'
    exact ⟨s', w₁', w₂', hs', hstores', by rw [h₁, h₂]; exact hcode.symm⟩
  · exact ⟨[], fun x hx hc => (hnone ⟨x, hx, hc⟩).elim⟩

/-- In all constructors of a class the initial values become the same code, unless they mention a parameter of one of
    them. -/
theorem initializers_agree {p : Program} {backend : Backend} {name runtime : Text} {isCanceled : Bool}
    (h : (compile p backend name runtime isCanceled).Gives c) (hd : d ∈ c.types)
    (ha : ∀ x ∈ d.members, x.method.isCtor = true → Apart d x) :
    ∃ c₀, (prepared p (start (Module.new 0 backend name runtime))).Gives c₀ ∧
      ∃ code, ∀ x ∈ d.members, x.method.isCtor = true → c₀.Initializes d x (c.module.draft x.method) code := by
  obtain ⟨-, c₁, hgenerated, hfinish⟩ := compile_gives h
  rw [generated_eq] at hgenerated
  obtain ⟨c₀, hprepared, hgenerate⟩ := hgenerated.of_bind
  have hready := prepared_ready hprepared
  have htypes : c.types = c₀.types := by
    obtain ⟨f, hf⟩ := hready.generate hgenerate.of_pass
    rw [(finish_same hfinish).1, hf.eq]
  obtain ⟨code, hcode⟩ := hready.initializes hgenerate.of_pass (htypes ▸ hd) ha
  exact ⟨c₀, hprepared, code, fun x hx hc => by rw [(finish_same hfinish).2]; exact hcode x hx hc⟩

/-- A class with a field called `int[]`, which an initial value mentions, and with some constructors. -/
def bracketedField (ctors : List CtorDecl) : Program where
  delegates := []
  classes := [{
    name := "Row"
    fields := [{ name := "int[]", type := "Row", isStatic := true, init := .missing },
      { name := "size", type := "int", isStatic := false, init := .missing },
      { name := "first", type := "int", isStatic := false, init := .member (.ident "int[]") "size" }]
    ctors
    methods := [] }]

-- The first constructor makes an array behind its initial values, and there are no such values for the second one.
example :
    let makes : CtorDecl := { params := [], body := [.local "cells" "" (.newArray "int" (.int 3))] }
    let takes : CtorDecl := { params := [{ name := "n", type := "int" }], body := [] }
    (compile (bracketedField [makes]) .dynamic "m" "v4" false default).1.isOk = true ∧
      (compile (bracketedField [makes, takes]) .dynamic "m" "v4" false default).1.isOk = false ∧
      (compile (bracketedField [takes, makes]) .dynamic "m" "v4" false default).1.isOk = true := by
  decide +kernel

/-- A class whose constructors have a parameter of a given name, and of no name, with a field whose initial value is that of
    another field. -/
def accountProgram (parameter : Text) : Program where
  delegates := []
  classes := [{
    name := "Account"
    fields := [{ name := "limit", type := "int", isStatic := true, init := .missing },
      { name := "balance", type := "int", isStatic := false, init := .ident "limit" }]
    ctors := [{ params := [], body := [] }, { params := [{ name := parameter, type := "int" }], body := [] }]
    methods := [] }]

/-- A parameter with another name leaves the field alone. -/
theorem initializers_agree_account :
    ∃ c d, (compile (accountProgram "amount") .dynamic "m" "v4" false).Gives c ∧ d ∈ c.types ∧
    (d.members.filter fun x => x.method.isCtor).length = 2 ∧ d.inits.length = 1 ∧
    ∃ c₀, (prepared (accountProgram "amount") (start (Module.new 0 .dynamic "m" "v4"))).Gives c₀ ∧
      ∃ code, ∀ x ∈ d.members, x.method.isCtor = true → c₀.Initializes d x (c.module.draft x.method) code := by
  obtain ⟨c, hc, hall⟩ :=
    Logged.gives_of_any (x := compile (accountProgram "amount") .dynamic "m" "v4" false) (j := default)
    (p := fun c => decide (∃ d ∈ c.types, (d.members.filter fun x => x.method.isCtor).length = 2 ∧ d.inits.length = 1 ∧
      ∀ x ∈ d.members, x.method.isCtor = true → (∀ z ∈ d.inits, ∀ n ∈ z.2.bareNames, n ∉ x.params.map Param.name) ∧
        ∀ z ∈ d.inits, ∀ n ∈ z.2.identifiers, TypeName.elem? n = none)) (by decide +kernel)
  obtain ⟨d, hd, hctors, hinits, hapart⟩ := of_decide_eq_true hall
  exact ⟨c, d, hc, hd, hctors, hinits,
      initializers_agree hc hd fun x hx hctor => ⟨(hapart x hx hctor).1, (hapart x hx hctor).2⟩⟩

/-- A parameter with the field's name takes its place, so that no code is that of the initial value in both constructors. -/
theorem initializers_captured : ∃ c d, (compile (accountProgram "limit") .dynamic "m" "v4" false).Gives c ∧ d ∈ c.types ∧
    ∀ c₀ : Compilation, ¬∃ code, ∀ x ∈ d.members, x.method.isCtor = true →
      c₀.Initializes d x (c.module.draft x.method) code := by
  obtain ⟨c, hc, hall⟩ := Logged.gives_of_any (x := compile (accountProgram "limit") .dynamic "m" "v4" false) (j := default)
    (p := fun c => decide (∃ d ∈ c.types, d.inits.length ≠ 0 ∧ ∃ x ∈ d.members, ∃ y ∈ d.members, x.method.isCtor = true ∧
      y.method.isCtor = true ∧ (c.module.draft x.method).code[3]? ≠ (c.module.draft y.method).code[3]?)) (by decide +kernel)
  obtain ⟨d, hd, hinits, x, hx, y, hy, hctor, hctor', hne⟩ := of_decide_eq_true hall
  refine ⟨c, d, hc, hd, fun c₀ ⟨code, hcode⟩ => hne ?_⟩
  have hsome : d.inits ≠ [] := fun he => hinits (by rw [he]; rfl)
  have second : ∀ z ∈ d.members, z.method.isCtor = true → (c.module.draft z.method).code[3]? = code[1]? := by
    intro z hz hc
    have h := hcode z hz hc
    have hlen := h.two_le hsome
    obtain ⟨tail, htail⟩ := h.at
    calc (c.module.draft z.method).code[3]?
      _ = ((c.module.draft z.method).code.toList.drop 2)[1]? := by rw [List.getElem?_drop, Array.getElem?_toList]
      _ = (code ++ tail)[1]? := by rw [htail]
      _ = code[1]? := List.getElem?_append_left (by omega)
  rw [second x hx hctor, second y hy hctor']

end Compilation
end CilCompiler
