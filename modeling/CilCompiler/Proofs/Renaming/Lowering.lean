import CilCompiler.Lowering.Stmt
import CilCompiler.Proofs.Identifiers
import CilCompiler.Proofs.Renaming.Reference

/-!
Lowering under a renaming: expressions, statements and bodies. The identifiers of what is lowered are among the names
`V` for which it is known what is entered, and its variables among those that the matching bodies both see.
-/

namespace CilCompiler

/-- What a matching assignment stores to. -/
def Matching.place (μ : Matching) : Place → Place
  | .local l => .local (μ.localSlot l)
  | .arg index => .arg index
  | .field f => .field (μ.field f)
  | .staticField f => .staticField (μ.field f)
  | .element elem => .element (μ.ty elem)

namespace Lower.Agrees

variable {μ : Matching} {V : Text → Prop} {K : Symbols → Symbols → Prop}

/-! ### Operators -/

theorem negate : Agrees μ K (fun _ _ => True) Lower.negate Lower.negate :=
  (emit (.int .ldc 0) trivial).bind fun _ _ _ => emit (.plain .ceq) trivial

theorem emitComparison (op : BinaryOp) :
    Agrees μ K (fun _ _ => True) (Lower.emitComparison op) (Lower.emitComparison op) := by
  cases op
  case lt => exact emit (.plain .clt) trivial
  case gt => exact emit (.plain .cgt) trivial
  case ne => exact (emit (.plain .ceq) trivial).bind fun _ _ _ => negate
  case le => exact (emit (.plain .cgt) trivial).bind fun _ _ _ => negate
  case ge => exact (emit (.plain .clt) trivial).bind fun _ _ _ => negate
  all_goals exact emit (.plain .ceq) trivial

theorem compare (op : BinaryOp) (lt rt : Option Ty) :
    Agrees μ K (fun p p' => p' = μ.pushed p) (Lower.compare op lt rt) (Lower.compare op (μ.opt lt) (μ.opt rt)) := by
  refine read.bind fun c c' hc => ?_
  simp only [hc.roles, Renaming.same_opt, Renaming.isNone_opt, Renaming.accepts_none, Renaming.int32_roles,
    Renaming.same_some]
  have hcompare : Agrees μ K (fun p p' => p' = μ.pushed p)
      (do
        Lower.emitComparison op
        return { type := some c.roles.boolean : Pushed })
      (do
        Lower.emitComparison op
        return { type := some (μ.roles c.roles).boolean : Pushed }) :=
    (emitComparison op).bind fun _ _ _ => .pure rfl
  refine .ite Iff.rfl (fun _ => ?_) fun _ => ?_
  · exact .ite Iff.rfl (fun _ => hcompare) fun _ => .fail rfl
  · exact .ite Iff.rfl (fun _ => hcompare) fun _ => .fail rfl

theorem applyBinary (op : BinaryOp) (lt rt : Option Ty) :
    Agrees μ K (fun p p' => p' = μ.pushed p) (Lower.applyBinary op lt rt)
      (Lower.applyBinary op (μ.opt lt) (μ.opt rt)) := by
  refine read.bind fun c c' hc => ?_
  simp only [hc.roles, Renaming.same_opt, Renaming.isVoidOpt_opt, Renaming.int32_roles, Renaming.boolean_roles,
    Renaming.string_roles, Renaming.same_some]
  refine .ite Iff.rfl (fun _ => .fail rfl) fun _ => .ite Iff.rfl (fun _ => compare op lt rt) fun _ => ?_
  refine .ite Iff.rfl (fun _ => .fail rfl) fun _ => .ite Iff.rfl (fun _ => ?_) fun _ => ?_
  · refine .ite Iff.rfl (fun _ => ?_) fun _ => .fail rfl
    exact (emit (.plain (arithmetic op)) trivial).bind fun _ _ _ => .pure rfl
  · refine .ite Iff.rfl (fun _ => ?_) fun _ => .ite Iff.rfl (fun _ => ?_) fun _ => .fail rfl
    · refine symbols.bind fun s s' hs => (ofExcept (hs.2.findMethod c.roles.string "Concat" [lt, rt] true)).bind ?_
      rintro m _ rfl
      exact (emit (.method .call m) trivial).bind fun _ _ _ => .pure rfl
    · exact (emit (.plain (arithmetic op)) trivial).bind fun _ _ _ => .pure rfl

theorem applyUnary (op : UnaryOp) (t : Option Ty) :
    Agrees μ K (fun p p' => p' = μ.pushed p) (Lower.applyUnary op t) (Lower.applyUnary op (μ.opt t)) := by
  refine read.bind fun c c' hc => ?_
  simp only [hc.roles, Renaming.int32_roles, Renaming.boolean_roles, Renaming.same_some]
  refine .ite Iff.rfl (fun _ => ?_) fun _ => .ite Iff.rfl (fun _ => ?_) fun _ =>
    .ite Iff.rfl (fun _ => ?_) fun _ => .fail rfl
  · exact (emit (.plain .neg) trivial).bind fun _ _ _ => .pure rfl
  · exact negate.bind fun _ _ _ => .pure rfl
  · exact (emit (.plain .not) trivial).bind fun _ _ _ => .pure rfl

/-! ### Elements and members -/

theorem element {array array' : Lower Pushed} {position position' : Option Ty → Lower Pushed}
    (ha : Agrees μ K (fun p p' => p' = μ.pushed p) array array')
    (hp : ∀ t, Agrees μ K (fun p p' => p' = μ.pushed p) (position t) (position' (μ.opt t))) :
    Agrees μ K (fun t t' => t' = μ.ty t) (Lower.element array position) (Lower.element array' position') := by
  refine ha.bind ?_
  rintro ⟨t, a⟩ _ rfl
  have helem : (μ.opt t).bind Ty.elem? = μ.opt (t.bind Ty.elem?) := by cases t <;> simp [Renaming.opt]
  simp only [Renaming.pushed, helem]
  cases t.bind Ty.elem? with
  | none => exact .fail rfl
  | some elem =>
    refine read.bind fun c c' hc => ?_
    rw [hc.roles]
    refine (hp (some c.roles.int32)).bind ?_
    rintro i _ rfl
    exact .ite (by simp [Renaming.pushed]) (fun _ => .pure rfl) fun _ => .fail rfl

theorem loadElement (elem : Ty) (called : Bool) :
    Agrees μ K (fun p p' => p' = μ.pushed p) (Lower.loadElement elem called) (Lower.loadElement (μ.ty elem) called) := by
  unfold Lower.loadElement
  rw [Renaming.isValue_ty]
  refine .ite Iff.rfl (fun _ => ?_) fun _ => ?_
  · exact (emit (.type .ldelema (some elem)) trivial).bind fun _ _ _ => .pure rfl
  · exact (emit (.type .ldelem (some elem)) trivial).bind fun _ _ _ => .pure rfl

theorem staticMember (t : Ty) (name : Text) (hint : Option Ty) (called : Bool) :
    Agrees μ K (fun p p' => p' = μ.pushed p) (Lower.staticMember t name hint called)
      (Lower.staticMember (μ.ty t) name (μ.opt hint) called) := by
  refine (fieldAlong t name).bind fun f f' hf => ?_
  cases hf with
  | @ok f f' hf =>
    subst hf
    exact .ite Iff.rfl (fun _ => loadField f called) fun _ => .fail rfl
  | error hf =>
    refine symbols.bind fun s s' hs => ?_
    rw [hs.2.delegates]
    cases hint with
    | none => exact .fail hf
    | some dt =>
      cases s.delegate? (some dt) with
      | none => exact .fail hf
      | some d =>
        refine symbols.bind fun r r' hr => read.bind fun c c' hc => ?_
        rw [hc.roles, Renaming.object_roles, hr.2.methodsAlong, List.isEmpty_map]
        exact .ite Iff.rfl (fun _ => .fail hf) fun _ => typeReference t name dt d

theorem property (roles : Roles) (t : Ty) (isAddress : Bool) (name : Text) :
    Agrees μ K (fun p p' => p' = μ.pushed p) (Lower.instanceMember.property roles t isAddress name)
      (Lower.instanceMember.property (μ.roles roles) (μ.ty t) isAddress name) := by
  refine symbols.bind fun s s' hs => ?_
  have hm := hs.2.resolve roles.object t ("get_" ++ name) [] false
  rw [List.map_nil] at hm
  rw [Renaming.object_roles]
  generalize s.resolve roles.object t ("get_" ++ name) [] false = x at hm ⊢
  generalize s'.resolve (μ.ty roles.object) (μ.ty t) ("get_" ++ name) [] false = y at hm ⊢
  cases hm with
  | error _ => exact .fail rfl
  | @ok m m' hm =>
    subst hm
    exact callGetter t isAddress m

theorem instanceMember (t : Ty) (isAddress : Bool) (name : Text) (hint : Option Ty) (called : Bool) :
    Agrees μ K (fun p p' => p' = μ.pushed p) (Lower.instanceMember t isAddress name hint called)
      (Lower.instanceMember (μ.ty t) isAddress name (μ.opt hint) called) := by
  refine read.bind fun c c' hc => ?_
  simp only [hc.roles, Renaming.isArray_ty]
  refine .ite Iff.rfl (fun _ => ?_) fun _ => (fieldAlong t name).bind fun f f' hf => ?_
  · exact (emit (.plain .ldlen) trivial).bind fun _ _ _ => .pure rfl
  · cases hf with
    | @ok f f' hf =>
      subst hf
      exact .ite Iff.rfl (fun _ => .fail rfl) fun _ => loadField f called
    | error _ =>
      refine symbols.bind fun s s' hs => ?_
      rw [hs.2.delegates]
      cases hint with
      | none => exact property c.roles t isAddress name
      | some dt =>
        cases s.delegate? (some dt) with
        | none => exact property c.roles t isAddress name
        | some d =>
          refine symbols.bind fun r r' hr => ?_
          rw [Renaming.object_roles, hr.2.methodsAlong, List.isEmpty_map]
          exact .ite Iff.rfl (fun _ => property c.roles t isAddress name) fun _ => boundReference t name dt d

/-! ### Expressions -/

theorem ident_visible {S : Text → Prop} {e : Expr} (he : e.Visible V S) : ∀ n, e = .ident n → V n := by
  rintro n rfl
  exact (Expr.visible_ident.mp he).1

theorem construct (t : Ty) {args args' : Lower.Arguments} (ha : Arguments μ K args args') :
    Agrees μ K (fun p p' => p' = μ.pushed p) (Lower.construct t args) (Lower.construct (μ.ty t) args') := by
  unfold Lower.construct
  rw [Renaming.isValue_ty]
  refine .ite Iff.rfl (fun _ => .fail rfl) fun _ => read.bind fun c c' hc => ?_
  rw [hc.ctorsOf, ha.count, Renaming.hints_map]
  refine (ha.push _).bind ?_
  rintro types _ rfl
  refine symbols.bind fun s s' hs => (ofExcept (hs.2.findConstructor t types)).bind ?_
  rintro m _ rfl
  exact (emit (.ctor .newobj m) trivial).bind fun _ _ _ => .pure rfl

theorem constructArray (hK : μ.Naming V K) (elem : Text) {size size' : Option Ty → Lower Pushed}
    (hs : ∀ t, Agrees μ K (fun p p' => p' = μ.pushed p) (size t) (size' (μ.opt t))) :
    Agrees μ K (fun p p' => p' = μ.pushed p) (Lower.constructArray elem size) (Lower.constructArray elem size') := by
  refine (lookupType hK (TypeName.array elem)).bind ?_
  rintro array _ rfl
  refine read.bind fun c c' hc => ?_
  rw [hc.roles]
  refine (hs (some c.roles.int32)).bind ?_
  rintro n _ rfl
  refine .ite (by simp [Renaming.pushed]) (fun _ => ?_) fun _ => .fail rfl
  rw [Renaming.elem?_ty]
  exact (emit (.type .newarr array.elem?) trivial).bind fun _ _ _ => .pure rfl

mutual

/-- Lowering an expression. -/
theorem expr (hK : μ.Naming V K) (hint : Option Ty) (called : Bool) : ∀ e : Expr, e.Visible V μ.Sees →
    Agrees μ K (fun p p' => p' = μ.pushed p) (Lower.expr e hint called) (Lower.expr e (μ.opt hint) called)
  | .missing, _ => by
    rw [Lower.expr, Lower.expr]
    exact .fail rfl
  | .int v, _ => by
    rw [Lower.expr, Lower.expr]
    refine (emit (.int .ldc v) trivial).bind fun _ _ _ => read.bind fun c c' hc => .pure ?_
    rw [hc.roles]
    rfl
  | .bool b, _ => by
    rw [Lower.expr, Lower.expr]
    refine (emit (.int .ldc _) trivial).bind fun _ _ _ => read.bind fun c c' hc => .pure ?_
    rw [hc.roles]
    rfl
  | .string s, _ => by
    rw [Lower.expr, Lower.expr]
    refine (emit (.str .ldstr s) trivial).bind fun _ _ _ => read.bind fun c c' hc => .pure ?_
    rw [hc.roles]
    rfl
  | .null, _ => by
    rw [Lower.expr, Lower.expr]
    exact (emit (.plain .ldnull) trivial).bind fun _ _ _ => .pure rfl
  | .this, _ => by
    rw [Lower.expr, Lower.expr]
    refine (requireInstance _).bind fun _ _ _ => emitThis.bind fun _ _ _ => read.bind fun c c' hc => .pure ?_
    rw [hc.owner]
    rfl
  | .ident name, he => by
    rw [Lower.expr, Lower.expr]
    exact ident hK (Expr.visible_ident.mp he).2 hint called
  | .member target name, he => by
    rw [Lower.expr, Lower.expr]
    rw [Expr.visible_member] at he
    refine (typeTarget hK (ident_visible he)).bind ?_
    rintro t _ rfl
    cases t with
    | some t => exact staticMember t name hint called
    | none =>
      refine symbols.bind fun s s' hs => ?_
      rw [hs.2.delegates, Option.isSome_map]
      refine (receiver (expr hK none _ target he) name).bind ?_
      rintro ⟨t, a⟩ _ rfl
      exact instanceMember t a name hint called
  | .index array position, he => by
    rw [Lower.expr, Lower.expr]
    rw [Expr.visible_index] at he
    refine (element (expr hK none false array he.1) fun t => expr hK t false position he.2).bind ?_
    rintro elem _ rfl
    exact loadElement elem called
  | .binary op left right, he => by
    rw [Lower.expr, Lower.expr]
    rw [Expr.visible_binary] at he
    refine (expr hK none false left he.1).bind ?_
    rintro l _ rfl
    refine (expr hK l.type false right he.2).bind ?_
    rintro r _ rfl
    exact applyBinary op l.type r.type
  | .unary op operand, he => by
    rw [Lower.expr, Lower.expr]
    rw [Expr.visible_unary] at he
    refine (expr hK none false operand he).bind ?_
    rintro v _ rfl
    exact applyUnary op v.type
  | .call target name args, he => by
    rw [Lower.expr, Lower.expr]
    obtain ⟨htarget, hown, hall⟩ := Expr.visible_call.mp he
    have hargs : Arguments μ K { count := args.length, push := fun hints => Lower.arguments 1 hints args }
        { count := args.length, push := fun hints => Lower.arguments 1 hints args } :=
      ⟨rfl, fun hints => arguments hK 1 hints args hall⟩
    refine .ite Iff.rfl (fun hm => callOwn hK (hown hm) hargs) fun _ => (typeTarget hK (ident_visible htarget)).bind ?_
    rintro t _ rfl
    cases t with
    | some t =>
      refine (hintsFor t name true args.length).bind ?_
      rintro hints _ rfl
      exact callStatic hargs t name hints
    | none =>
      refine (receiver (expr hK none true target htarget) name).bind ?_
      rintro ⟨t, a⟩ _ rfl
      exact callInstance hargs t a name
  | .new type args, he => by
    rw [Lower.expr, Lower.expr]
    rw [Expr.visible_new] at he
    refine (lookupType hK type).bind ?_
    rintro t _ rfl
    refine symbols.bind fun s s' hs => ?_
    rw [← Renaming.opt_some, hs.2.delegates]
    cases s.delegate? (some t) with
    | some d => exact delegateOf hK t args he
    | none => exact construct t ⟨rfl, fun hints => arguments hK 1 hints args he⟩
  | .newArray elem size, he => by
    rw [Lower.expr, Lower.expr]
    rw [Expr.visible_newArray] at he
    exact constructArray hK elem fun t => expr hK t false size he
  | .methodRef target name spelling, he => by
    rw [Lower.expr, Lower.expr]
    rw [Expr.visible_methodRef] at he
    exact reference hK (ident_visible he) (expr hK none false target he) name spelling hint

/-- Lowering arguments. -/
theorem arguments (hK : μ.Naming V K) (position : Nat) (hints : List (Option Ty)) : ∀ es : List Expr,
    Expr.AllVisible V μ.Sees es →
    Agrees μ K (fun ts ts' => ts' = ts.map μ.opt) (Lower.arguments position hints es)
      (Lower.arguments position (hints.map μ.opt) es)
  | [], _ => by
    rw [Lower.arguments, Lower.arguments]
    exact .pure rfl
  | e :: rest, he => by
    rw [Lower.arguments, Lower.arguments]
    rw [Expr.allVisible_cons] at he
    have hhead : (hints.map μ.opt).head?.join = μ.opt hints.head?.join := by cases hints <;> rfl
    rw [hhead, ← List.map_tail]
    refine (expr hK hints.head?.join false e he.1).bind ?_
    rintro v _ rfl
    simp only [Renaming.pushed, Renaming.isVoidOpt_opt]
    refine .ite Iff.rfl (fun _ => .fail rfl) fun _ => ?_
    refine (arguments hK (position + 1) hints.tail rest he.2).bind ?_
    rintro types _ rfl
    exact .pure rfl

/-- Lowering what a delegate is made from. -/
theorem delegateOf (hK : μ.Naming V K) (dt : Ty) : ∀ es : List Expr, Expr.AllVisible V μ.Sees es →
    Agrees μ K (fun p p' => p' = μ.pushed p) (Lower.delegateOf dt es) (Lower.delegateOf (μ.ty dt) es)
  | [], _ => by
    rw [Lower.delegateOf, Lower.delegateOf]
    · exact .fail rfl
    all_goals simp
  | [e], he => by
    rw [Lower.delegateOf, Lower.delegateOf]
    exact methodGroup hK dt e (Expr.allVisible_cons.mp he).1
  | e :: f :: rest, _ => by
    rw [Lower.delegateOf, Lower.delegateOf]
    · exact .fail rfl
    all_goals simp

/-- Lowering the name of a method. -/
theorem methodGroup (hK : μ.Naming V K) (dt : Ty) : ∀ e : Expr, e.Visible V μ.Sees →
    Agrees μ K (fun p p' => p' = μ.pushed p) (Lower.methodGroup dt e) (Lower.methodGroup (μ.ty dt) e)
  | .methodRef target name spelling, he => by
    rw [Lower.methodGroup, Lower.methodGroup]
    rw [Expr.visible_methodRef] at he
    exact reference hK (ident_visible he) (expr hK none false target he) name spelling (some dt)
  | .ident name, _ => by
    rw [Lower.methodGroup, Lower.methodGroup]
    exact reference hK (by simp) (.fail rfl) name .empty (some dt)
  | .member target name, he => by
    rw [Lower.methodGroup, Lower.methodGroup]
    rw [Expr.visible_member] at he
    exact reference hK (ident_visible he) (expr hK none false target he) name .empty (some dt)
  | .missing, _ | .int _, _ | .string _, _ | .bool _, _ | .null, _ | .this, _ | .index .., _ | .binary .., _
  | .unary .., _ | .call .., _ | .new .., _ | .newArray .., _ => by
    rw [Lower.methodGroup, Lower.methodGroup]
    · exact .fail rfl
    all_goals simp

end

theorem value (hK : μ.Naming V K) {e : Expr} (he : e.Visible V μ.Sees) (hint : Option Ty) :
    Agrees μ K (fun t t' => t' = μ.opt t) (Lower.value e hint) (Lower.value e (μ.opt hint)) := by
  refine (expr hK hint false e he).bind ?_
  rintro v _ rfl
  exact .pure rfl

/-! ### Initial values -/

theorem baseCall : Agrees μ K (fun _ _ => True) Lower.baseCall Lower.baseCall := by
  refine symbols.bind fun s s' hs => read.bind fun c c' hc => ?_
  rw [hc.roles]
  refine (ofExcept (hs.2.findConstructor c.roles.object [])).bind ?_
  rintro m _ rfl
  exact emitThis.bind fun _ _ _ => emit (.ctor .call m) trivial

theorem initField (hK : μ.Naming V K) (f : Field) {init : Expr} (he : init.Visible V μ.Sees) :
    Agrees μ K (fun _ _ => True) (Lower.initField f init) (Lower.initField (μ.field f) init) := by
  refine emitThis.bind fun _ _ _ => (value hK he f.type).bind ?_
  rintro t _ rfl
  exact (expect f.type t _).bind fun _ _ _ => emit (.field .stfld f) trivial

/-! ### Assignments -/

section Assignment

variable (hall : μ.Whole)
include hall

theorem visible_all {e : Expr} (he : ∀ n ∈ e.identifiers, V n) : e.Visible V μ.Sees := ⟨he, fun n _ => hall.sees n⟩

theorem identPlace (name : Text) :
    Agrees μ K (fun r r' => r' = (μ.place r.1, μ.opt r.2)) (Lower.identPlace name) (Lower.identPlace name) := by
  refine read.bind fun c c' hc => (local? name).bind ?_
  rintro l _ rfl
  cases l with
  | some l => exact .pure rfl
  | none =>
    simp only [Option.map_none, hc.param? name (hall.sees name)]
    cases c.param? name with
    | some p => exact .pure rfl
    | none =>
      simp only [Option.map_none, hc.owner]
      refine (fieldAlong c.owner name).bind fun f f' hf => ?_
      cases hf with
      | error _ => exact .fail rfl
      | @ok f f' hf =>
        subst hf
        refine .ite Iff.rfl (fun _ => .pure rfl) fun _ => ?_
        exact (requireInstance _).bind fun _ _ _ => emitThis.bind fun _ _ _ => .pure rfl

theorem memberPlace (hK : μ.Naming V K) {target : Expr} (ht : ∀ n ∈ target.identifiers, V n) (name : Text) :
    Agrees μ K (fun r r' => r' = (μ.place r.1, μ.opt r.2)) (Lower.memberPlace target name)
      (Lower.memberPlace target name) := by
  have ht := visible_all hall ht
  refine (typeTarget hK (ident_visible ht)).bind ?_
  rintro t _ rfl
  cases t with
  | some t =>
    refine (fieldAlong t name).bind fun f f' hf => (ofExcept hf).bind ?_
    rintro f _ rfl
    exact .ite Iff.rfl (fun _ => .pure rfl) fun _ => .fail rfl
  | none =>
    refine (receiver (expr hK none false target ht) name).bind ?_
    rintro ⟨t, a⟩ _ rfl
    refine (fieldAlong t name).bind fun f f' hf => ?_
    cases hf with
    | error hf =>
      simp only [Renaming.isArray_ty]
      exact .ite Iff.rfl (fun _ => .fail rfl) fun _ => .fail hf
    | @ok f f' hf =>
      subst hf
      exact .ite Iff.rfl (fun _ => .fail rfl) fun _ => .pure rfl

theorem place (hK : μ.Naming V K) {e : Expr} (he : ∀ n ∈ e.identifiers, V n) :
    Agrees μ K (fun r r' => r' = (μ.place r.1, μ.opt r.2)) (Lower.place e) (Lower.place e) := by
  cases e with
  | ident name => exact identPlace hall name
  | member target name =>
    rw [Expr.identifiers] at he
    exact memberPlace hall hK he name
  | index array position =>
    have he := Expr.visible_index.mp (visible_all hall he)
    refine (element (expr hK none false array he.1) fun t => expr hK t false position he.2).bind ?_
    rintro elem _ rfl
    exact .pure rfl
  | _ => exact .fail rfl

theorem store (p : Place) : Agrees μ K (fun _ _ => True) (Lower.store p) (Lower.store (μ.place p)) := by
  cases p with
  | «local» l => exact emit (.local .stloc (some l)) trivial
  | arg index => exact emit (.arg .starg index) (hall.args index)
  | field f => exact emit (.field .stfld f) trivial
  | staticField f => exact emit (.field .stsfld f) trivial
  | element elem => exact emit (.type .stelem (some elem)) trivial

/-! ### Statements -/

variable (hK : μ.Naming V K)
include hK

theorem returnStmt {e : Expr} (he : ∀ n ∈ e.identifiers, V n) :
    Agrees μ K (fun _ _ => True) (Lower.returnStmt e) (Lower.returnStmt e) := by
  refine read.bind fun c c' hc => ?_
  simp only [hc.ret, Renaming.isVoid_ty]
  refine .ite Iff.rfl (fun _ => ?_) fun _ => .ite Iff.rfl (fun _ => .fail rfl) fun _ => ?_
  · exact .ite Iff.rfl (fun _ => emit (.plain .ret) trivial) fun _ => .fail rfl
  · refine (value hK (visible_all hall he) (some c.ret)).bind ?_
    rintro t _ rfl
    exact (expect (some c.ret) t _).bind fun _ _ _ => emit (.plain .ret) trivial

omit hall in
theorem declaredType (name type : Text) :
    Agrees μ K (fun t t' => t' = μ.opt t) (Lower.declaredType name type) (Lower.declaredType name type) := by
  refine .ite Iff.rfl (fun _ => .pure rfl) fun _ => (lookupType hK type).bind ?_
  rintro t _ rfl
  exact .ite (by simp) (fun _ => .fail rfl) fun _ => .pure rfl

omit hall hK in
theorem initializedType (name : Text) (declared initial : Option Ty) :
    Agrees μ K (fun t t' => t' = μ.ty t) (Lower.initializedType name declared initial)
      (Lower.initializedType name (μ.opt declared) (μ.opt initial)) := by
  cases declared with
  | some t => exact (expect (some t) initial _).bind fun _ _ _ => .pure rfl
  | none =>
    cases initial with
    | none => exact .fail rfl
    | some t => exact .ite (by simp) (fun _ => .fail rfl) fun _ => .pure rfl

theorem localStmt (name type : Text) {init : Expr} (he : ∀ n ∈ init.identifiers, V n) :
    Agrees μ K (fun _ _ => True) (Lower.localStmt name type init) (Lower.localStmt name type init) := by
  refine read.bind fun c c' hc => (local? name).bind ?_
  rintro l _ rfl
  simp only [hc.param? name (hall.sees name), Option.isSome_map]
  refine .ite Iff.rfl (fun _ => .fail rfl) fun _ => (declaredType hK name type).bind ?_
  rintro declared _ rfl
  refine .ite Iff.rfl (fun _ => ?_) fun _ => (value hK (visible_all hall he) declared).bind ?_
  · cases declared with
    | none => exact .fail rfl
    | some t => exact (declareLocal name t).bind fun _ _ _ => .pure trivial
  · rintro initial _ rfl
    refine (initializedType name declared initial).bind ?_
    rintro t _ rfl
    refine (declareLocal name t).bind ?_
    rintro l _ rfl
    exact emit (.local .stloc (some l)) trivial

theorem assignStmt {target e : Expr} (ht : ∀ n ∈ target.identifiers, V n) (he : ∀ n ∈ e.identifiers, V n) :
    Agrees μ K (fun _ _ => True) (Lower.assignStmt target e) (Lower.assignStmt target e) := by
  refine (place hall hK ht).bind ?_
  rintro ⟨p, t⟩ _ rfl
  refine (value hK (visible_all hall he) t).bind ?_
  rintro v _ rfl
  exact (expect t v _).bind fun _ _ _ => store hall p

theorem exprStmt {e : Expr} (he : ∀ n ∈ e.identifiers, V n) :
    Agrees μ K (fun _ _ => True) (Lower.exprStmt e) (Lower.exprStmt e) := by
  refine (expr hK none false e (visible_all hall he)).bind ?_
  rintro v _ rfl
  exact .ite (by simp [Renaming.pushed]) (fun _ => .pure trivial) fun _ => .fail rfl

theorem condition {e : Expr} (he : ∀ n ∈ e.identifiers, V n) :
    Agrees μ K (fun _ _ => True) (Lower.condition e) (Lower.condition e) := by
  refine read.bind fun c c' hc => ?_
  rw [hc.roles]
  refine (value hK (visible_all hall he) (some c.roles.boolean)).bind ?_
  rintro t _ rfl
  exact .ite (by simp) (fun _ => .pure trivial) fun _ => .fail rfl

theorem whileLoop {cond : Expr} (he : ∀ n ∈ cond.identifiers, V n) {body : Lower Unit}
    (hb : Agrees μ K (fun _ _ => True) body body) :
    Agrees μ K (fun _ _ => True) (Lower.whileLoop cond body) (Lower.whileLoop cond body) := by
  refine defineLabel.bind ?_
  rintro start _ rfl
  refine defineLabel.bind ?_
  rintro test _ rfl
  refine (emit (.label .br (some test)) trivial).bind fun _ _ _ => (markLabel start).bind fun _ _ _ =>
    hb.bind fun _ _ _ => ?_
  exact (markLabel test).bind fun _ _ _ => (condition hall hK he).bind fun _ _ _ =>
    emit (.label .brtrue (some start)) trivial

theorem choice {cond : Expr} (he : ∀ n ∈ cond.identifiers, V n) {yes no : Lower Unit}
    (hy : Agrees μ K (fun _ _ => True) yes yes) (hn : Agrees μ K (fun _ _ => True) no no) :
    Agrees μ K (fun _ _ => True) (Lower.choice cond yes no) (Lower.choice cond yes no) := by
  refine defineLabel.bind ?_
  rintro other _ rfl
  refine defineLabel.bind ?_
  rintro done _ rfl
  refine (condition hall hK he).bind fun _ _ _ => (emit (.label .brfalse (some other)) trivial).bind fun _ _ _ =>
    hy.bind fun _ _ _ => ?_
  refine (emit (.label .br (some done)) trivial).bind fun _ _ _ => (markLabel other).bind fun _ _ _ =>
    hn.bind fun _ _ _ => ?_
  exact markLabel done

end Assignment

mutual

/-- Lowering a statement. -/
theorem stmt (hall : μ.Whole) (hK : μ.Naming V K) : ∀ s : Stmt, (∀ n ∈ s.identifiers, V n) →
    Agrees μ K (fun _ _ => True) (Lower.stmt s) (Lower.stmt s)
  | .return e, he => by
    rw [Lower.stmt]
    rw [Stmt.identifiers] at he
    exact returnStmt hall hK he
  | .local name type init, he => by
    rw [Lower.stmt]
    rw [Stmt.identifiers] at he
    exact localStmt hall hK name type he
  | .assign target e, he => by
    rw [Lower.stmt]
    simp only [Stmt.identifiers, List.mem_append] at he
    exact assignStmt hall hK (fun n h => he n (.inl h)) fun n h => he n (.inr h)
  | .expr e, he => by
    rw [Lower.stmt]
    rw [Stmt.identifiers] at he
    exact exprStmt hall hK he
  | .baseCall, _ => by
    rw [Lower.stmt]
    refine read.bind fun c c' hc => ?_
    rw [hc.site.isCtor]
    exact .ite Iff.rfl (fun _ => baseCall) fun _ => .fail rfl
  | .while cond body, he => by
    rw [Lower.stmt]
    simp only [Stmt.identifiers, List.mem_append] at he
    exact whileLoop hall hK (fun n h => he n (.inl h)) (block hall hK body fun n h => he n (.inr h))
  | .if cond yes no, he => by
    rw [Lower.stmt]
    simp only [Stmt.identifiers, List.mem_append] at he
    exact choice hall hK (fun n h => he n (.inl h)) (block hall hK yes fun n h => he n (.inr (.inl h)))
      (block hall hK no fun n h => he n (.inr (.inr h)))

/-- Lowering statements. -/
theorem block (hall : μ.Whole) (hK : μ.Naming V K) : ∀ ss : List Stmt, (∀ n ∈ Stmt.identifiersAll ss, V n) →
    Agrees μ K (fun _ _ => True) (Lower.block ss) (Lower.block ss)
  | [], _ => by
    rw [Lower.block]
    exact .pure trivial
  | s :: rest, he => by
    rw [Lower.block]
    simp only [Stmt.identifiersAll, List.mem_append] at he
    exact (stmt hall hK s fun n h => he n (.inl h)).bind fun _ _ _ => block hall hK rest fun n h => he n (.inr h)

end

/-! ### Bodies -/

section Body

variable (hall : μ.Whole) (hK : μ.Naming V K)
include hall hK

theorem statements {body : List Stmt} (hb : ∀ n ∈ Stmt.identifiersAll body, V n) :
    Agrees μ K Eq (Lower.statements body) (Lower.statements body) := by
  refine (block hall hK body hb).bind fun _ _ _ => read.bind fun c c' hc => ?_
  rw [hc.ret, Renaming.isVoid_ty]
  exact .ite Iff.rfl (fun _ => .pure rfl) fun _ => .ite Iff.rfl (fun _ => .pure rfl) fun _ => .fail rfl

theorem constructor {inits : List (Field × Expr)} (hi : ∀ x ∈ inits, ∀ n ∈ x.2.identifiers, V n) {body : List Stmt}
    (hb : ∀ n ∈ Stmt.identifiersAll body, V n) :
    Agrees μ K Eq (Lower.constructor inits body) (Lower.constructor (inits.map fun x => (μ.field x.1, x.2)) body) := by
  have hall : ∀ b : List Stmt, (∀ n ∈ Stmt.identifiersAll b, V n) → Agrees μ K Eq
      (do
        Lower.baseCall
        for x in inits do Lower.initField x.1 x.2
        Lower.statements b)
      (do
        Lower.baseCall
        for x in inits.map fun x => (μ.field x.1, x.2) do Lower.initField x.1 x.2
        Lower.statements b) := by
    intro b hb
    refine baseCall.bind fun _ _ _ => Agrees.bind (R := fun _ _ => True) ?_ fun _ _ _ => statements hall hK hb
    exact forIn (g := fun x : Field × Expr => (μ.field x.1, x.2)) (f := fun x => Lower.initField x.1 x.2)
      fun x hx => initField hK x.1 (visible_all hall (hi x hx))
  unfold Lower.constructor
  split
  · exact hall _ fun n hn => hb n (by simpa [Stmt.identifiersAll, Stmt.identifiers] using hn)
  · exact hall _ hb

end Body

end Lower.Agrees
end CilCompiler
