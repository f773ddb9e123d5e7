import CilCompiler.Proofs.Tree.Interchange
import CilCompiler.Proofs.Tree.JsonForm

/-!
Programs survive being written as JSON. The JSON form of a program whose texts are valid is read as its interchange form,
so reading the text of a program gives the program, whatever text follows it (`Program.ofJsonText_toJsonText`). The form
must not nest deeper than the reader allows, and an argument of a call must not be left out.
-/

namespace CilCompiler

/-! ### The texts of a program -/

mutual

def Expr.texts : Expr → List Text
  | .missing | .int _ | .bool _ | .null | .this => []
  | .string s => [s]
  | .ident n => [n]
  | .member t n => n :: t.texts
  | .index a i => a.texts ++ i.texts
  | .binary _ l r => l.texts ++ r.texts
  | .unary _ x => x.texts
  | .call t n args => n :: (t.texts ++ Expr.listTexts args)
  | .new t args => t :: Expr.listTexts args
  | .newArray e s => e :: s.texts
  | .methodRef t n d => n :: d :: t.texts

def Expr.listTexts : List Expr → List Text
  | [] => []
  | e :: es => e.texts ++ Expr.listTexts es

end

mutual

def Stmt.texts : Stmt → List Text
  | .return v | .expr v => v.texts
  | .local n t v => n :: t :: v.texts
  | .assign t v => t.texts ++ v.texts
  | .baseCall => []
  | .while c b => c.texts ++ Stmt.listTexts b
  | .if c y n => c.texts ++ (Stmt.listTexts y ++ Stmt.listTexts n)

def Stmt.listTexts : List Stmt → List Text
  | [] => []
  | s :: ss => s.texts ++ Stmt.listTexts ss

end

def Param.texts (p : Param) : List Text := [p.name, p.type]

def FieldDecl.texts (f : FieldDecl) : List Text := f.name :: f.type :: f.init.texts

def CtorDecl.texts (c : CtorDecl) : List Text := c.params.flatMap Param.texts ++ Stmt.listTexts c.body

def MethodDecl.texts (m : MethodDecl) : List Text :=
  m.name :: m.ret :: (m.params.flatMap Param.texts ++ Stmt.listTexts m.body)

def ClassDecl.texts (c : ClassDecl) : List Text :=
  c.name :: (c.fields.flatMap FieldDecl.texts ++ (c.ctors.flatMap CtorDecl.texts ++ c.methods.flatMap MethodDecl.texts))

def DelegateDecl.texts (d : DelegateDecl) : List Text := d.name :: d.ret :: d.params.flatMap Param.texts

/-- Every name and every literal of a program. -/
def Program.texts (p : Program) : List Text := p.classes.flatMap ClassDecl.texts ++ p.delegates.flatMap DelegateDecl.texts

/-- No text has a stray byte. -/
def AreValid (ts : List Text) : Prop := ∀ t ∈ ts, t.isValid = true

@[simp] theorem areValid_cons {t : Text} {ts : List Text} : AreValid (t :: ts) ↔ t.isValid = true ∧ AreValid ts :=
  List.forall_mem_cons

@[simp] theorem areValid_append {ts us : List Text} : AreValid (ts ++ us) ↔ AreValid ts ∧ AreValid us :=
  List.forall_mem_append

theorem areValid_flatMap {α : Type} {f : α → List Text} {xs : List α} :
    AreValid (xs.flatMap f) ↔ ∀ x ∈ xs, AreValid (f x) := by
  simp only [AreValid, List.mem_flatMap]
  exact ⟨fun h x hx t ht => h t ⟨x, hx, ht⟩, fun h t ⟨x, hx, ht⟩ => h x hx t ht⟩

/-! ### Nodes of valid trees -/

open Wire (Node)

theorem BinaryOp.isValid_spelling (op : BinaryOp) : op.spelling.isValid = true := by
  cases op <;> decide

theorem UnaryOp.isValid_spelling (op : UnaryOp) : op.spelling.isValid = true := by
  cases op <;> decide

mutual

theorem Expr.isClean_toWire : (e : Expr) → AreValid e.texts → e.toWire.IsClean
  | .missing, _ => by simp [toWire, Node.IsClean]
  | .int _, _ | .bool _, _ | .null, _ | .this, _ => by simp +decide [toWire, Node.IsClean, Wire.Keys.IsClean, Node.AreClean]
  | .string _, h | .ident _, h => by
    simp only [texts, areValid_cons] at h
    simp +decide [toWire, Node.IsClean, Wire.Keys.IsClean, Node.AreClean, h.1]
  | .member t _, h => by
    simp only [texts, areValid_cons] at h
    simp +decide [toWire, Node.IsClean, Wire.Keys.IsClean, Node.AreClean, h.1, t.isClean_toWire h.2]
  | .index a i, h => by
    simp only [texts, areValid_append] at h
    simp +decide [toWire, Node.IsClean, Wire.Keys.IsClean, Node.AreClean, a.isClean_toWire h.1, i.isClean_toWire h.2]
  | .binary op l r, h => by
    simp only [texts, areValid_append] at h
    simp +decide [toWire, Node.IsClean, Wire.Keys.IsClean, Node.AreClean, op.isValid_spelling, l.isClean_toWire h.1,
      r.isClean_toWire h.2]
  | .unary op x, h => by
    simp only [texts] at h
    simp +decide [toWire, Node.IsClean, Wire.Keys.IsClean, Node.AreClean, op.isValid_spelling, x.isClean_toWire h]
  | .call t _ args, h => by
    simp only [texts, areValid_cons, areValid_append] at h
    simp +decide [toWire, Node.IsClean, Wire.Keys.IsClean, Node.AreClean, Slots.ofList, h.1, t.isClean_toWire h.2.1,
      areClean_listToWire args h.2.2]
  | .new _ args, h => by
    simp only [texts, areValid_cons] at h
    simp +decide [toWire, Node.IsClean, Wire.Keys.IsClean, Node.AreClean, Slots.ofList, h.1, areClean_listToWire args h.2]
  | .newArray _ s, h => by
    simp only [texts, areValid_cons] at h
    simp +decide [toWire, Node.IsClean, Wire.Keys.IsClean, Node.AreClean, h.1, s.isClean_toWire h.2]
  | .methodRef t _ _, h => by
    simp only [texts, areValid_cons] at h
    simp +decide [toWire, Node.IsClean, Wire.Keys.IsClean, Node.AreClean, h.1, h.2.1, t.isClean_toWire h.2.2]

theorem Expr.areClean_listToWire : (es : List Expr) → AreValid (Expr.listTexts es) → Node.AreClean (Expr.listToWire es)
  | [], _ => by simp [listToWire, Node.AreClean]
  | e :: es, h => by
    simp only [listTexts, areValid_append] at h
    simp [listToWire, Node.AreClean, e.isClean_toWire h.1, areClean_listToWire es h.2]

end

mutual

theorem Stmt.isClean_toWire : (s : Stmt) → AreValid s.texts → s.toWire.IsClean
  | .return v, h | .expr v, h => by
    simp only [texts] at h
    simp +decide [toWire, Node.IsClean, Wire.Keys.IsClean, Node.AreClean, v.isClean_toWire h]
  | .local _ _ v, h => by
    simp only [texts, areValid_cons] at h
    simp +decide [toWire, Node.IsClean, Wire.Keys.IsClean, Node.AreClean, h.1, h.2.1, v.isClean_toWire h.2.2]
  | .assign t v, h => by
    simp only [texts, areValid_append] at h
    simp +decide [toWire, Node.IsClean, Wire.Keys.IsClean, Node.AreClean, t.isClean_toWire h.1, v.isClean_toWire h.2]
  | .baseCall, _ => by simp +decide [toWire, Node.IsClean, Wire.Keys.IsClean, Node.AreClean]
  | .while c b, h => by
    simp only [texts, areValid_append] at h
    simp +decide [toWire, Node.IsClean, Wire.Keys.IsClean, Node.AreClean, Slots.ofList, c.isClean_toWire h.1,
      areClean_listToWire b h.2]
  | .if c y n, h => by
    simp only [texts, areValid_append] at h
    simp +decide [toWire, Node.IsClean, Wire.Keys.IsClean, Node.AreClean, Slots.ofList, c.isClean_toWire h.1,
      areClean_listToWire y h.2.1, areClean_listToWire n h.2.2]

theorem Stmt.areClean_listToWire : (ss : List Stmt) → AreValid (Stmt.listTexts ss) → Node.AreClean (Stmt.listToWire ss)
  | [], _ => by simp [listToWire, Node.AreClean]
  | s :: ss, h => by
    simp only [listTexts, areValid_append] at h
    simp [listToWire, Node.AreClean, s.isClean_toWire h.1, areClean_listToWire ss h.2]

end

/-! ### Records -/

namespace Wire

theorem forall₂_map_of {α β : Type} {R : Json → β → Prop} {json : β → Json} {f : α → β} {xs : List α}
    (h : ∀ x ∈ xs, R (json (f x)) (f x)) : List.Forall₂ R ((xs.map f).map json) (xs.map f) := by
  induction xs with
  | nil => exact .nil
  | cons x xs ih =>
    exact .cons (h x (List.mem_cons_self ..)) (ih fun y hy => h y (List.mem_cons_of_mem _ hy))

theorem holds_param {p : Param} (h : AreValid p.texts) :
    Holds (readRecord setParam { name := .empty, type := .empty }) (paramJson p) p := by
  simp only [Param.texts, areValid_cons] at h
  have named : Puts setParam { name := .empty, type := .empty } [("name", .string p.name)] _ :=
    .member (f := fun x => { name := x, type := .empty }) (holds_text .empty h.1) (fun _ => rfl) (by decide)
  have typed : Puts setParam { name := p.name, type := .empty } [("type", .string p.type)] _ :=
    .member (f := fun x => { name := p.name, type := x }) (holds_text .empty h.2.1) (fun _ => rfl) (by decide)
  exact holds_record (named.append typed)

theorem holds_params {ps : List Param} (h : AreValid (ps.flatMap Param.texts)) :
    Holds (readParams {}) (.array (ps.map paramJson)) (.ofList ps) := by
  have := forall₂_map_of (f := id) fun p hp => holds_param (areValid_flatMap.mp h p hp)
  rw [List.map_id] at this
  exact holds_list this

theorem holds_body {body : List Stmt} (h : AreValid (Stmt.listTexts body)) :
    Holds (readNodes {}) (.array (nodesJson (Stmt.listToWire body))) (.ofList (Stmt.listToWire body)) :=
  holds_nodeList (holds_nodes _ (Stmt.areClean_listToWire body h))

theorem holds_field {d : FieldDecl} (h : AreValid d.texts) : Holds (readRecord setField {}) d.toWire.json d.toWire := by
  obtain ⟨name, type, isStatic, init⟩ := d
  simp only [FieldDecl.texts, areValid_cons] at h
  obtain ⟨hn, ht, hi⟩ := h
  have named : Puts setField {} [("name", .string name)] _ :=
    .member (f := fun x => { name := x }) (holds_text .empty hn) (fun _ => rfl) (by decide)
  have typed : Puts setField { name } [("type", .string type)] _ :=
    .member (f := fun x => { name, type := x }) (holds_text .empty ht) (fun _ => rfl) (by decide)
  have marked : Puts setField { name, type } (boolMember "static" isStatic) _ :=
    .bool (by decide) (f := fun x => { name, type, isStatic := x }) (fun _ => rfl) rfl
  have started : Puts setField { name, type, isStatic } (childMember "init" init.toWire) _ :=
    .child (by decide) (f := fun x => { name, type, isStatic, init := x }) (holds_node _ (init.isClean_toWire hi))
      (fun _ => rfl) rfl
  exact holds_record (named.cons (typed.cons (marked.append started)))

theorem holds_method {m : MethodDecl} (h : AreValid m.texts) : Holds (readRecord setMethod {}) m.toWire.json m.toWire := by
  obtain ⟨name, isStatic, ret, params, body⟩ := m
  simp only [MethodDecl.texts, areValid_cons, areValid_append] at h
  obtain ⟨hn, hr, hp, hb⟩ := h
  have named : Puts setMethod {} (textMember "name" name) _ :=
    .text (by decide) (f := fun x => { name := x }) hn (fun _ => rfl) rfl
  have marked : Puts setMethod { name } (boolMember "static" isStatic) _ :=
    .bool (by decide) (f := fun x => { name, isStatic := x }) (fun _ => rfl) rfl
  have returned : Puts setMethod { name, isStatic } (textMember "ret" ret) _ :=
    .text (by decide) (f := fun x => { name, isStatic, ret := x }) hr (fun _ => rfl) rfl
  have given : Puts setMethod { name, isStatic, ret } (listMember "params" (params.map paramJson)) _ :=
    .list (by decide) (f := fun x => { name, isStatic, ret, params := x }) (holds_params hp) (by simp) (fun _ => rfl) rfl
  have bodied : Puts setMethod { name, isStatic, ret, params := .ofList params }
      (listMember "body" (nodesJson (Stmt.listToWire body))) _ :=
    .list (by decide) (f := fun x => { name, isStatic, ret, params := .ofList params, body := x }) (holds_body hb)
      (holds_nodes _ (Stmt.areClean_listToWire body hb)).length_eq (fun _ => rfl) rfl
  exact holds_record ((((named.append marked).append returned).append given).append bodied)

/-- Constructors are written as methods without a name. -/
theorem holds_ctor {c : CtorDecl} (h : AreValid c.texts) : Holds (readRecord setMethod {}) c.toWire.json c.toWire := by
  refine holds_method (m := { name := .empty, isStatic := false, ret := .empty, params := c.params, body := c.body }) ?_
  simp only [CtorDecl.texts, areValid_append] at h
  simp only [MethodDecl.texts, areValid_cons, areValid_append]
  exact ⟨by decide, by decide, h⟩

theorem holds_delegate {d : DelegateDecl} (h : AreValid d.texts) :
    Holds (readRecord setDelegate {}) d.toWire.json d.toWire := by
  obtain ⟨name, ret, params⟩ := d
  simp only [DelegateDecl.texts, areValid_cons] at h
  obtain ⟨hn, hr, hp⟩ := h
  have named : Puts setDelegate {} [("name", .string name)] _ :=
    .member (f := fun x => { name := x }) (holds_text .empty hn) (fun _ => rfl) (by decide)
  have returned : Puts setDelegate { name } [("ret", .string ret)] _ :=
    .member (f := fun x => { name, ret := x }) (holds_text .empty hr) (fun _ => rfl) (by decide)
  have given : Puts setDelegate { name, ret } (listMember "params" (params.map paramJson)) _ :=
    .list (by decide) (f := fun x => { name, ret, params := x }) (holds_params hp) (by simp) (fun _ => rfl) rfl
  exact holds_record (named.cons (returned.cons given))

theorem holds_class {c : ClassDecl} (h : AreValid c.texts) : Holds (readRecord setClass {}) c.toWire.json c.toWire := by
  obtain ⟨name, fields, ctors, methods⟩ := c
  simp only [ClassDecl.texts, areValid_cons, areValid_append, areValid_flatMap] at h
  obtain ⟨hn, hf, hc, hm⟩ := h
  have named : Puts setClass {} [("name", .string name)] _ :=
    .member (f := fun x => { name := x }) (holds_text .empty hn) (fun _ => rfl) (by decide)
  have fielded : Puts setClass { name } (listMember "fields" ((fields.map FieldDecl.toWire).map Field.json)) _ :=
    .list (by decide) (f := fun x => { name, fields := x })
      (holds_list (forall₂_map_of fun f hx => holds_field (hf f hx))) (by simp) (fun _ => rfl) rfl
  have made : Puts setClass { name, fields := .ofList (fields.map FieldDecl.toWire) }
      (listMember "ctors" ((ctors.map CtorDecl.toWire).map Method.json)) _ :=
    .list (by decide) (f := fun x => { name, fields := .ofList (fields.map FieldDecl.toWire), ctors := x })
      (holds_list (forall₂_map_of fun c hx => holds_ctor (hc c hx))) (by simp) (fun _ => rfl) rfl
  have called : Puts setClass
      { name, fields := .ofList (fields.map FieldDecl.toWire), ctors := .ofList (ctors.map CtorDecl.toWire) }
      (listMember "methods" ((methods.map MethodDecl.toWire).map Method.json)) _ :=
    .list (by decide) (f := fun x => { name, fields := .ofList (fields.map FieldDecl.toWire),
                                       ctors := .ofList (ctors.map CtorDecl.toWire), methods := x })
      (holds_list (forall₂_map_of fun m hx => holds_method (hm m hx))) (by simp) (fun _ => rfl) rfl
  exact holds_record (named.cons ((fielded.append made).append called))

theorem holds_program {p : CilCompiler.Program} (h : AreValid p.texts) : Holds ofJson? p.toWire.json p.toWire := by
  obtain ⟨classes, delegates⟩ := p
  simp only [Program.texts, areValid_append, areValid_flatMap] at h
  obtain ⟨hc, hd⟩ := h
  have versioned : Puts setProgram {} [("schema", Json.ofInt Wire.schema)] _ :=
    .member (f := fun x => { schema := x }) (holds_nat16 0 (by decide)) (fun _ => rfl) (by decide)
  have classed : Puts setProgram { schema := Wire.schema }
      (listMember "classes" ((classes.map ClassDecl.toWire).map Class.json)) _ :=
    .list (by decide) (f := fun x => { schema := Wire.schema, classes := x })
      (holds_list (forall₂_map_of fun c hx => holds_class (hc c hx))) (by simp) (fun _ => rfl) rfl
  have delegated : Puts setProgram { schema := Wire.schema, classes := .ofList (classes.map ClassDecl.toWire) }
      (listMember "delegates" ((delegates.map DelegateDecl.toWire).map Delegate.json)) _ :=
    .list (by decide)
      (f := fun x => { schema := Wire.schema, classes := .ofList (classes.map ClassDecl.toWire), delegates := x })
      (holds_list (forall₂_map_of fun d hx => holds_delegate (hd d hx))) (by simp) (fun _ => rfl) rfl
  exact holds_record (versioned.cons (classed.append delegated))

end Wire

/-! ### Programs -/

/-- The JSON text of a program is read as the program, whatever text follows it. -/
theorem Program.ofJsonText_toJsonText {p : Program} (valid : ∀ t ∈ p.texts, t.isValid = true) (whole : p.isWhole = true)
    (depth : p.toWire.json.depth ≤ Json.Reader.nestingLimit) (rest : Text) :
    Program.ofJsonText (p.toJsonText ++ rest) = .ok p := by
  obtain ⟨plain, read⟩ := Wire.holds_program valid
  obtain ⟨cs, hfirst⟩ := Json.readFirst?_pretty plain depth rest
  have hfirst : Json.readFirst? (p.toJsonText ++ rest).chars = some (p.toWire.json, cs) := hfirst
  simp only [ofJsonText, hfirst, ofJson, read]
  exact p.ofWire_of_isWhole whole

/-- A program with a literal of characters that are escaped, the least number and a call on the enclosing type. -/
def writtenProgram : Program where
  delegates := [{ name := "Op", ret := "", params := [{ name := "n", type := "int" }] }]
  classes := [{
    name := "Größe"
    fields := [{ name := "a", type := "int[]", isStatic := true, init := .missing }]
    ctors := [{ params := [], body := [.baseCall] }]
    methods := [
      { name := "m", isStatic := true, ret := "int", params := [{ name := "n", type := "int" }]
        body := [
          .while (.binary .le (.ident "n") (.int (-2147483648))) [
            .if (.unary .not (.bool false)) [.local "s" "string" .missing] [.return .missing],
            .expr (.call .missing "m" [.index (.newArray "int" .missing) (.ident "n")])],
          .assign (.member .this "a") (.string "\x01\t\"<\\>&\u2028😀")] }] }]

theorem Program.ofJsonText_toJsonText_written :
    (∀ t ∈ writtenProgram.texts, t.isValid = true) ∧ writtenProgram.isWhole = true ∧
    writtenProgram.toWire.json.depth ≤ Json.Reader.nestingLimit ∧
    Program.ofJsonText (writtenProgram.toJsonText ++ "]null") = .ok writtenProgram := by
  have valid : ∀ t ∈ writtenProgram.texts, t.isValid = true := by decide
  have whole : writtenProgram.isWhole = true := by decide
  have depth : writtenProgram.toWire.json.depth ≤ Json.Reader.nestingLimit := by decide
  exact ⟨valid, whole, depth, Program.ofJsonText_toJsonText valid whole depth _⟩

end CilCompiler
