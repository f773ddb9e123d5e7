import CilCompiler.Proofs.Tree.Interchange
import CilCompiler.Proofs.Tree.MsgpackForm

/-!
Programs survive being stored. Reading the interchange form of a tree gives the tree (`ofWire_toWire`), the bytes of the
form are read as the form, and so reading what was written of a program gives the program, whatever bytes follow it
(`Program.ofMsgpack_toMsgpack`). Texts and lists must fit, and an argument of a call must not be left out.
-/

namespace CilCompiler

open Wire (limit Carries Fills Node)

/-! ### What can be stored -/

def Text.fits (t : Text) : Bool := t.size < limit

mutual

/-- Whether the texts and lists of an expression fit and its calls have all their arguments. -/
def Expr.fits : Expr → Bool
  | .missing | .int _ | .bool _ | .null | .this => true
  | .string s => s.fits
  | .ident n => n.fits
  | .member t n => t.fits && n.fits
  | .index a i => a.fits && i.fits
  | .binary _ l r => l.fits && r.fits
  | .unary _ x => x.fits
  | .call t n args => t.fits && n.fits && args.length < limit && Expr.argsFit args
  | .new t args => t.fits && args.length < limit && Expr.argsFit args
  | .newArray e s => e.fits && s.fits
  | .methodRef t n d => t.fits && n.fits && d.fits

def Expr.argsFit : List Expr → Bool
  | [] => true
  | e :: es => !e.isMissing && e.fits && Expr.argsFit es

end

mutual

def Stmt.fits : Stmt → Bool
  | .return v | .expr v => v.fits
  | .local n t v => n.fits && t.fits && v.fits
  | .assign t v => t.fits && v.fits
  | .baseCall => true
  | .while c b => c.fits && b.length < limit && Stmt.allFit b
  | .if c y n => c.fits && y.length < limit && Stmt.allFit y && n.length < limit && Stmt.allFit n

def Stmt.allFit : List Stmt → Bool
  | [] => true
  | s :: ss => s.fits && Stmt.allFit ss

end

def Param.fits (p : Param) : Bool := p.name.fits && p.type.fits

def FieldDecl.fits (f : FieldDecl) : Bool := f.name.fits && f.type.fits && f.init.fits

/-- Whether parameters and a body fit. -/
def codeFits (params : List Param) (body : List Stmt) : Bool :=
  params.length < limit && params.all Param.fits && body.length < limit && Stmt.allFit body

def CtorDecl.fits (c : CtorDecl) : Bool := codeFits c.params c.body

def MethodDecl.fits (m : MethodDecl) : Bool := m.name.fits && m.ret.fits && codeFits m.params m.body

def ClassDecl.fits (c : ClassDecl) : Bool :=
  c.name.fits && c.fields.length < limit && c.fields.all FieldDecl.fits && c.ctors.length < limit &&
    c.ctors.all CtorDecl.fits &&
    c.methods.length < limit && c.methods.all MethodDecl.fits

def DelegateDecl.fits (d : DelegateDecl) : Bool :=
  d.name.fits && d.ret.fits && d.params.length < limit && d.params.all Param.fits

/-- Whether a program can be stored: its texts and lists have fewer than 2³² bytes and items, and no argument is left
    out. -/
def Program.fits (p : Program) : Bool :=
  p.classes.length < limit && p.classes.all ClassDecl.fits && p.delegates.length < limit &&
    p.delegates.all DelegateDecl.fits

/-! ### What fits is whole -/

mutual

theorem Expr.isWhole_of_fits : (e : Expr) → e.fits = true → e.isWhole = true
  | .missing, _ | .int _, _ | .string _, _ | .bool _, _ | .null, _ | .this, _ | .ident _, _ => by simp [isWhole]
  | .member t _, h | .methodRef t _ _, h => by
    simp only [fits, Bool.and_eq_true, and_assoc] at h
    simp [isWhole, t.isWhole_of_fits h.1]
  | .index a i, h => by
    simp only [fits, Bool.and_eq_true] at h
    simp [isWhole, a.isWhole_of_fits h.1, i.isWhole_of_fits h.2]
  | .binary _ l r, h => by
    simp only [fits, Bool.and_eq_true] at h
    simp [isWhole, l.isWhole_of_fits h.1, r.isWhole_of_fits h.2]
  | .unary _ x, h => by
    simp only [fits] at h
    simp [isWhole, x.isWhole_of_fits h]
  | .call t _ args, h => by
    simp only [fits, Bool.and_eq_true] at h
    simp [isWhole, t.isWhole_of_fits h.1.1.1, argsWhole_of_fits args h.2]
  | .new _ args, h => by
    simp only [fits, Bool.and_eq_true] at h
    simp [isWhole, argsWhole_of_fits args h.2]
  | .newArray _ s, h => by
    simp only [fits, Bool.and_eq_true] at h
    simp [isWhole, s.isWhole_of_fits h.2]

theorem Expr.argsWhole_of_fits : (es : List Expr) → Expr.argsFit es = true → Expr.argsWhole es = true
  | [], _ => by simp [argsWhole]
  | e :: es, h => by
    simp only [argsFit, Bool.and_eq_true] at h
    simp [argsWhole, h.1.1, e.isWhole_of_fits h.1.2, argsWhole_of_fits es h.2]

end

mutual

theorem Stmt.isWhole_of_fits : (s : Stmt) → s.fits = true → s.isWhole = true
  | .return v, h | .expr v, h => by
    simp only [fits] at h
    simp [isWhole, v.isWhole_of_fits h]
  | .local _ _ v, h => by
    simp only [fits, Bool.and_eq_true] at h
    simp [isWhole, v.isWhole_of_fits h.2]
  | .assign t v, h => by
    simp only [fits, Bool.and_eq_true] at h
    simp [isWhole, t.isWhole_of_fits h.1, v.isWhole_of_fits h.2]
  | .baseCall, _ => by simp [isWhole]
  | .while c b, h => by
    simp only [fits, Bool.and_eq_true] at h
    simp [isWhole, c.isWhole_of_fits h.1.1, allWhole_of_fits b h.2]
  | .if c y n, h => by
    simp only [fits, Bool.and_eq_true] at h
    simp [isWhole, c.isWhole_of_fits h.1.1.1.1, allWhole_of_fits y h.1.1.2, allWhole_of_fits n h.2]

theorem Stmt.allWhole_of_fits : (ss : List Stmt) → Stmt.allFit ss = true → Stmt.allWhole ss = true
  | [], _ => by simp [allWhole]
  | s :: ss, h => by
    simp only [allFit, Bool.and_eq_true] at h
    simp [allWhole, s.isWhole_of_fits h.1, allWhole_of_fits ss h.2]

end

theorem all_of_all {α : Type} {p q : α → Bool} {xs : List α} (h : xs.all p = true) (hpq : ∀ x, p x = true → q x = true) :
    xs.all q = true :=
  List.all_eq_true.mpr fun x hx => hpq x (List.all_eq_true.mp h x hx)

theorem ClassDecl.isWhole_of_fits (c : ClassDecl) (h : c.fits = true) : c.isWhole = true := by
  simp only [fits, Bool.and_eq_true] at h
  obtain ⟨⟨⟨⟨⟨⟨-, -⟩, hf⟩, -⟩, hc⟩, -⟩, hm⟩ := h
  simp only [isWhole, Bool.and_eq_true]
  refine ⟨⟨all_of_all hf fun f hf => ?_, all_of_all hc fun c hc => ?_⟩, all_of_all hm fun m hm => ?_⟩
  · simp only [FieldDecl.fits, Bool.and_eq_true] at hf
    exact f.init.isWhole_of_fits hf.2
  · simp only [CtorDecl.fits, codeFits, Bool.and_eq_true] at hc
    exact Stmt.allWhole_of_fits c.body hc.2
  · simp only [MethodDecl.fits, codeFits, Bool.and_eq_true] at hm
    exact Stmt.allWhole_of_fits m.body hm.2.2

theorem Program.ofWire_toWire (p : Program) (h : p.fits = true) : ofWire p.toWire = .ok p := by
  simp only [fits, Bool.and_eq_true] at h
  exact p.ofWire_of_isWhole (all_of_all h.1.1.2 ClassDecl.isWhole_of_fits)

/-! ### Nodes that fit -/

theorem Expr.length_listToWire (es : List Expr) : (listToWire es).length = es.length := by
  induction es with
  | nil => rfl
  | cons e es ih => simp [listToWire, ih]

theorem Stmt.length_listToWire (ss : List Stmt) : (listToWire ss).length = ss.length := by
  induction ss with
  | nil => rfl
  | cons s ss ih => simp [listToWire, ih]

theorem BinaryOp.size_spelling (op : BinaryOp) : op.spelling.size < limit := by
  cases op <;> decide

theorem UnaryOp.size_spelling (op : UnaryOp) : op.spelling.size < limit := by
  cases op <;> decide

mutual

theorem Expr.fits_toWire : (e : Expr) → e.fits = true → e.toWire.Fits
  | .missing, _ => by simp [toWire, Node.Fits]
  | .int _, _ | .bool _, _ | .null, _ | .this, _ => by simp +decide [toWire, Node.Fits, Wire.Keys.Fits, Node.AllFit]
  | .string _, h | .ident _, h => by
    simp only [fits, Text.fits, decide_eq_true_eq] at h
    simp +decide [toWire, Node.Fits, Wire.Keys.Fits, Node.AllFit, h]
  | .member t _, h => by
    simp only [fits, Bool.and_eq_true, Text.fits, decide_eq_true_eq] at h
    simp +decide [toWire, Node.Fits, Wire.Keys.Fits, Node.AllFit, t.fits_toWire h.1, h.2]
  | .index a i, h => by
    simp only [fits, Bool.and_eq_true] at h
    simp +decide [toWire, Node.Fits, Wire.Keys.Fits, Node.AllFit, a.fits_toWire h.1, i.fits_toWire h.2]
  | .binary op l r, h => by
    simp only [fits, Bool.and_eq_true] at h
    simp +decide [toWire, Node.Fits, Wire.Keys.Fits, Node.AllFit, op.size_spelling, l.fits_toWire h.1, r.fits_toWire h.2]
  | .unary op x, h => by
    simp only [fits] at h
    simp +decide [toWire, Node.Fits, Wire.Keys.Fits, Node.AllFit, op.size_spelling, x.fits_toWire h]
  | .call t _ args, h => by
    simp only [fits, Bool.and_eq_true, Text.fits, decide_eq_true_eq] at h
    simp +decide [toWire, Node.Fits, Wire.Keys.Fits, Node.AllFit, Slots.ofList, length_listToWire,
        t.fits_toWire h.1.1.1, h.1.1.2,
      h.1.2, allFit_listToWire args h.2]
  | .new _ args, h => by
    simp only [fits, Bool.and_eq_true, Text.fits, decide_eq_true_eq] at h
    simp +decide [toWire, Node.Fits, Wire.Keys.Fits, Node.AllFit, Slots.ofList, length_listToWire, h.1.1, h.1.2,
      allFit_listToWire args h.2]
  | .newArray _ s, h => by
    simp only [fits, Bool.and_eq_true, Text.fits, decide_eq_true_eq] at h
    simp +decide [toWire, Node.Fits, Wire.Keys.Fits, Node.AllFit, h.1, s.fits_toWire h.2]
  | .methodRef t _ _, h => by
    simp only [fits, Bool.and_eq_true, Text.fits, decide_eq_true_eq] at h
    simp +decide [toWire, Node.Fits, Wire.Keys.Fits, Node.AllFit, t.fits_toWire h.1.1, h.1.2, h.2]

theorem Expr.allFit_listToWire : (es : List Expr) → Expr.argsFit es = true → Node.AllFit (Expr.listToWire es)
  | [], _ => by simp [listToWire, Node.AllFit]
  | e :: es, h => by
    simp only [argsFit, Bool.and_eq_true] at h
    simp [listToWire, Node.AllFit, e.fits_toWire h.1.2, allFit_listToWire es h.2]

end

mutual

theorem Stmt.fits_toWire : (s : Stmt) → s.fits = true → s.toWire.Fits
  | .return v, h | .expr v, h => by
    simp only [fits] at h
    simp +decide [toWire, Node.Fits, Wire.Keys.Fits, Node.AllFit, v.fits_toWire h]
  | .local _ _ v, h => by
    simp only [fits, Bool.and_eq_true, Text.fits, decide_eq_true_eq] at h
    simp +decide [toWire, Node.Fits, Wire.Keys.Fits, Node.AllFit, h.1.1, h.1.2, v.fits_toWire h.2]
  | .assign t v, h => by
    simp only [fits, Bool.and_eq_true] at h
    simp +decide [toWire, Node.Fits, Wire.Keys.Fits, Node.AllFit, t.fits_toWire h.1, v.fits_toWire h.2]
  | .baseCall, _ => by simp +decide [toWire, Node.Fits, Wire.Keys.Fits, Node.AllFit]
  | .while c b, h => by
    simp only [fits, Bool.and_eq_true, decide_eq_true_eq] at h
    simp +decide [toWire, Node.Fits, Wire.Keys.Fits, Node.AllFit, Slots.ofList, length_listToWire,
        c.fits_toWire h.1.1, h.1.2,
      allFit_listToWire b h.2]
  | .if c y n, h => by
    simp only [fits, Bool.and_eq_true, decide_eq_true_eq] at h
    obtain ⟨⟨⟨⟨hc, hyn⟩, hy⟩, hnn⟩, hn⟩ := h
    simp +decide [toWire, Node.Fits, Wire.Keys.Fits, Node.AllFit, Slots.ofList, length_listToWire,
        c.fits_toWire hc, hyn, hnn,
      allFit_listToWire y hy, allFit_listToWire n hn]

theorem Stmt.allFit_listToWire : (ss : List Stmt) → Stmt.allFit ss = true → Node.AllFit (Stmt.listToWire ss)
  | [], _ => by simp [listToWire, Node.AllFit]
  | s :: ss, h => by
    simp only [allFit, Bool.and_eq_true] at h
    simp [listToWire, Node.AllFit, s.fits_toWire h.1, allFit_listToWire ss h.2]

end

/-! ### Records -/

theorem Text.size_lt {t : Text} (h : t.fits = true) : t.size < limit := of_decide_eq_true h

theorem forall₂_map {α β : Type} {R : List UInt8 → β → Prop} {pack : β → List UInt8} {f : α → β}
    {p : α → Bool} {xs : List α}
    (hx : ∀ x, p x = true → R (pack (f x)) (f x)) (h : xs.all p = true) :
    List.Forall₂ R ((xs.map f).map pack) (xs.map f) := by
  induction xs with
  | nil => exact .nil
  | cons x xs ih =>
    simp only [List.all_cons, Bool.and_eq_true] at h
    exact .cons (hx x h.1) (ih h.2)

namespace Wire

theorem carries_param {p : Param} (h : p.fits = true) :
    Carries (unpackRecord { name := .empty, type := .empty } ["name", "type"] putParam { name := .empty, type := .empty })
      (packParam p) p := by
  simp only [Param.fits, Bool.and_eq_true] at h
  have named : Fills putParam 1 { name := .empty, type := .empty } [("name", Msgpack.writeStr p.name)] _ :=
    .entry (f := fun x => { name := x, type := .empty }) (carries_text (Text.size_lt h.1)) (fun _ => rfl) (by decide)
  have typed : Fills putParam 1 { name := p.name, type := .empty } [("type", Msgpack.writeStr p.type)] _ :=
    .entry (f := fun x => { name := p.name, type := x }) (carries_text (Text.size_lt h.2)) (fun _ => rfl) (by decide)
  exact carries_record (named.append typed) (by decide)

theorem carries_params {ps : List Param} (hn : ps.length < limit) (h : ps.all Param.fits = true) :
    Carries (unpackParams {}) (packList (ps.map packParam)) (.ofList ps) := by
  have := forall₂_map (f := id) (fun _ => carries_param) h
  rw [List.map_id] at this
  exact carries_list this hn

theorem carries_body {body : List Stmt} (hn : body.length < limit) (h : Stmt.allFit body = true) :
    Carries (unpackNodes {}) (packList (packNodes (Stmt.listToWire body))) (.ofList (Stmt.listToWire body)) :=
  carries_nodeList (carries_nodes _ (Stmt.allFit_listToWire body h)) (by rwa [Stmt.length_listToWire])

theorem carries_field {d : FieldDecl} (h : d.fits = true) :
    Carries (unpackRecord {} ["name", "type", "static", "init"] putField {}) d.toWire.pack d.toWire := by
  obtain ⟨name, type, isStatic, init⟩ := d
  simp only [FieldDecl.fits, Bool.and_eq_true] at h
  obtain ⟨⟨hn, ht⟩, hi⟩ := h
  have named : Fills putField 1 {} [("name", Msgpack.writeStr name)] _ :=
    .entry (f := fun x => { name := x }) (carries_text (Text.size_lt hn)) (fun _ => rfl) (by decide)
  have typed : Fills putField 1 { name } [("type", Msgpack.writeStr type)] _ :=
    .entry (f := fun x => { name, type := x }) (carries_text (Text.size_lt ht)) (fun _ => rfl) (by decide)
  have marked : Fills putField 1 { name, type } (boolEntry "static" isStatic) _ :=
    .bool (by decide) (f := fun x => { name, type, isStatic := x }) (fun _ => rfl) rfl
  have started : Fills putField 1 { name, type, isStatic } (childEntry "init" init.toWire) _ :=
    .child (by decide) (f := fun x => { name, type, isStatic, init := x }) (carries_node _ (init.fits_toWire hi))
      (fun _ => rfl) rfl
  exact carries_record (named.cons (typed.cons (marked.append started))) (by decide)

theorem carries_method {name ret : Text} {isStatic : Bool} {params : List Param} {body : List Stmt} (hn : name.fits = true)
    (hr : ret.fits = true) (h : codeFits params body = true) :
    Carries (unpackRecord {} ["name", "static", "ret", "params", "body"] putMethod {})
      (MethodDecl.toWire { name, isStatic, ret, params, body }).pack
        (MethodDecl.toWire { name, isStatic, ret, params, body }) := by
  simp only [codeFits, Bool.and_eq_true, decide_eq_true_eq] at h
  obtain ⟨⟨⟨hpn, hp⟩, hbn⟩, hb⟩ := h
  have named : Fills putMethod 1 {} (textEntry "name" name) _ :=
    .text (by decide) (f := fun x => { name := x }) (Text.size_lt hn) (fun _ => rfl) rfl
  have marked : Fills putMethod 1 { name } (boolEntry "static" isStatic) _ :=
    .bool (by decide) (f := fun x => { name, isStatic := x }) (fun _ => rfl) rfl
  have returned : Fills putMethod 1 { name, isStatic } (textEntry "ret" ret) _ :=
    .text (by decide) (f := fun x => { name, isStatic, ret := x }) (Text.size_lt hr) (fun _ => rfl) rfl
  have given : Fills putMethod 1 { name, isStatic, ret } (listEntry "params" (params.map packParam)) _ :=
    .list (by decide) (f := fun x => { name, isStatic, ret, params := x }) (carries_params hpn hp) (by simp)
      (fun _ => rfl) rfl
  have bodied : Fills putMethod 1 { name, isStatic, ret, params := .ofList params }
      (listEntry "body" (packNodes (Stmt.listToWire body))) _ :=
    .list (by decide) (f := fun x => { name, isStatic, ret, params := .ofList params, body := x }) (carries_body hbn hb)
      (carries_nodes _ (Stmt.allFit_listToWire body hb)).length_eq (fun _ => rfl) rfl
  exact carries_record ((((named.append marked).append returned).append given).append bodied) (by decide)

/-- Constructors are stored as methods without a name. -/
theorem carries_ctor {c : CtorDecl} (h : c.fits = true) :
    Carries (unpackRecord {} ["name", "static", "ret", "params", "body"] putMethod {}) c.toWire.pack c.toWire :=
  carries_method (by decide) (by decide) h

theorem carries_delegate {d : DelegateDecl} (h : d.fits = true) :
    Carries (unpackRecord {} ["name", "ret", "params"] putDelegate {}) d.toWire.pack d.toWire := by
  obtain ⟨name, ret, params⟩ := d
  simp only [DelegateDecl.fits, Bool.and_eq_true, decide_eq_true_eq] at h
  obtain ⟨⟨⟨hn, hr⟩, hpn⟩, hp⟩ := h
  have named : Fills putDelegate 1 {} [("name", Msgpack.writeStr name)] _ :=
    .entry (f := fun x => { name := x }) (carries_text (Text.size_lt hn)) (fun _ => rfl) (by decide)
  have returned : Fills putDelegate 1 { name } [("ret", Msgpack.writeStr ret)] _ :=
    .entry (f := fun x => { name, ret := x }) (carries_text (Text.size_lt hr)) (fun _ => rfl) (by decide)
  have given : Fills putDelegate 1 { name, ret } (listEntry "params" (params.map packParam)) _ :=
    .list (by decide) (f := fun x => { name, ret, params := x }) (carries_params hpn hp) (by simp) (fun _ => rfl) rfl
  exact carries_record (named.cons (returned.cons given)) (by decide)

theorem carries_class {c : ClassDecl} (h : c.fits = true) :
    Carries (unpackRecord {} ["name", "fields", "ctors", "methods"] putClass {}) c.toWire.pack c.toWire := by
  obtain ⟨name, fields, ctors, methods⟩ := c
  simp only [ClassDecl.fits, Bool.and_eq_true, decide_eq_true_eq] at h
  obtain ⟨⟨⟨⟨⟨⟨hn, hfn⟩, hf⟩, hcn⟩, hc⟩, hmn⟩, hm⟩ := h
  have named : Fills putClass 1 {} [("name", Msgpack.writeStr name)] _ :=
    .entry (f := fun x => { name := x }) (carries_text (Text.size_lt hn)) (fun _ => rfl) (by decide)
  have fielded : Fills putClass 1 { name } (listEntry "fields" ((fields.map FieldDecl.toWire).map Field.pack)) _ :=
    .list (by decide) (f := fun x => { name, fields := x })
      (carries_list (forall₂_map (fun _ => carries_field) hf) (by simpa using hfn)) (by simp) (fun _ => rfl) rfl
  have made : Fills putClass 1 { name, fields := .ofList (fields.map FieldDecl.toWire) }
      (listEntry "ctors" ((ctors.map CtorDecl.toWire).map Method.pack)) _ :=
    .list (by decide) (f := fun x => { name, fields := .ofList (fields.map FieldDecl.toWire), ctors := x })
      (carries_list (forall₂_map (fun _ => carries_ctor) hc) (by simpa using hcn)) (by simp) (fun _ => rfl) rfl
  have called : Fills putClass 1
      { name, fields := .ofList (fields.map FieldDecl.toWire), ctors := .ofList (ctors.map CtorDecl.toWire) }
      (listEntry "methods" ((methods.map MethodDecl.toWire).map Method.pack)) _ :=
    .list (by decide) (f := fun x => { name, fields := .ofList (fields.map FieldDecl.toWire),
                                       ctors := .ofList (ctors.map CtorDecl.toWire), methods := x })
      (carries_list (forall₂_map (fun m hm => by
        simp only [MethodDecl.fits, Bool.and_eq_true] at hm
        exact carries_method hm.1.1 hm.1.2 hm.2) hm) (by simpa using hmn)) (by simp) (fun _ => rfl) rfl
  exact carries_record (named.cons ((fielded.append made).append called)) (by decide)

theorem carries_program {p : CilCompiler.Program} (h : p.fits = true) : Carries ofMsgpack? p.toWire.pack p.toWire := by
  obtain ⟨classes, delegates⟩ := p
  simp only [Program.fits, Bool.and_eq_true, decide_eq_true_eq] at h
  obtain ⟨⟨⟨hcn, hc⟩, hdn⟩, hd⟩ := h
  have versioned : Fills putProgram 1 {} [("schema", Msgpack.writeNat16 Wire.schema)] _ :=
    .entry (f := fun x => { schema := x }) (carries_nat16 (by decide)) (fun _ => rfl) (by decide)
  have classed : Fills putProgram 1 { schema := Wire.schema }
      (listEntry "classes" ((classes.map ClassDecl.toWire).map Class.pack)) _ :=
    .list (by decide) (f := fun x => { schema := Wire.schema, classes := x })
      (carries_list (forall₂_map (fun _ => carries_class) hc) (by simpa using hcn)) (by simp) (fun _ => rfl) rfl
  have delegated : Fills putProgram 1 { schema := Wire.schema, classes := .ofList (classes.map ClassDecl.toWire) }
      (listEntry "delegates" ((delegates.map DelegateDecl.toWire).map Delegate.pack)) _ :=
    .list (by decide)
      (f := fun x => { schema := Wire.schema, classes := .ofList (classes.map ClassDecl.toWire), delegates := x })
      (carries_list (forall₂_map (fun _ => carries_delegate) hd) (by simpa using hdn)) (by simp) (fun _ => rfl) rfl
  exact carries_record (versioned.cons (classed.append delegated)) (by decide)

end Wire

/-! ### Programs -/

/-- What is written of a program is read as the program, whatever follows it. -/
theorem Program.ofMsgpack_toMsgpack {p : Program} (h : p.fits = true) (rest : List UInt8) :
    Program.ofMsgpack (p.toMsgpack ++ rest) = .ok p := by
  obtain ⟨v, hv, hw⟩ := Wire.carries_program h
  have decoded : Msgpack.decode? (p.toMsgpack ++ rest) = some (v, rest) := hv.decode? rest
  simp only [ofMsgpack, decoded, hw]
  exact p.ofWire_toWire h

/-- A program with a field that has no first value, a call on the enclosing type and an array of no stated size. -/
def storedProgram : Program where
  delegates := [{ name := "Op", ret := "", params := [{ name := "n", type := "int" }] }]
  classes := [{
    name := "C"
    fields := [{ name := "a", type := "int[]", isStatic := true, init := .missing }]
    ctors := [{ params := [], body := [.baseCall] }]
    methods := [
      { name := "m", isStatic := true, ret := "int", params := [{ name := "n", type := "int" }]
        body := [
          .while (.binary .le (.ident "n") (.int (-7))) [
            .if (.unary .not (.bool false)) [.local "s" "string" .missing] [.return .missing],
            .expr (.call .missing "m" [.index (.newArray "int" .missing) (.ident "n")])],
          .assign (.member .this "a") .null] }] }]

theorem Program.ofMsgpack_toMsgpack_stored : storedProgram.fits = true ∧
    Program.ofMsgpack (storedProgram.toMsgpack ++ [0xC1, 0x00]) = .ok storedProgram := by
  have fits : storedProgram.fits = true := by decide
  exact ⟨fits, Program.ofMsgpack_toMsgpack fits _⟩

end CilCompiler
