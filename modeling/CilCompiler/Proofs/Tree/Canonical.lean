import Mathlib.Logic.Basic
import CilCompiler.Proofs.Outcome
import CilCompiler.Proofs.Tree.Interchange

/-!
The canonical form of a stored program. A table says which keys the nodes of a kind use, and the canonical form clears
all others, at every node and in every declaration. What stands in a cleared key plays no role when a form is read
(`Program.ofWire_canonical`), and writing what was read gives the canonical form (`Program.toWire_of_ofWire`).
-/

namespace CilCompiler

namespace Wire

/-! ### The form -/

/-- The keys that the nodes of a kind use. -/
structure Uses where
  name : Bool := false
  type : Bool := false
  int : Bool := false
  str : Bool := false
  bool : Bool := false
  op : Bool := false
  target : Bool := false
  left : Bool := false
  right : Bool := false
  args : Bool := false
  body : Bool := false
  alternative : Bool := false
deriving DecidableEq

/-- The kinds of nodes with the keys they use. -/
def kinds : List (Text × Uses) :=
  [("int", { int := true }),
   ("string", { str := true }),
   ("bool", { bool := true }),
   ("null", {}),
   ("this", {}),
   ("ident", { name := true }),
   ("member", { name := true, target := true }),
   ("index", { left := true, right := true }),
   ("binary", { op := true, left := true, right := true }),
   ("unary", { op := true, left := true }),
   ("call", { name := true, target := true, args := true }),
   ("new", { type := true, args := true }),
   ("newarr", { type := true, left := true }),
   ("methodref", { name := true, type := true, target := true }),
   ("return", { left := true }),
   ("local", { name := true, type := true, left := true }),
   ("assign", { left := true, right := true }),
   ("expr", { left := true }),
   ("basector", {}),
   ("while", { left := true, body := true }),
   ("if", { left := true, body := true, alternative := true })]

/-- The keys that the nodes of a kind use; those of an unknown kind use none. -/
def usesOf (kind : Text) : Uses := (kinds.lookup kind).getD {}

/-- The plain keys in use; the others are cleared. -/
def Keys.only (k : Keys) (u : Uses) : Keys where
  name := if u.name then k.name else .empty
  type := if u.type then k.type else .empty
  int := if u.int then k.int else 0
  str := if u.str then k.str else .empty
  bool := if u.bool then k.bool else false
  op := if u.op then k.op else .empty

mutual

/-- A node with the keys that its kind does not use cleared, and so are those of the nodes it keeps. -/
def Node.canonical : Node → Node
  | .absent => .absent
  | .node kind keys target left right ⟨args, _⟩ ⟨body, _⟩ ⟨alternative, _⟩ =>
    let u := usesOf kind
    .node kind (keys.only u) (if u.target then target.canonical else .absent)
      (if u.left then left.canonical else .absent) (if u.right then right.canonical else .absent)
      (.ofList (if u.args then Node.canonicalList args else []))
      (.ofList (if u.body then Node.canonicalList body else []))
      (.ofList (if u.alternative then Node.canonicalList alternative else []))

def Node.canonicalList : List Node → List Node
  | [] => []
  | n :: ns => n.canonical :: Node.canonicalList ns

end

def Field.canonical (f : Field) : Field := { f with init := f.init.canonical }

def Method.canonical (m : Method) : Method :=
  { m with params := .ofList m.params.shown, body := .ofList (Node.canonicalList m.body.shown) }

/-- A constructor has no name, static mark or return type. -/
def Method.canonicalCtor (m : Method) : Method :=
  { params := .ofList m.params.shown, body := .ofList (Node.canonicalList m.body.shown) }

def Class.canonical (c : Class) : Class where
  name := c.name
  fields := .ofList (c.fields.shown.map Field.canonical)
  ctors := .ofList (c.ctors.shown.map Method.canonicalCtor)
  methods := .ofList (c.methods.shown.map Method.canonical)

def Delegate.canonical (d : Delegate) : Delegate := { d with params := .ofList d.params.shown }

/-- The form of a program with every key cleared that plays no role. -/
def Program.canonical (w : Program) : Program where
  schema := w.schema
  classes := .ofList (w.classes.shown.map Class.canonical)
  delegates := .ofList (w.delegates.shown.map Delegate.canonical)

end Wire

open Wire (Node usesOf)

/-! ### What is cleared plays no role -/

mutual

theorem Expr.ofWire_canonical : (n : Node) → Expr.ofWire n.canonical = Expr.ofWire n
  | .absent => by simp [Node.canonical]
  | .node kind keys target left right ⟨args, _⟩ ⟨_, _⟩ ⟨_, _⟩ => by
    have ht := Expr.ofWire_canonical target
    have hl := Expr.ofWire_canonical left
    have hr := Expr.ofWire_canonical right
    have ha := Expr.listOfWire_canonical args
    simp only [Node.canonical, Slots.ofList, Expr.ofWire]
    -- Both sides choose by the kind: in each branch the kind, and with it the keys in use, is known.
    repeat' apply ite_congr rfl <;> intro h
    all_goals simp +decide [h, Wire.Keys.only, ht, hl, hr, ha]

theorem Expr.listOfWire_canonical : (ns : List Node) → Expr.listOfWire (Node.canonicalList ns) = Expr.listOfWire ns
  | [] => by simp [Node.canonicalList]
  | n :: ns => by simp only [Node.canonicalList, listOfWire, Expr.ofWire_canonical n, Expr.listOfWire_canonical ns]

end

mutual

theorem Stmt.ofWire_canonical : (n : Node) → Stmt.ofWire n.canonical = Stmt.ofWire n
  | .absent => by simp [Node.canonical]
  | .node kind keys _ left right ⟨_, _⟩ ⟨body, _⟩ ⟨alternative, _⟩ => by
    have hl := Expr.ofWire_canonical left
    have hr := Expr.ofWire_canonical right
    have hb := Stmt.listOfWire_canonical body
    have ha := Stmt.listOfWire_canonical alternative
    simp only [Node.canonical, Slots.ofList, Stmt.ofWire]
    repeat' apply ite_congr rfl <;> intro h
    all_goals simp +decide [h, Wire.Keys.only, hl, hr, hb, ha]

theorem Stmt.listOfWire_canonical : (ns : List Node) → Stmt.listOfWire (Node.canonicalList ns) = Stmt.listOfWire ns
  | [] => by simp [Node.canonicalList]
  | n :: ns => by simp only [Node.canonicalList, listOfWire, Stmt.ofWire_canonical n, Stmt.listOfWire_canonical ns]

end

theorem FieldDecl.ofWire_canonical (owner : Text) (f : Wire.Field) : ofWire owner f.canonical = ofWire owner f := by
  simp [ofWire, Wire.Field.canonical, Expr.ofWire_canonical]

theorem CtorDecl.ofWire_canonical (owner : Text) (m : Wire.Method) : ofWire owner m.canonicalCtor = ofWire owner m := by
  simp [ofWire, Wire.Method.canonicalCtor, Stmt.listOfWire_canonical]

theorem MethodDecl.ofWire_canonical (owner : Text) (m : Wire.Method) : ofWire owner m.canonical = ofWire owner m := by
  simp [ofWire, Wire.Method.canonical, Stmt.listOfWire_canonical]

theorem mapM_map_congr {ε α β : Type} {f : α → α} {g : α → Except ε β} (h : ∀ x, g (f x) = g x) (xs : List α) :
    (xs.map f).mapM g = xs.mapM g := by
  induction xs with
  | nil => rfl
  | cons x xs ih => simp only [List.map_cons, List.mapM_cons, h x, ih]

theorem ClassDecl.ofWire_canonical (c : Wire.Class) : ofWire c.canonical = ofWire c := by
  simp only [ofWire, Wire.Class.canonical, Slots.shown_ofList, mapM_map_congr (FieldDecl.ofWire_canonical _),
    mapM_map_congr (CtorDecl.ofWire_canonical _), mapM_map_congr (MethodDecl.ofWire_canonical _)]

/-- A form is read, or refused, as its canonical form is. -/
theorem Program.ofWire_canonical (w : Wire.Program) : ofWire w.canonical = ofWire w := by
  have delegates : (w.delegates.shown.map Wire.Delegate.canonical).map DelegateDecl.ofWire =
      w.delegates.shown.map DelegateDecl.ofWire := by
    rw [List.map_map]
    rfl
  simp only [ofWire, Wire.Program.canonical, Slots.shown_ofList, mapM_map_congr ClassDecl.ofWire_canonical, delegates]

/-! ### What is written of what was read -/

theorem BinaryOp.spelling_of_ofSpelling? {s : Text} {op : BinaryOp} (h : ofSpelling? s = some op) : op.spelling = s := by
  simpa using List.find?_some h

theorem UnaryOp.spelling_of_ofSpelling? {s : Text} {op : UnaryOp} (h : ofSpelling? s = some op) : op.spelling = s := by
  unfold ofSpelling? at h
  split at h
  next hs => cases h; exact hs.symm
  next =>
    split at h
    next hs => cases h; exact hs.symm
    next => cases h

mutual

theorem Expr.toWire_of_ofWire : (n : Node) → {e : Expr} → Expr.ofWire n = .ok e → e.toWire = n.canonical
  | .absent, e, h => by
    simp only [ofWire, Except.ok.injEq] at h
    subst h
    simp [toWire, Node.canonical]
  | .node kind keys target left right ⟨args, _⟩ ⟨_, _⟩ ⟨_, _⟩, e, h => by
    simp only [ofWire] at h
    -- The first six kinds have no nodes below them.
    iterate 6
      rcases ite_eq_iff.mp h with ⟨rfl, h⟩ | ⟨-, h⟩
      · cases h
        simp +decide [toWire, Node.canonical, Wire.Keys.only, Slots.ofList]
    rcases ite_eq_iff.mp h with ⟨rfl, h⟩ | ⟨-, h⟩
    · obtain ⟨t, ht, h⟩ := bind_eq_ok.mp h
      cases h
      simp +decide [toWire, Node.canonical, Wire.Keys.only, Slots.ofList, toWire_of_ofWire target ht]
    rcases ite_eq_iff.mp h with ⟨rfl, h⟩ | ⟨-, h⟩
    · obtain ⟨a, ha, h⟩ := bind_eq_ok.mp h
      obtain ⟨i, hi, h⟩ := bind_eq_ok.mp h
      cases h
      simp +decide [toWire, Node.canonical, Wire.Keys.only, Slots.ofList, toWire_of_ofWire left ha,
          toWire_of_ofWire right hi]
    rcases ite_eq_iff.mp h with ⟨rfl, h⟩ | ⟨-, h⟩
    · cases hop : BinaryOp.ofSpelling? keys.op with
      | none => rw [hop] at h; cases h
      | some op =>
        rw [hop] at h
        obtain ⟨l, hl, h⟩ := bind_eq_ok.mp h
        obtain ⟨r, hr, h⟩ := bind_eq_ok.mp h
        cases h
        simp +decide [toWire, Node.canonical, Wire.Keys.only, Slots.ofList, BinaryOp.spelling_of_ofSpelling? hop,
          toWire_of_ofWire left hl, toWire_of_ofWire right hr]
    rcases ite_eq_iff.mp h with ⟨rfl, h⟩ | ⟨-, h⟩
    · cases hop : UnaryOp.ofSpelling? keys.op with
      | none => rw [hop] at h; cases h
      | some op =>
        rw [hop] at h
        obtain ⟨x, hx, h⟩ := bind_eq_ok.mp h
        cases h
        simp +decide [toWire, Node.canonical, Wire.Keys.only, Slots.ofList, UnaryOp.spelling_of_ofSpelling? hop,
          toWire_of_ofWire left hx]
    rcases ite_eq_iff.mp h with ⟨rfl, h⟩ | ⟨-, h⟩
    · obtain ⟨t, ht, h⟩ := bind_eq_ok.mp h
      obtain ⟨es, hes, h⟩ := bind_eq_ok.mp h
      cases h
      simp +decide [toWire, Node.canonical, Wire.Keys.only, Slots.ofList, toWire_of_ofWire target ht,
        listToWire_of_listOfWire args hes]
    rcases ite_eq_iff.mp h with ⟨rfl, h⟩ | ⟨-, h⟩
    · obtain ⟨es, hes, h⟩ := bind_eq_ok.mp h
      cases h
      simp +decide [toWire, Node.canonical, Wire.Keys.only, Slots.ofList, listToWire_of_listOfWire args hes]
    rcases ite_eq_iff.mp h with ⟨rfl, h⟩ | ⟨-, h⟩
    · obtain ⟨x, hx, h⟩ := bind_eq_ok.mp h
      cases h
      simp +decide [toWire, Node.canonical, Wire.Keys.only, Slots.ofList, toWire_of_ofWire left hx]
    rcases ite_eq_iff.mp h with ⟨rfl, h⟩ | ⟨-, h⟩
    · obtain ⟨t, ht, h⟩ := bind_eq_ok.mp h
      cases h
      simp +decide [toWire, Node.canonical, Wire.Keys.only, Slots.ofList, toWire_of_ofWire target ht]
    cases h

theorem Expr.listToWire_of_listOfWire : (ns : List Node) → {es : List Expr} → Expr.listOfWire ns = .ok es →
    Expr.listToWire es = Node.canonicalList ns
  | [], es, h => by
    simp only [listOfWire, Except.ok.injEq] at h
    subst h
    simp [listToWire, Node.canonicalList]
  | n :: ns, es, h => by
    simp only [listOfWire, bind_eq_ok] at h
    obtain ⟨e, he, h⟩ := h
    split at h
    · cases h
    · obtain ⟨es', hes, h⟩ := bind_eq_ok.mp h
      cases h
      simp [listToWire, Node.canonicalList, Expr.toWire_of_ofWire n he, Expr.listToWire_of_listOfWire ns hes]

end

mutual

theorem Stmt.toWire_of_ofWire : (n : Node) → {s : Stmt} → Stmt.ofWire n = .ok s → s.toWire = n.canonical
  | .absent, s, h => by simp [ofWire] at h
  | .node kind keys _ left right ⟨_, _⟩ ⟨body, _⟩ ⟨alternative, _⟩, s, h => by
    simp only [ofWire] at h
    rcases ite_eq_iff.mp h with ⟨rfl, h⟩ | ⟨-, h⟩
    · obtain ⟨v, hv, h⟩ := bind_eq_ok.mp h
      cases h
      simp +decide [toWire, Node.canonical, Wire.Keys.only, Slots.ofList, Expr.toWire_of_ofWire left hv]
    rcases ite_eq_iff.mp h with ⟨rfl, h⟩ | ⟨-, h⟩
    · obtain ⟨v, hv, h⟩ := bind_eq_ok.mp h
      cases h
      simp +decide [toWire, Node.canonical, Wire.Keys.only, Slots.ofList, Expr.toWire_of_ofWire left hv]
    rcases ite_eq_iff.mp h with ⟨rfl, h⟩ | ⟨-, h⟩
    · obtain ⟨t, ht, h⟩ := bind_eq_ok.mp h
      obtain ⟨v, hv, h⟩ := bind_eq_ok.mp h
      cases h
      simp +decide [toWire, Node.canonical, Wire.Keys.only, Slots.ofList, Expr.toWire_of_ofWire left ht,
        Expr.toWire_of_ofWire right hv]
    rcases ite_eq_iff.mp h with ⟨rfl, h⟩ | ⟨-, h⟩
    · obtain ⟨v, hv, h⟩ := bind_eq_ok.mp h
      cases h
      simp +decide [toWire, Node.canonical, Wire.Keys.only, Slots.ofList, Expr.toWire_of_ofWire left hv]
    rcases ite_eq_iff.mp h with ⟨rfl, h⟩ | ⟨-, h⟩
    · cases h
      simp +decide [toWire, Node.canonical, Wire.Keys.only, Slots.ofList]
    rcases ite_eq_iff.mp h with ⟨rfl, h⟩ | ⟨-, h⟩
    · obtain ⟨c, hc, h⟩ := bind_eq_ok.mp h
      obtain ⟨b, hb, h⟩ := bind_eq_ok.mp h
      cases h
      simp +decide [toWire, Node.canonical, Wire.Keys.only, Slots.ofList, Expr.toWire_of_ofWire left hc,
        listToWire_of_listOfWire body hb]
    rcases ite_eq_iff.mp h with ⟨rfl, h⟩ | ⟨-, h⟩
    · obtain ⟨c, hc, h⟩ := bind_eq_ok.mp h
      obtain ⟨y, hy, h⟩ := bind_eq_ok.mp h
      obtain ⟨n, hn, h⟩ := bind_eq_ok.mp h
      cases h
      simp +decide [toWire, Node.canonical, Wire.Keys.only, Slots.ofList, Expr.toWire_of_ofWire left hc,
        listToWire_of_listOfWire body hy, listToWire_of_listOfWire alternative hn]
    cases h

theorem Stmt.listToWire_of_listOfWire : (ns : List Node) → {ss : List Stmt} → Stmt.listOfWire ns = .ok ss →
    Stmt.listToWire ss = Node.canonicalList ns
  | [], ss, h => by
    simp only [listOfWire, Except.ok.injEq] at h
    subst h
    simp [listToWire, Node.canonicalList]
  | n :: ns, ss, h => by
    simp only [listOfWire] at h
    obtain ⟨s, hs, h⟩ := bind_eq_ok.mp h
    obtain ⟨ss', hss, h⟩ := bind_eq_ok.mp h
    cases h
    simp [listToWire, Node.canonicalList, toWire_of_ofWire n hs, listToWire_of_listOfWire ns hss]

end

theorem Wire.naming_eq_ok {α : Type} {context : List Text} {r : Except Fault α} {a : α}
    (h : Wire.naming context r = .ok a) : r = .ok a := by
  cases r with
  | error f => cases h
  | ok b => exact h

theorem FieldDecl.toWire_of_ofWire {owner : Text} {w : Wire.Field} {f : FieldDecl} (h : ofWire owner w = .ok f) :
    f.toWire = w.canonical := by
  obtain ⟨init, hinit, h⟩ := bind_eq_ok.mp h
  cases h
  simp only [toWire, Wire.Field.canonical, Expr.toWire_of_ofWire w.init (Wire.naming_eq_ok hinit)]

theorem CtorDecl.toWire_of_ofWire {owner : Text} {w : Wire.Method} {c : CtorDecl} (h : ofWire owner w = .ok c) :
    c.toWire = w.canonicalCtor := by
  obtain ⟨body, hbody, h⟩ := bind_eq_ok.mp h
  cases h
  simp only [toWire, Wire.Method.canonicalCtor, Stmt.listToWire_of_listOfWire _ (Wire.naming_eq_ok hbody)]

theorem MethodDecl.toWire_of_ofWire {owner : Text} {w : Wire.Method} {m : MethodDecl} (h : ofWire owner w = .ok m) :
    m.toWire = w.canonical := by
  obtain ⟨body, hbody, h⟩ := bind_eq_ok.mp h
  cases h
  simp only [toWire, Wire.Method.canonical, Stmt.listToWire_of_listOfWire _ (Wire.naming_eq_ok hbody)]

theorem map_of_mapM {ε α β γ : Type} {f : α → Except ε β} {g : β → γ} {k : α → γ} (hf : ∀ {x y}, f x = .ok y → g y = k x)
    {xs : List α} {ys : List β} (h : xs.mapM f = .ok ys) : ys.map g = xs.map k := by
  induction xs generalizing ys with
  | nil =>
    cases h
    rfl
  | cons x xs ih =>
    rw [List.mapM_cons] at h
    obtain ⟨y, hy, h⟩ := bind_eq_ok.mp h
    obtain ⟨ys', hys, h⟩ := bind_eq_ok.mp h
    cases h
    simp only [List.map_cons, hf hy, ih hys]

theorem ClassDecl.toWire_of_ofWire {w : Wire.Class} {c : ClassDecl} (h : ofWire w = .ok c) : c.toWire = w.canonical := by
  obtain ⟨fields, hfields, h⟩ := bind_eq_ok.mp h
  obtain ⟨ctors, hctors, h⟩ := bind_eq_ok.mp h
  obtain ⟨methods, hmethods, h⟩ := bind_eq_ok.mp h
  cases h
  simp only [toWire, Wire.Class.canonical, map_of_mapM FieldDecl.toWire_of_ofWire hfields,
    map_of_mapM CtorDecl.toWire_of_ofWire hctors, map_of_mapM MethodDecl.toWire_of_ofWire hmethods]

theorem Program.toWire_of_ofWire {w : Wire.Program} {p : Program} (h : ofWire w = .ok p) : p.toWire = w.canonical := by
  unfold ofWire at h
  by_cases hs : w.schema = Wire.schema
  · simp only [if_pos hs] at h
    obtain ⟨classes, hclasses, h⟩ := bind_eq_ok.mp h
    cases h
    have delegates : (w.delegates.shown.map DelegateDecl.ofWire).map DelegateDecl.toWire =
        w.delegates.shown.map Wire.Delegate.canonical := by
      rw [List.map_map]
      rfl
    simp only [toWire, Wire.Program.canonical, hs, map_of_mapM ClassDecl.toWire_of_ofWire hclasses, delegates]
  · simp only [if_neg hs] at h
    cases h

/-- Writing the program that was read from a form gives the canonical form, which is read as the same program; so does
    every form that differs in cleared keys only, and reading and writing once more changes nothing. -/
theorem Program.rewritten_form_canonical {w : Wire.Program} {p : Program} (h : ofWire w = .ok p) :
    p.toWire = w.canonical ∧ ofWire w.canonical = .ok p ∧ (ofWire p.toWire).map toWire = .ok p.toWire ∧
      ∀ w' : Wire.Program, w'.canonical = w.canonical → ofWire w' = .ok p := by
  have written := toWire_of_ofWire h
  have read : ofWire w.canonical = .ok p := (ofWire_canonical w).trans h
  refine ⟨written, read, ?_, fun w' hw => ?_⟩
  · rw [written, read]
    exact congrArg Except.ok written
  · rw [← ofWire_canonical w', hw, read]

/-- A form with a named constructor, a literal with an operator and an unreadable target, and a statement with
    arguments. -/
def Wire.crowdedForm : Wire.Program where
  schema := 1
  classes := .ofList [
    { name := "A"
      fields := .ofList [{
        name := "x", type := "int"
        init := .node "int" { int := 3, op := "?", name := "n" } (.node "none" {} .absent .absent .absent {} {} {}) .absent
          .absent {} {} {} }]
      ctors := .ofList [{
        name := "odd", isStatic := true
        body := .ofList [.node "basector" {} .absent .absent .absent (.ofList [.absent]) (.ofList [.absent]) {}] }] }]

theorem Program.rewritten_form_canonical_crowded :
    ∃ p, Program.ofWire Wire.crowdedForm = .ok p ∧ p.toWire = Wire.crowdedForm.canonical := by
  have h : Program.ofWire Wire.crowdedForm = .ok {
      classes := [{
        name := "A", fields := [{ name := "x", type := "int", isStatic := false, init := .int 3 }]
        ctors := [{ params := [], body := [.baseCall] }], methods := [] }] } := by
    rfl
  exact ⟨_, h, (Program.rewritten_form_canonical h).1⟩

end CilCompiler
