import CilCompiler.Tree.Wire

/-!
The interchange form of a program is read as the program (`Program.ofWire_of_isWhole`), as long as no argument of a call
is left out: what is left out anywhere else is written as a missing node and read as missing.
-/

namespace CilCompiler

mutual

/-- Whether the calls in an expression have all their arguments. -/
def Expr.isWhole : Expr → Bool
  | .missing | .int _ | .string _ | .bool _ | .null | .this | .ident _ => true
  | .member t _ | .methodRef t _ _ => t.isWhole
  | .index a i => a.isWhole && i.isWhole
  | .binary _ l r => l.isWhole && r.isWhole
  | .unary _ x => x.isWhole
  | .call t _ args => t.isWhole && Expr.argsWhole args
  | .new _ args => Expr.argsWhole args
  | .newArray _ s => s.isWhole

def Expr.argsWhole : List Expr → Bool
  | [] => true
  | e :: es => !e.isMissing && e.isWhole && Expr.argsWhole es

end

mutual

def Stmt.isWhole : Stmt → Bool
  | .return v | .expr v | .local _ _ v => v.isWhole
  | .assign t v => t.isWhole && v.isWhole
  | .baseCall => true
  | .while c b => c.isWhole && Stmt.allWhole b
  | .if c y n => c.isWhole && Stmt.allWhole y && Stmt.allWhole n

def Stmt.allWhole : List Stmt → Bool
  | [] => true
  | s :: ss => s.isWhole && Stmt.allWhole ss

end

def ClassDecl.isWhole (c : ClassDecl) : Bool :=
  c.fields.all (fun f => f.init.isWhole) && c.ctors.all (fun x => Stmt.allWhole x.body) &&
    c.methods.all fun m => Stmt.allWhole m.body

/-- Whether no call in a program leaves out an argument. -/
def Program.isWhole (p : Program) : Bool := p.classes.all ClassDecl.isWhole

/-! ### Expressions and statements -/

theorem ok_bind {ε α β : Type} (a : α) (f : α → Except ε β) : (Except.ok a >>= f) = f a := rfl

theorem pure_eq_ok {ε α : Type} (a : α) : (pure a : Except ε α) = .ok a := rfl

theorem BinaryOp.ofSpelling?_spelling (op : BinaryOp) : ofSpelling? op.spelling = some op := by
  cases op <;> decide

theorem UnaryOp.ofSpelling?_spelling (op : UnaryOp) : ofSpelling? op.spelling = some op := by
  cases op <;> decide

mutual

theorem Expr.ofWire_of_isWhole : (e : Expr) → e.isWhole = true → Expr.ofWire e.toWire = .ok e
  | .missing, _ => by simp [toWire, ofWire]
  | .int _, _ | .string _, _ | .bool _, _ | .null, _ | .this, _ | .ident _, _ => by simp +decide [toWire, ofWire]
  | .member t _, h | .methodRef t _ _, h => by
    simp only [isWhole] at h
    simp +decide [toWire, ofWire, t.ofWire_of_isWhole h, ok_bind, pure_eq_ok]
  | .index a i, h => by
    simp only [isWhole, Bool.and_eq_true] at h
    simp +decide [toWire, ofWire, a.ofWire_of_isWhole h.1, i.ofWire_of_isWhole h.2, ok_bind, pure_eq_ok]
  | .binary op l r, h => by
    simp only [isWhole, Bool.and_eq_true] at h
    simp +decide [toWire, ofWire, op.ofSpelling?_spelling, l.ofWire_of_isWhole h.1, r.ofWire_of_isWhole h.2,
        ok_bind, pure_eq_ok]
  | .unary op x, h => by
    simp only [isWhole] at h
    simp +decide [toWire, ofWire, op.ofSpelling?_spelling, x.ofWire_of_isWhole h, ok_bind, pure_eq_ok]
  | .call t _ args, h => by
    simp only [isWhole, Bool.and_eq_true] at h
    simp +decide [toWire, ofWire, Slots.ofList, t.ofWire_of_isWhole h.1, listOfWire_of_isWhole args h.2,
        ok_bind, pure_eq_ok]
  | .new _ args, h => by
    simp only [isWhole] at h
    simp +decide [toWire, ofWire, Slots.ofList, listOfWire_of_isWhole args h, ok_bind, pure_eq_ok]
  | .newArray _ s, h => by
    simp only [isWhole] at h
    simp +decide [toWire, ofWire, s.ofWire_of_isWhole h, ok_bind, pure_eq_ok]

theorem Expr.listOfWire_of_isWhole : (es : List Expr) → Expr.argsWhole es = true →
    Expr.listOfWire (Expr.listToWire es) = .ok es
  | [], _ => by simp [listToWire, listOfWire]
  | e :: es, h => by
    simp only [argsWhole, Bool.and_eq_true, Bool.not_eq_true'] at h
    obtain ⟨⟨hm, he⟩, hes⟩ := h
    simp [listToWire, listOfWire, e.ofWire_of_isWhole he, hm, listOfWire_of_isWhole es hes, ok_bind, pure_eq_ok]

end

mutual

theorem Stmt.ofWire_of_isWhole : (s : Stmt) → s.isWhole = true → Stmt.ofWire s.toWire = .ok s
  | .return v, h | .expr v, h | .local _ _ v, h => by
    simp only [isWhole] at h
    simp +decide [toWire, ofWire, v.ofWire_of_isWhole h, ok_bind, pure_eq_ok]
  | .assign t v, h => by
    simp only [isWhole, Bool.and_eq_true] at h
    simp +decide [toWire, ofWire, t.ofWire_of_isWhole h.1, v.ofWire_of_isWhole h.2, ok_bind, pure_eq_ok]
  | .baseCall, _ => by simp +decide [toWire, ofWire]
  | .while c b, h => by
    simp only [isWhole, Bool.and_eq_true] at h
    simp +decide [toWire, ofWire, Slots.ofList, c.ofWire_of_isWhole h.1, listOfWire_of_isWhole b h.2, ok_bind, pure_eq_ok]
  | .if c y n, h => by
    simp only [isWhole, Bool.and_eq_true] at h
    simp +decide [toWire, ofWire, Slots.ofList, c.ofWire_of_isWhole h.1.1, listOfWire_of_isWhole y h.1.2,
      listOfWire_of_isWhole n h.2, ok_bind, pure_eq_ok]

theorem Stmt.listOfWire_of_isWhole : (ss : List Stmt) → Stmt.allWhole ss = true →
    Stmt.listOfWire (Stmt.listToWire ss) = .ok ss
  | [], _ => by simp [listToWire, listOfWire]
  | s :: ss, h => by
    simp only [allWhole, Bool.and_eq_true] at h
    simp [listToWire, listOfWire, s.ofWire_of_isWhole h.1, listOfWire_of_isWhole ss h.2, ok_bind, pure_eq_ok]

end

/-! ### Declarations -/

theorem mapM_map_ok {ε α β : Type} {f : α → β} {g : β → Except ε α} {p : α → Bool} {xs : List α}
    (hx : ∀ x, p x = true → g (f x) = .ok x) (h : xs.all p = true) : (xs.map f).mapM g = .ok xs := by
  induction xs with
  | nil => rfl
  | cons x xs ih =>
    simp only [List.all_cons, Bool.and_eq_true] at h
    simp [List.mapM_cons, hx x h.1, ih h.2, ok_bind, pure_eq_ok]

theorem Wire.naming_ok {α : Type} (context : List Text) (a : α) : Wire.naming context (.ok a) = .ok a := rfl

theorem FieldDecl.ofWire_of_isWhole (owner : Text) (f : FieldDecl) (h : f.init.isWhole = true) :
    ofWire owner f.toWire = .ok f := by
  simp [ofWire, toWire, f.init.ofWire_of_isWhole h, Wire.naming_ok, ok_bind, pure_eq_ok]

theorem CtorDecl.ofWire_of_isWhole (owner : Text) (c : CtorDecl) (h : Stmt.allWhole c.body = true) :
    ofWire owner c.toWire = .ok c := by
  simp [ofWire, toWire, Stmt.listOfWire_of_isWhole c.body h, Wire.naming_ok, ok_bind, pure_eq_ok]

theorem MethodDecl.ofWire_of_isWhole (owner : Text) (m : MethodDecl) (h : Stmt.allWhole m.body = true) :
    ofWire owner m.toWire = .ok m := by
  simp [ofWire, toWire, Stmt.listOfWire_of_isWhole m.body h, Wire.naming_ok, ok_bind, pure_eq_ok]

theorem ClassDecl.ofWire_of_isWhole (c : ClassDecl) (h : c.isWhole = true) : ofWire c.toWire = .ok c := by
  simp only [isWhole, Bool.and_eq_true] at h
  obtain ⟨⟨hf, hc⟩, hm⟩ := h
  simp [ofWire, toWire, mapM_map_ok (FieldDecl.ofWire_of_isWhole _) hf, mapM_map_ok (CtorDecl.ofWire_of_isWhole _) hc,
    mapM_map_ok (MethodDecl.ofWire_of_isWhole _) hm, ok_bind, pure_eq_ok]

/-- The interchange form of a program is read as the program. -/
theorem Program.ofWire_of_isWhole (p : Program) (h : p.isWhole = true) : ofWire p.toWire = .ok p := by
  have delegates : (p.delegates.map DelegateDecl.toWire).map DelegateDecl.ofWire = p.delegates := by
    rw [List.map_map]
    exact List.map_id _
  simp [ofWire, toWire, mapM_map_ok ClassDecl.ofWire_of_isWhole h, delegates, ok_bind, pure_eq_ok]

end CilCompiler
