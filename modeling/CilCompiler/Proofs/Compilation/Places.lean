import CilCompiler.Proofs.Lowering.Overloads
import CilCompiler.Proofs.Lowering.Places
import CilCompiler.Proofs.Renaming.Supplied

/-! Assignments and reads in compiled programs. No value of a program has fields, so an assignment and a read lower
    what stands in front of a dot alike, and what can be assigned is read from the very place that it is written to
    (`places_read_back`). The length of an array is the exception, and only a class that is named like the array makes
    it one. -/

namespace CilCompiler

/-! ### Values have no fields -/

/-- The names of the catalog's value types and of their base. -/
def Ty.valueNames : List Text := [TypeName.object, TypeName.void, TypeName.int32, TypeName.boolean, TypeName.intPtr]

/-- A type, or the one at the bottom of an array, is a value's only if it is of the catalog. -/
def Ty.ValuesHosted : Ty → Prop
  | .array e => e.ValuesHosted
  | t => t.isValue = true → ∀ u ∈ t.chain, u.name ∈ valueNames

theorem Ty.valuesHosted_iff {t : Ty} (ht : t.isArray = false) :
    t.ValuesHosted ↔ (t.isValue = true → ∀ u ∈ t.chain, u.name ∈ valueNames) := by
  cases t with
  | array e => cases ht
  | root d => exact .rfl
  | derived d b => exact .rfl

theorem Ty.keeps_valuesHosted (ρ : Renaming) : ρ.Keeps Ty.ValuesHosted := by
  intro t
  induction t with
  | array e ih => exact ih
  | root d =>
    rw [valuesHosted_iff (ρ.isArray_ty _), valuesHosted_iff rfl]
    simp
  | derived d b _ =>
    rw [valuesHosted_iff (ρ.isArray_ty _), valuesHosted_iff rfl]
    simp

theorem hostModule_valuesHosted : ∀ e ∈ hostModule.types.toList,
    e.type.isArray = false ∧ (e.type.isValue = true → ∀ u ∈ e.type.chain, u.name ∈ Ty.valueNames) := by decide +kernel

theorem hostModule_fieldless : ∀ n ∈ Ty.valueNames, ∃ e ∈ hostModule.types.toList, e.type.name = n ∧ e.fields = #[] := by
  decide +kernel

namespace Compilation
variable {p : Program} {name runtime : Text} {c₀ c c' : Compilation}

theorem Laid.valuesHosted {sources : List Declaration} (h : c.Laid sources) {i : Nat} {e : TypeDef}
    (he : c.module.types[i]? = some e) : e.type.ValuesHosted := by
  rcases h.cases he with ⟨-, hhost⟩ | ⟨k, d, attrs, -, hd, rfl⟩
  · obtain ⟨harray, hvalue⟩ := hostModule_valuesHosted e hhost
    exact (Ty.valuesHosted_iff harray).mpr hvalue
  · obtain ⟨-, htyped, -⟩ := h.blank hd
    refine (Ty.valuesHosted_iff htyped.notArray).mpr fun hvalue => ?_
    rw [htyped.isValue] at hvalue
    cases hvalue

/-- Values have no fields, nor has their base. -/
def Fieldless (c : Compilation) : Prop := ∀ t : Ty, t.name ∈ Ty.valueNames → c.symbols.fieldsOf t = []

theorem fieldsOf_of_name {s : Symbols} {t u : Ty} (h : t.name = u.name) : s.fieldsOf t = s.fieldsOf u := by
  unfold Symbols.fieldsOf
  rw [h]

theorem Described.fieldless {P : Ty → Prop} (h : Described P p c₀ c) : c.Fieldless := by
  intro t ht
  obtain ⟨e, he, hname, hfields⟩ := hostModule_fieldless _ ht
  obtain ⟨i, -, hi⟩ := h.host_def he
  rw [fieldsOf_of_name hname.symm, (h.coherent.lists hi).fields, hfields]

theorem Alike.fieldless {ρ : Renaming} (h : c.Alike ρ c') (hc : c.Fieldless) : c'.Fieldless := by
  intro t ht
  rw [← fieldsOf_of_name (ρ.name_ty t), h.symbols.fields trivial, hc t ht]
  exact List.map_nil

/-- Whatever a program is compiled into, its values have no fields. -/
theorem prepared_fieldless {backend : Backend} (h : (prepared p (start (Module.new 0 backend name runtime))).Gives c) :
    c.Fieldless ∧ c.roles.object.name = TypeName.object := by
  have run : ∀ {c : Compilation}, (prepared p (start (Module.new 0 .dynamic name runtime))).Gives c →
      c.Fieldless ∧ c.roles.object.name = TypeName.object := by
    intro c h
    obtain ⟨c₀, -, laid, hdescribed⟩ := prepared_described h
    have hd := hdescribed laid.valuesHosted fun n _ => Symbols.names_of_array (fun h => h) _ n
    refine ⟨hd.fieldless, ?_⟩
    rw [hd.roles]
    decide +kernel
  cases backend with
  | dynamic => exact run h
  | textual =>
    obtain ⟨c₁, h₁, halike⟩ := (prepared_listed p name runtime).gives_right h
    obtain ⟨hfields, hobject⟩ := run h₁
    refine ⟨halike.fieldless hfields, ?_⟩
    rw [halike.roles]
    exact (Renaming.name_ty _ _).trans hobject

end Compilation

/-! ### Reading what is written -/

namespace Lower
variable {c : Scope} {w : Work}

/-- What can be encoded is recorded, in a listing if it finds its operands. -/
theorem emit_succeeds {e : Emission} {i : Instr} (he : e.encode c.site = .ok i) (hret : i.op ≠ .ret)
    (hd : c.site.backend = .textual → (i.effect c.site.method.ret).1 ≤ w.draft.depth) :
    ∃ w', emit e c w = .ok ((), w') ∧ w'.draft.code = w.draft.code.push i := by
  unfold emit Draft.emit Draft.record
  rw [he]
  cases hb : c.site.backend with
  | dynamic => exact ⟨_, rfl, rfl⟩
  | textual =>
    have hd := hd hb
    simp only [show ¬w.draft.depth < (i.effect c.site.method.ret).1 by omega, hret, false_and, if_false]
    exact ⟨_, rfl, rfl⟩

/-- An expression is read from the place that it resolves to as the target of an assignment: behind the work that the
    assignment does for its target, one instruction loads from it. If the store can be recorded, in whatever work, so
    can the load, and the two have the same operand. -/
structure ReadsBack (c : Scope) (e : Expr) (w : Work) (q : Place) (o : Option Ty) (w' : Work) : Prop where
  run : expr e none false c w = (do emit q.read; return { type := o } : Lower Pushed) c w'
  succeeds : ∀ {w₁ w₂ : Work}, store q c w₁ = .ok ((), w₂) → ∃ i j w₃,
    expr e none false c w = .ok ({ type := o }, w₃) ∧ w₃.draft.code = w'.draft.code.push i ∧
      w₂.draft.code = w₁.draft.code.push j ∧ i.expanded = q.read.long ∧ j.expanded = q.write.long ∧
      i.expanded.operand = j.expanded.operand

end Lower

namespace Setting
variable {Γ : Setting} {w w' : Work} {S : List Slot} {e : Expr} {q : Place} {o : Option Ty}

/-- A load finds what an assignment has put below the value. -/
theorem Placed.read_pops {s : List Slot} (h : Γ.Placed w q o s) (ret : Option Ty) :
    (q.read.long.effect ret).1 = s.length := by
  cases h <;> rfl

theorem readsBack (hΓ : Γ.Ok) (hn : ∀ n ∈ e.typeNames, Γ.Named n) (h : Γ.Sound w S)
    (hp : Lower.place e Γ.scope w = .ok ((q, o), w'))
    (hrun : Lower.expr e none false Γ.scope w = (do Lower.emit q.read; return { type := o } : Lower Pushed) Γ.scope w') :
    Lower.ReadsBack Γ.scope e w q o w' := by
  refine ⟨hrun, fun {w₁ w₂} hs => ?_⟩
  obtain ⟨-, -, s, hplaced, hsound⟩ := place_sound hΓ hn h hp
  rw [Place.store_eq] at hs
  obtain ⟨j, hj, hcode, -⟩ := Lower.emit_pushes hs
  obtain ⟨i, hi⟩ := Place.encode_read hj
  have hlong := Emission.encode_long hi
  have hret : i.op ≠ .ret := by
    intro hop
    have hsame : i.expanded.op = .ret := by
      obtain ⟨op, x⟩ := i
      obtain rfl : op = .ret := hop
      rfl
    rw [hlong] at hsame
    cases q <;> cases hsame
  have hdepth : Γ.scope.site.backend = .textual → (i.effect Γ.scope.site.method.ret).1 ≤ w'.draft.depth := by
    intro htext
    rw [← Instr.effect_expanded, hlong, hplaced.read_pops]
    have hcounted := hsound.counted htext
    rw [List.length_append] at hcounted
    omega
  obtain ⟨w₃, he, hcode'⟩ := Lower.emit_succeeds hi hret hdepth
  refine ⟨i, j, w₃, ?_, hcode', hcode, hlong, Emission.encode_long hj, ?_⟩
  · rw [hrun, Lower.bind_of_ok he]
    rfl
  · rw [hlong, Emission.encode_long hj, q.operand_read]

end Setting

namespace Compilation
variable {p : Program} {name runtime : Text} {c : Compilation} {d : DeclaredType} {x : Member} {w w' : Work} {S : List Slot}
  {e : Expr} {q : Place} {o : Option Ty}

/-- What is in front of the dot of an assignment is no value. -/
theorem Fieldless.operand (hc : c.Fieldless) (hobject : c.roles.object.name = TypeName.object)
    (hΓ : (settingOf Ty.ValuesHosted c x).Ok) (hw : (settingOf Ty.ValuesHosted c x).Sound w S) :
    Lower.Fieldless (c.scopeOf x) e w := by
  rintro target member v w₁ t f rfl hv ht hf
  by_contra hvalue
  rw [Bool.not_eq_false] at hvalue
  have named : ∀ n, (settingOf Ty.ValuesHosted c x).Named n := fun n => Symbols.names_of_array (fun h => h) _ n
  have hosted : t.ValuesHosted := (Setting.expr_pushes hΓ target (fun n _ => named n) (Setting.no_hint _) hw hv).admits ht
  have harray : t.isArray = false := by
    cases t with
    | array e => cases hvalue
    | root d => rfl
    | derived d b => rfl
  obtain ⟨u, hu, hmem⟩ := Symbols.fieldAlong_mem hf
  have hnamed : u.name ∈ Ty.valueNames := by
    have hchain := (Ty.valuesHosted_iff harray).mp hosted hvalue
    unfold Ty.lineage at hu
    split at hu
    · exact hchain u hu
    · rcases List.mem_append.mp hu with hu | hu
      · exact hchain u hu
      · rw [List.mem_singleton.mp hu]
        exact hobject ▸ List.mem_cons_self
  rw [(hw.reads.grown.trans (Lower.extends_stepwise.expr none false target hv)).fieldsOf] at hmem
  have hnone : c.symbols.fieldsOf u = [] := hc u hnamed
  rw [show (settingOf Ty.ValuesHosted c x).symbols = c.symbols from rfl, hnone] at hmem
  cases hmem

/-- All types that lowering meets have values of the catalog only. -/
theorem prepared_hosted {backend : Backend} (h : (prepared p (start (Module.new 0 backend name runtime))).Gives c) :
    Provided Ty.ValuesHosted c :=
  prepared_provided h Ty.keeps_valuesHosted (fun h => h)
    fun _ laid => ⟨laid.valuesHosted, fun n _ => Symbols.names_of_array (fun h => h) _ n⟩

/-- What can be assigned is read from the place that is assigned, in every body of every program and wherever lowering
    has come to. Only the length of an array is not, though it can be assigned where a class with a field `Length` has
    the array's name. -/
theorem places_read_back {backend : Backend} (h : (prepared p (start (Module.new 0 backend name runtime))).Gives c)
    (hx : (d, x) ∈ pairs c.types) (hw : (settingOf Ty.ValuesHosted c x).Sound w S)
    (hp : Lower.place e (c.scopeOf x) w = .ok ((q, o), w')) :
    (¬Lower.AsksLength (c.scopeOf x) e w → Lower.ReadsBack (c.scopeOf x) e w q o w') ∧
      (Lower.AsksLength (c.scopeOf x) e w →
        Lower.expr e none false (c.scopeOf x) w =
          (do Lower.emit (.plain .ldlen); return { type := some c.roles.int32 } : Lower Pushed) (c.scopeOf x) w' ∧
        ∃ f, q = .field f ∧ f.name = "Length" ∧ f.isStatic = false) := by
  have hΓ := ((prepared_hosted h).supplied (d, x) hx).ok
  obtain ⟨hfields, hobject⟩ := prepared_fieldless h
  refine ⟨fun hlen => ?_, fun hlen => Lower.length_reads hlen hp⟩
  exact Setting.readsBack hΓ (fun n _ => Symbols.names_of_array (fun h => h) _ n) hw hp
    (Lower.place_reads (hfields.operand hobject hΓ hw) hlen hp)

/-- A program with a class of a given name, and a method that stores to the length of an array. -/
def lengthProgram (name : Text) : Program where
  delegates := []
  classes := [
    { name, fields := [{ name := "Length", type := "int", isStatic := false, init := .missing }], ctors := [],
      methods := [] },
    { name := "Row", fields := [], ctors := [], methods := [{
        name := "Clear", isStatic := true, ret := "void", params := [{ name := "cells", type := "int[]" }]
        body := [.assign (.member (.ident "cells") "Length") (.int 0)] }] }]

theorem places_read_back_cells :
    ∃ c d x q o w', (prepared (lengthProgram "Cell") (start (Module.new 0 .dynamic "m" "v4"))).Gives c ∧
    (d, x) ∈ pairs c.types ∧ Lower.ReadsBack (c.scopeOf x) (.index (.ident "cells") (.int 0))
    { symbols := c.symbols } q o w' := by
  obtain ⟨c, hc, hany⟩ :=
    Logged.gives_of_any (x := prepared (lengthProgram "Cell") (start (Module.new 0 .dynamic "m" "v4")))
    (j := default) (p := fun c => (pairs c.types).any fun y =>
      (Lower.place (.index (.ident "cells") (.int 0)) (c.scopeOf y.2) { symbols := c.symbols }).isOk) (by decide +kernel)
  obtain ⟨⟨d, x⟩, hx, hok⟩ := List.any_eq_true.mp hany
  cases hp : Lower.place (.index (.ident "cells") (.int 0)) (c.scopeOf x) { symbols := c.symbols } with
  | error f =>
    rw [hp] at hok
    cases hok
  | ok r =>
    obtain ⟨⟨q, o⟩, w'⟩ := r
    refine ⟨c, d, x, q, o, w', hc, hx, (places_read_back hc hx (start_sound (.refl _) (prepared_hosted hc).admits) hp).1 ?_⟩
    rintro ⟨target, v, w₁, he, -⟩
    cases he

/-- Whether an expression can be assigned, and is read as the length of an array. -/
def loadsLength (c : Scope) (e : Expr) (w : Work) : Bool :=
  match Lower.place e c w, Lower.expr e none false c w with
  | .ok ((q, _), _), .ok (_, w') => (Lower.store q c w).isOk && w'.draft.code.back? = some { op := .ldlen }
  | _, _ => false

theorem not_readsBack_of_loadsLength {c : Scope} (h : loadsLength c e w = true) :
    ∃ q o w', Lower.place e c w = .ok ((q, o), w') ∧ ¬Lower.ReadsBack c e w q o w' := by
  unfold loadsLength at h
  split at h
  · rename_i q o w' v w₁ hplace hexpr
    refine ⟨q, o, w', hplace, fun hreads => ?_⟩
    simp only [Bool.and_eq_true, decide_eq_true_eq] at h
    obtain ⟨hstore, hlast⟩ := h
    cases hs : Lower.store q c w with
    | error f =>
      rw [hs] at hstore
      cases hstore
    | ok r =>
      obtain ⟨i, j, w₃, he, hcode, -, hi, -, -⟩ := hreads.succeeds hs
      cases hexpr.symm.trans he
      rw [hcode, Array.back?_push] at hlast
      cases hlast
      cases q <;> cases hi
  · cases h

/-- A class may be called like an array and have a field `Length`. That field is what an assignment to the length of
    such an array stores to, and a read does not look at it. -/
theorem length_stored_elsewhere : ∃ c d x q o w',
    (prepared (lengthProgram "System.Int32[]") (start (Module.new 0 .dynamic "m" "v4"))).Gives c ∧ (d, x) ∈ pairs c.types ∧
      (settingOf Ty.ValuesHosted c x).Sound { symbols := c.symbols } [] ∧
      Lower.place (.member (.ident "cells") "Length") (c.scopeOf x) { symbols := c.symbols } = .ok ((q, o), w') ∧
      ¬Lower.ReadsBack (c.scopeOf x) (.member (.ident "cells") "Length") { symbols := c.symbols } q o w' := by
  obtain ⟨c, hc, hany⟩ := Logged.gives_of_any
    (x := prepared (lengthProgram "System.Int32[]") (start (Module.new 0 .dynamic "m" "v4"))) (j := default)
    (p := fun c => (pairs c.types).any fun y =>
      loadsLength (c.scopeOf y.2) (.member (.ident "cells") "Length") { symbols := c.symbols }) (by decide +kernel)
  obtain ⟨⟨d, x⟩, hx, hlength⟩ := List.any_eq_true.mp hany
  obtain ⟨q, o, w', hplace, hnot⟩ := not_readsBack_of_loadsLength hlength
  exact ⟨c, d, x, q, o, w', hc, hx, start_sound (.refl _) (prepared_hosted hc).admits, hplace, hnot⟩

end Compilation
end CilCompiler
