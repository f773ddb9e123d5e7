import CilCompiler.Lowering.Resolution
import CilCompiler.Module.Draft
import Mathlib.Logic.Function.Defs

/-!
Renamings of declared types. A type is known by its name, so moving its declaration to another place or to another
assembly changes nothing that a program can tell: whatever is asked of a renamed type, member or list of arguments
has the answer it had before.
-/

namespace CilCompiler

/-- Other declarations for declarations, each with the same module and name, and of a value type or not as before. -/
structure Renaming where
  declared : Declared → Declared
  module_declared : ∀ d, (declared d).module = d.module
  name_declared : ∀ d, (declared d).name = d.name
  isValue_declared : ∀ d, (declared d).isValue = d.isValue

namespace Renaming

variable (ρ : Renaming)

/-! ### Types -/

def ty : Ty → Ty
  | .root d => .root (ρ.declared d)
  | .derived d b => .derived (ρ.declared d) (ty b)
  | .array e => .array (ty e)

/-- Different declarations stay different. -/
def Distinct : Prop := Function.Injective ρ.declared

theorem Distinct.ty {ρ : Renaming} (hρ : ρ.Distinct) : Function.Injective ρ.ty := by
  intro t
  induction t with
  | root d =>
    rintro (e | ⟨e, b⟩ | e) h <;> simp only [Renaming.ty, Ty.root.injEq, reduceCtorEq] at h
    rw [hρ h]
  | derived d b ih =>
    rintro (e | ⟨e, b'⟩ | e) h <;> simp only [Renaming.ty, Ty.derived.injEq, reduceCtorEq] at h
    rw [hρ h.1, ih h.2]
  | array t ih =>
    rintro (e | ⟨e, b⟩ | e) h <;> simp only [Renaming.ty, Ty.array.injEq, reduceCtorEq] at h
    rw [ih h]

@[simp] theorem name_ty (t : Ty) : (ρ.ty t).name = t.name := by
  induction t with
  | root d => exact ρ.name_declared d
  | derived d b => exact ρ.name_declared d
  | array t ih => simp only [ty, Ty.name, ih]

@[simp] theorem declared_ty (t : Ty) : (ρ.ty t).declared = ρ.declared t.declared := by
  induction t with
  | root d => rfl
  | derived d b => rfl
  | array t ih => exact ih

@[simp] theorem module_ty (t : Ty) : (ρ.ty t).module = t.module := by
  rw [Ty.module, declared_ty, ρ.module_declared, Ty.module]

@[simp] theorem isValue_ty (t : Ty) : (ρ.ty t).isValue = t.isValue := by
  cases t with
  | root d => exact ρ.isValue_declared d
  | derived d b => exact ρ.isValue_declared d
  | array t => rfl

@[simp] theorem isArray_ty (t : Ty) : (ρ.ty t).isArray = t.isArray := by cases t <;> rfl

@[simp] theorem elem?_ty (t : Ty) : (ρ.ty t).elem? = t.elem?.map ρ.ty := by cases t <;> rfl

@[simp] theorem base?_ty (t : Ty) : (ρ.ty t).base? = t.base?.map ρ.ty := by cases t <;> rfl

@[simp] theorem isVoid_ty (t : Ty) : (ρ.ty t).isVoid = t.isVoid := by simp [Ty.isVoid]

@[simp] theorem isDelegate_ty (t : Ty) : (ρ.ty t).isDelegate = t.isDelegate := by
  rw [Ty.isDelegate, base?_ty, Ty.isDelegate]
  cases t.base? <;> simp

@[simp] theorem chain_ty (t : Ty) : (ρ.ty t).chain = t.chain.map ρ.ty := by
  induction t with
  | root d => rfl
  | derived d b ih => simp [ty, Ty.chain, ih]
  | array t => rfl

@[simp] theorem lineage_ty (object t : Ty) :
    Ty.lineage (ρ.ty object) (ρ.ty t) = (Ty.lineage object t).map ρ.ty := by
  simp only [Ty.lineage, chain_ty, List.any_map, Function.comp_def, name_ty]
  split <;> simp

/-- The lack of a type stays one. -/
def opt (t : Option Ty) : Option Ty := t.map ρ.ty

@[simp] theorem opt_none : ρ.opt none = none := rfl

@[simp] theorem opt_some (t : Ty) : ρ.opt (some t) = some (ρ.ty t) := rfl

theorem Distinct.opt {ρ : Renaming} (hρ : ρ.Distinct) : Function.Injective ρ.opt := Option.map_injective hρ.ty

@[simp] theorem map_name_opt (t : Option Ty) : (ρ.opt t).map Ty.name = t.map Ty.name := by cases t <;> simp

@[simp] theorem same_opt (a b : Option Ty) : Ty.same (ρ.opt a) (ρ.opt b) = Ty.same a b := by simp [Ty.same]

@[simp] theorem same_some (a : Option Ty) (t : Ty) : Ty.same (ρ.opt a) (some (ρ.ty t)) = Ty.same a (some t) :=
  ρ.same_opt a (some t)

@[simp] theorem isNone_opt (t : Option Ty) : (ρ.opt t).isNone = t.isNone := Option.isNone_map

@[simp] theorem sameList_map (as bs : List (Option Ty)) :
    Ty.sameList (as.map ρ.opt) (bs.map ρ.opt) = Ty.sameList as bs := by
  induction as generalizing bs with
  | nil => cases bs <;> rfl
  | cons a as ih =>
    cases bs with
    | nil => rfl
    | cons b bs => simp [Ty.sameList, ih]

@[simp] theorem accepts_opt (dst src : Option Ty) : Ty.accepts (ρ.opt dst) (ρ.opt src) = Ty.accepts dst src := by
  cases src with
  | none => cases dst <;> simp [Ty.accepts]
  | some s => exact ρ.same_opt dst (some s)

@[simp] theorem accepts_none (dst : Option Ty) : Ty.accepts (ρ.opt dst) none = Ty.accepts dst none :=
  ρ.accepts_opt dst none

@[simp] theorem isVoidOpt_opt (t : Option Ty) : Ty.isVoidOpt (ρ.opt t) = Ty.isVoidOpt t := by
  cases t <;> simp [Ty.isVoidOpt]

@[simp] theorem fits_map (ps as : List (Option Ty)) : Ty.fits (ps.map ρ.opt) (as.map ρ.opt) = Ty.fits ps as := by
  induction ps generalizing as with
  | nil => cases as <;> rfl
  | cons p ps ih =>
    cases as with
    | nil => rfl
    | cons a as => simp [Ty.fits, ih]

@[simp] theorem agreed_map (ts : List (Option Ty)) : Ty.agreed (ts.map ρ.opt) = ρ.opt (Ty.agreed ts) := by
  cases ts with
  | nil => rfl
  | cons t ts =>
    simp only [List.map_cons, Ty.agreed, List.all_map, Function.comp_def, same_opt]
    split <;> rfl

/-! ### Members -/

def field (f : Field) : Field := { f with owner := ρ.ty f.owner, type := ρ.opt f.type }

def method (m : Method) : Method :=
  { m with owner := ρ.ty m.owner, params := m.params.map ρ.opt, ret := ρ.opt m.ret }

theorem Distinct.method {ρ : Renaming} (hρ : ρ.Distinct) : Function.Injective ρ.method := by
  rintro ⟨⟩ ⟨⟩ h
  simp only [Renaming.method, Method.mk.injEq] at h ⊢
  obtain ⟨ho, hc, hi, hn, ha, hp, hr⟩ := h
  exact ⟨hρ.ty ho, hc, hi, hn, ha, (List.map_inj_right fun _ _ h => hρ.opt h).1 hp, hρ.opt hr⟩

theorem Distinct.method_inj {ρ : Renaming} (hρ : ρ.Distinct) {m m' : Method} : ρ.method m = ρ.method m' ↔ m = m' :=
  hρ.method.eq_iff

@[simp] theorem owner_field (f : Field) : (ρ.field f).owner = ρ.ty f.owner := rfl

@[simp] theorem type_field (f : Field) : (ρ.field f).type = ρ.opt f.type := rfl

@[simp] theorem name_field (f : Field) : (ρ.field f).name = f.name := rfl

@[simp] theorem isStatic_field (f : Field) : (ρ.field f).isStatic = f.isStatic := rfl

@[simp] theorem owner_method (m : Method) : (ρ.method m).owner = ρ.ty m.owner := rfl

@[simp] theorem params_method (m : Method) : (ρ.method m).params = m.params.map ρ.opt := rfl

@[simp] theorem ret_method (m : Method) : (ρ.method m).ret = ρ.opt m.ret := rfl

@[simp] theorem name_method (m : Method) : (ρ.method m).name = m.name := rfl

@[simp] theorem isCtor_method (m : Method) : (ρ.method m).isCtor = m.isCtor := rfl

@[simp] theorem index_method (m : Method) : (ρ.method m).index = m.index := rfl

@[simp] theorem isStatic_method (m : Method) : (ρ.method m).isStatic = m.isStatic := rfl

@[simp] theorem argCount_method (m : Method) : (ρ.method m).argCount = m.argCount := by simp [Method.argCount]

@[simp] theorem returnsVoid_method (m : Method) : (ρ.method m).returnsVoid = m.returnsVoid := by
  cases h : m.ret <;> simp [Method.returnsVoid, h]

@[simp] theorem hints_map (ms : List Method) (arity : Nat) :
    Ty.hints (ms.map ρ.method) arity = (Ty.hints ms arity).map ρ.opt := by
  have hrows : ((ms.map ρ.method).map Method.params).filter (fun ps => ps.length = arity) =
      ((ms.map Method.params).filter fun ps => ps.length = arity).map (List.map ρ.opt) := by
    rw [List.map_map, List.filter_map, List.filter_map, List.map_map]
    congr 1
    exact List.filter_congr fun m _ => by simp
  simp only [Ty.hints]
  rw [hrows, List.map_map]
  apply List.map_congr_left
  intro i _
  rw [Function.comp_apply, ← agreed_map, List.map_map, List.map_map]
  congr 1
  apply List.map_congr_left
  intro ps _
  simp only [Function.comp_apply, List.getElem?_map]
  cases ps[i]? <;> rfl

/-- The signature of a delegate type. -/
def delegate (d : Delegate) : Delegate :=
  { type := ρ.ty d.type, ret := ρ.opt d.ret, params := d.params.map ρ.opt, ctor := ρ.method d.ctor }

/-! ### Bodies -/

def operand : Operand → Operand
  | .type t => .type (ρ.ty t)
  | .field f => .field (ρ.field f)
  | .method m => .method (ρ.method m)
  | .ctor c => .ctor (ρ.method c)
  | x => x

def instr (i : Instr) : Instr := { i with operand := ρ.operand i.operand }

def draft (d : Draft) : Draft := { d with code := d.code.map ρ.instr, locals := d.locals.map ρ.ty }

/-! ### Nothing renamed -/

/-- The renaming that leaves everything as it is. -/
def refl : Renaming where
  declared d := d
  module_declared _ := rfl
  name_declared _ := rfl
  isValue_declared _ := rfl

@[simp] theorem ty_refl (t : Ty) : refl.ty t = t := by
  induction t with
  | root d => rfl
  | derived d b ih => rw [ty, ih]; rfl
  | array t ih => rw [ty, ih]

@[simp] theorem opt_refl (t : Option Ty) : refl.opt t = t := by cases t <;> simp

theorem map_opt_refl (ts : List (Option Ty)) : ts.map refl.opt = ts := by simp [funext opt_refl]

@[simp] theorem field_refl (f : Field) : refl.field f = f := by simp [field]

@[simp] theorem method_refl (m : Method) : refl.method m = m := by simp [method, map_opt_refl]

@[simp] theorem delegate_refl (d : Delegate) : refl.delegate d = d := by simp [delegate, map_opt_refl]

@[simp] theorem instr_refl (i : Instr) : refl.instr i = i := by
  obtain ⟨op, x⟩ := i
  cases x <;> simp [instr, operand]

@[simp] theorem draft_refl (d : Draft) : refl.draft d = d := by simp [draft, funext instr_refl, funext ty_refl]

end Renaming

/-- A renaming between the bodies of two members, which need not have the same parameters. -/
structure Matching extends Renaming where
  /-- The member that has the body that matches that of a member. -/
  body : Method → Method
  /-- The names that are of matching parameters, or of none on either side. -/
  Sees : Text → Prop
  /-- The numbers of arguments that there are on both sides, or on neither. -/
  Args : Int → Prop
  receiver : Args 0

instance : CoeOut Matching Renaming := ⟨Matching.toRenaming⟩

/-- A member and the renamed member, with all that they have. -/
def Renaming.whole (ρ : Renaming) : Matching :=
  { ρ with body := ρ.method, Sees := fun _ => True, Args := fun _ => True, receiver := trivial }

namespace Matching

variable (μ : Matching)

/-- The bodies match in all names and arguments. -/
structure Whole : Prop where
  sees : ∀ n, μ.Sees n
  args : ∀ n, μ.Args n

theorem whole (ρ : Renaming) : ρ.whole.Whole := ⟨fun _ => trivial, fun _ => trivial⟩

def localSlot (l : LocalSlot) : LocalSlot := { l with method := μ.body l.method, type := μ.ty l.type }

def label (l : Label) : Label := { l with method := μ.body l.method }

def emission : Emission → Emission
  | .type op t => .type op (μ.opt t)
  | .field op f => .field op (μ.field f)
  | .method op m => .method op (μ.method m)
  | .ctor op c => .ctor op (μ.method c)
  | .local op l => .local op (l.map μ.localSlot)
  | .label op l => .label op (l.map μ.label)
  | e => e

/-- An emission of an argument is of one that the bodies have in common. -/
def Suits : Emission → Prop
  | .arg _ n => μ.Args n
  | _ => True

end Matching
end CilCompiler
