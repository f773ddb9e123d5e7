import CilCompiler.Proofs.Renaming.Draft
import CilCompiler.Module.Finish
import CilCompiler.Proofs.Module
import CilCompiler.Module.Listing

/-!
Definitions under a renaming. A module is built type by type: what is asked of one type, and what is done to it, is
the same in a renamed module as long as the definitions of the types in question are the renamed ones (`Module.Local`).

Listings under a renaming. A listing shows a type by its name and its assembly, so a renaming that leaves types in
their assemblies changes no line of a listing (`classLines_renamed`). -/

namespace CilCompiler

namespace Renaming

variable (ρ : Renaming)

def routine (x : Routine) : Routine :=
  { x with method := ρ.method x.method, draft := ρ.draft x.draft, body := x.body.map ρ.body }

def typeDef (d : TypeDef) : TypeDef :=
  { d with type := ρ.ty d.type, fields := d.fields.map ρ.field, ctors := d.ctors.map ρ.routine
           methods := d.methods.map ρ.routine }

@[simp] theorem isCreated_typeDef (d : TypeDef) : (ρ.typeDef d).isCreated = d.isCreated := rfl

@[simp] theorem type_typeDef (d : TypeDef) : (ρ.typeDef d).type = ρ.ty d.type := rfl

@[simp] theorem slots_typeDef (d : TypeDef) : (ρ.typeDef d).slots = d.slots := rfl

@[simp] theorem fields_typeDef (d : TypeDef) : (ρ.typeDef d).fields = d.fields.map ρ.field := rfl

@[simp] theorem ctors_typeDef (d : TypeDef) : (ρ.typeDef d).ctors = d.ctors.map ρ.routine := rfl

@[simp] theorem methods_typeDef (d : TypeDef) : (ρ.typeDef d).methods = d.methods.map ρ.routine := rfl

theorem map_modify {α β : Type} (g : α → β) {f : α → α} {f' : β → β} (hf : ∀ a, g (f a) = f' (g a))
    (xs : Array α) (i : Nat) :
    (xs.modify i f).map g = (xs.map g).modify i f' := by
  apply Array.ext_getElem?
  intro j
  simp only [Array.getElem?_map, Array.getElem?_modify]
  split <;> cases xs[j]? <;> simp [hf]

theorem modifyRoutine_typeDef (d : TypeDef) (r : Method) {f f' : Routine → Routine}
    (hf : ∀ x, ρ.routine (f x) = f' (ρ.routine x)) :
    ρ.typeDef (d.modifyRoutine r f) = (ρ.typeDef d).modifyRoutine (ρ.method r) f' := by
  unfold TypeDef.modifyRoutine
  rw [isCtor_method]
  split
  · simp only [typeDef, index_method, map_modify ρ.routine hf]
  · simp only [typeDef, index_method, map_modify ρ.routine hf]

theorem routine?_typeDef (d : TypeDef) (r : Method) :
    (ρ.typeDef d).routine? (ρ.method r) = (d.routine? r).map ρ.routine := by
  unfold TypeDef.routine?
  rw [isCtor_method]
  split <;> simp

theorem routines_typeDef (d : TypeDef) : (ρ.typeDef d).routines = d.routines.map ρ.routine := by
  simp [TypeDef.routines]

end Renaming

namespace Module

/-! ### Some types of a module -/

/-- Two modules have the same definitions of some types, up to renaming. These are at one place after renaming where
    they were at one before. -/
structure Local (ρ : Renaming) (S : Ty → Prop) (m m' : Module) : Prop where
  places : ∀ {t u : Ty}, S t → S u →
    ((ρ.ty t).declared.index = (ρ.ty u).declared.index ↔ t.declared.index = u.declared.index)
  id : m'.id = m.id
  void : m'.type? TypeName.void = ρ.opt (m.type? TypeName.void)
  entry : m'.entry = m.entry.map ρ.method
  own : ∀ {t : Ty}, S t → m'.def? (ρ.ty t) = (m.def? t).map ρ.typeDef

namespace Local

variable {ρ : Renaming} {S : Ty → Prop} {t : Ty} {m m' : Module} (h : Local ρ S m m')
include h

theorem open? (ht : S t) (what : Text) :
    Agree (fun d d' => d' = ρ.typeDef d) (m.open? t what) (m'.open? (ρ.ty t) what) := by
  unfold Module.open?
  rw [h.own ht]
  cases m.def? t with
  | none => exact .error rfl
  | some d =>
    simp only [Option.map_some, Renaming.isCreated_typeDef]
    exact .ite Iff.rfl (fun _ => .error rfl) fun _ => .ok rfl

theorem routine? {r : Method} (hr : S r.owner) : m'.routine? (ρ.method r) = (m.routine? r).map ρ.routine := by
  rw [Module.routine?, Renaming.owner_method, h.own hr, Module.routine?]
  cases m.def? r.owner with
  | none => rfl
  | some d => exact ρ.routine?_typeDef d r

theorem fields (ht : S t) (sel : Binding) : m'.fields (ρ.ty t) sel = (m.fields t sel).map ρ.field := by
  rw [Module.fields, h.own ht, Module.fields]
  cases m.def? t with
  | none => rfl
  | some d => simp [List.filter_map, Function.comp_def]

theorem methods (ht : S t) (sel : Binding) : m'.methods (ρ.ty t) sel = (m.methods t sel).map ρ.method := by
  rw [Module.methods, h.own ht, Module.methods]
  cases m.def? t with
  | none => rfl
  | some d => simp [List.filter_map, Function.comp_def, Renaming.routine]

theorem ctors (ht : S t) (sel : Binding) : m'.ctors (ρ.ty t) sel = (m.ctors t sel).map ρ.method := by
  rw [Module.ctors, h.own ht, Module.ctors]
  cases m.def? t with
  | none => rfl
  | some d =>
    simp only [Option.map_some]
    split
    · simp [Function.comp_def, Renaming.routine]
    · rfl

theorem isCreated (ht : S t) : m'.isCreated (ρ.ty t) = m.isCreated t := by
  rw [Module.isCreated, h.own ht, Module.isCreated]
  cases m.def? t <;> rfl

theorem modifyDef (ht : S t) {f f' : TypeDef → TypeDef} (hf : ∀ d, ρ.typeDef (f d) = f' (ρ.typeDef d))
    (hk : ∀ d, (f d).type = d.type) (hk' : ∀ d, (f' d).type = d.type) :
    Local ρ S (m.modifyDef t f) (m'.modifyDef (ρ.ty t) f') where
  places := h.places
  id := h.id
  entry := h.entry
  void := by rw [type?_modifyDef _ _ hk', type?_modifyDef _ _ hk, h.void]
  own := by
    intro u hu
    cases ha : u.isArray with
    | true => rw [def?_of_isArray (by rw [Renaming.isArray_ty, ha]), def?_of_isArray ha, Option.map_none]
    | false =>
      rw [def?_modifyDef_of _ (by rw [Renaming.isArray_ty, ha]), def?_modifyDef_of _ ha, h.own hu]
      by_cases hi : t.declared.index = u.declared.index
      · rw [if_pos hi, if_pos ((h.places ht hu).mpr hi), Option.map_map, Option.map_map]
        congr 1
        funext d
        exact (hf d).symm
      · rw [if_neg hi, if_neg fun hi' => hi ((h.places ht hu).mp hi')]

theorem modifyRoutine {r : Method} (hr : S r.owner) {f f' : Routine → Routine}
    (hf : ∀ x, ρ.routine (f x) = f' (ρ.routine x)) :
    Local ρ S (m.modifyRoutine r f) (m'.modifyRoutine (ρ.method r) f') := by
  unfold Module.modifyRoutine
  rw [Renaming.owner_method]
  exact h.modifyDef hr (fun d => ρ.modifyRoutine_typeDef d r hf) (fun d => d.type_modifyRoutine r f)
    fun d => d.type_modifyRoutine (ρ.method r) f'

theorem defineField (ht : S t) (name : Text) (type : Option Ty) (attrs : FieldAttributes) :
    Agree (fun r r' => r'.1 = ρ.field r.1 ∧ r.1.owner = t ∧ Local ρ S r.2 r'.2) (m.defineField t name type attrs)
      (m'.defineField (ρ.ty t) name (ρ.opt type) attrs) := by
  refine (h.open? ht _).bind ?_
  rintro d _ rfl
  refine .ok ⟨?_, rfl, h.modifyDef ht (fun e => ?_) (fun _ => rfl) fun _ => rfl⟩
  · simp [Renaming.field]
  · simp [Renaming.typeDef, Renaming.field]

theorem defineMethod (ht : S t) (name : Text) (attrs : MethodAttributes) (ret : Option Ty) (params : List (Option Ty)) :
    Agree (fun r r' => r'.1 = ρ.method r.1 ∧ r.1.owner = t ∧ Local ρ S r.2 r'.2) (m.defineMethod t name attrs ret params)
      (m'.defineMethod (ρ.ty t) name attrs (ρ.opt ret) (params.map ρ.opt)) := by
  refine (h.open? ht _).bind ?_
  rintro d _ rfl
  refine .ok ⟨?_, rfl, h.modifyDef ht (fun e => ?_) (fun _ => rfl) fun _ => rfl⟩
  · simp [Renaming.method]
  · simp [Renaming.typeDef, Renaming.routine, Renaming.method, Renaming.draft, Function.comp_def]

theorem defineConstructor (ht : S t) (attrs : MethodAttributes) (params : List (Option Ty)) :
    Agree (fun r r' => r'.1 = ρ.method r.1 ∧ r.1.owner = t ∧ Local ρ S r.2 r'.2) (m.defineConstructor t attrs params)
      (m'.defineConstructor (ρ.ty t) attrs (params.map ρ.opt)) := by
  refine (h.open? ht _).bind ?_
  rintro d _ rfl
  refine .ok ⟨?_, rfl, h.modifyDef ht (fun e => ?_) (fun _ => rfl) fun _ => rfl⟩
  · simp [Renaming.method, h.void]
  · simp [Renaming.typeDef, Renaming.routine, Renaming.method, Renaming.draft, h.void, Function.comp_def]

theorem defineParameter {r : Method} (hr : S r.owner) (position : Int) (name : Text) :
    Agree (Local ρ S) (m.defineParameter r position name) (m'.defineParameter (ρ.method r) position name) := by
  unfold Module.defineParameter
  rw [Renaming.params_method, List.length_map]
  exact .ite Iff.rfl (fun _ => .error rfl) fun _ => .ok (h.modifyRoutine hr fun _ => rfl)

theorem setImplementation {r : Method} (hr : S r.owner) (impl : Implementation) :
    Agree (Local ρ S) (m.setImplementation r impl) (m'.setImplementation (ρ.method r) impl) := by
  unfold Module.setImplementation
  rw [Renaming.owner_method]
  exact (h.open? hr _).bind fun _ _ _ => .ok (h.modifyRoutine hr fun _ => rfl)

end Local
end Module

/-- Types stay in their assemblies. -/
def Renaming.KeepsAssemblies (ρ : Renaming) : Prop := ∀ d, (ρ.declared d).assembly = d.assembly

namespace Module

variable {ρ : Renaming} {m m' : Module}

theorem starts_renamed (hd : ρ.Distinct) (hentry : m'.entry = m.entry.map ρ.method) (r : Method) :
    m'.entry = some (ρ.method r) ↔ m.entry = some r := by
  rw [hentry, ← Option.map_some]
  exact (Option.map_injective hd.method).eq_iff

variable (hρ : ρ.KeepsAssemblies) (hname : m'.name = m.name)
include hρ hname

/-! ### Types and references -/

theorem qualified_renamed (t : Ty) : m'.qualified (ρ.ty t) = m.qualified t := by
  have hassembly : (ρ.ty t).assembly = t.assembly := by
    rw [Ty.assembly, Renaming.declared_ty]
    exact hρ _
  rw [qualified, qualified, hassembly, hname, Renaming.name_ty]

theorem typeRef_renamed (t : Ty) : m'.typeRef (ρ.ty t) = m.typeRef t := by
  have plain : ∀ t : Ty, t.isArray = false → m'.typeRef (ρ.ty t) = m.typeRef t := by
    intro t ht
    have hq := qualified_renamed hρ hname t
    have hn := ρ.name_ty t
    have hv := ρ.isValue_ty t
    cases t with
    | array e => cases ht
    | root d =>
      simp only [Renaming.ty] at hq hn hv ⊢
      simp only [typeRef, hq, hn, hv]
    | derived d b =>
      simp only [Renaming.ty] at hq hn hv ⊢
      simp only [typeRef, hq, hn, hv]
  induction t with
  | array e ih =>
    simp only [Renaming.ty, typeRef]
    rw [ih]
  | root d => exact plain _ rfl
  | derived d b => exact plain _ rfl

theorem optTypeRef_renamed (t : Option Ty) : m'.optTypeRef (ρ.opt t) = m.optTypeRef t := by
  cases t with
  | none => rfl
  | some t => exact typeRef_renamed hρ hname t

theorem typeSpec_renamed (t : Ty) : m'.typeSpec (ρ.ty t) = m.typeSpec t := by
  rw [typeSpec, typeSpec, Renaming.name_ty, Renaming.isArray_ty, typeRef_renamed hρ hname, qualified_renamed hρ hname]

theorem ownerRef_renamed (t : Ty) : m'.ownerRef (ρ.ty t) = m.ownerRef t := by
  rw [ownerRef, ownerRef, Renaming.isArray_ty, typeRef_renamed hρ hname, qualified_renamed hρ hname]

theorem paramTypes_renamed (params : List (Option Ty)) : m'.paramTypes (params.map ρ.opt) = m.paramTypes params := by
  rw [paramTypes, paramTypes, List.map_map]
  congr 1
  exact List.map_congr_left fun t _ => optTypeRef_renamed hρ hname t

theorem methodRef_renamed (r : Method) : m'.methodRef (ρ.method r) = m.methodRef r := by
  simp only [methodRef, Renaming.isStatic_method, Renaming.name_method, Renaming.ret_method, Renaming.owner_method,
      Renaming.params_method,
    optTypeRef_renamed hρ hname, ownerRef_renamed hρ hname, paramTypes_renamed hρ hname]
  rfl

theorem ctorRef_renamed (r : Method) : m'.ctorRef (ρ.method r) = m.ctorRef r := by
  simp only [ctorRef, Renaming.owner_method, Renaming.params_method, ownerRef_renamed hρ hname, paramTypes_renamed hρ hname]

theorem fieldRef_renamed (f : Field) : m'.fieldRef (ρ.field f) = m.fieldRef f := by
  simp only [fieldRef, Renaming.type_field, Renaming.owner_field, Renaming.name_field, optTypeRef_renamed hρ hname,
      ownerRef_renamed hρ hname]

/-! ### Bodies -/

theorem operandText?_renamed (x : Operand) : m'.operandText? (ρ.operand x) = m.operandText? x := by
  cases x with
  | type t => exact congrArg some (typeSpec_renamed hρ hname t)
  | field f => exact congrArg some (fieldRef_renamed hρ hname f)
  | method r => exact congrArg some (methodRef_renamed hρ hname r)
  | ctor r => exact congrArg some (ctorRef_renamed hρ hname r)
  | _ => rfl

theorem instrLine_renamed (i : Instr) : m'.instrLine (ρ.instr i) = m.instrLine i := by
  rw [instrLine, Renaming.op_instr, show (ρ.instr i).operand = ρ.operand i.operand from rfl,
      operandText?_renamed hρ hname, instrLine]

theorem methodLine_renamed (x : Routine) : m'.methodLine (ρ.routine x) = m.methodLine x := by
  have params : ((x.method.params.map ρ.opt).zip x.paramNames).map (fun p => m'.namedParam p.1 p.2) =
      (x.method.params.zip x.paramNames).map fun p => m.namedParam p.1 p.2 := by
    rw [List.zip_map_left, List.map_map]
    refine List.map_congr_left fun p _ => ?_
    simp only [Function.comp_apply, Prod.map_fst, Prod.map_snd, id_eq, namedParam, optTypeRef_renamed hρ hname]
  have hret : (ρ.routine x).method.ret = ρ.opt x.method.ret := rfl
  have hparams : (ρ.routine x).method.params = x.method.params.map ρ.opt := rfl
  have hnames : (ρ.routine x).paramNames = x.paramNames := rfl
  simp only [methodLine, hret, hparams, hnames, params, optTypeRef_renamed hρ hname]
  rfl

theorem bodyLines_renamed {r : Method} (hstart : m'.entry = some (ρ.method r) ↔ m.entry = some r) (b : Body) :
    m'.bodyLines (ρ.method r) (ρ.body b) = m.bodyLines r b := by
  have hlocals : ((ρ.body b).locals.toList.zipIdx.map fun p => Text.join [m'.typeRef p.1, " V_", Text.ofNat p.2]) =
      b.locals.toList.zipIdx.map fun p => Text.join [m.typeRef p.1, " V_", Text.ofNat p.2] := by
    rw [show (ρ.body b).locals = b.locals.map ρ.ty from rfl, Array.toList_map, List.zipIdx_map, List.map_map]
    refine List.map_congr_left fun p _ => ?_
    simp only [Function.comp_apply, Prod.map_fst, Prod.map_snd, id_eq, typeRef_renamed hρ hname]
  have hcode : ((ρ.body b).code.toList.map fun i => Text.join ["        ", m'.instrLine i]) =
      b.code.toList.map fun i => Text.join ["        ", m.instrLine i] := by
    rw [show (ρ.body b).code = b.code.map ρ.instr from rfl, Array.toList_map, List.map_map]
    refine List.map_congr_left fun i _ => ?_
    rw [Function.comp_apply, instrLine_renamed hρ hname]
  have hempty : (ρ.body b).locals.isEmpty = b.locals.isEmpty := by simp [Renaming.body, Array.isEmpty]
  simp only [bodyLines, hstart, hlocals, hcode, hempty]
  rfl

theorem routineLines_renamed {x : Routine} (hstart : m'.entry = some (ρ.method x.method) ↔ m.entry = some x.method) :
    Agree (fun ls ls' => ls' = ls) (m.routineLines x) (m'.routineLines (ρ.routine x)) := by
  have hline := methodLine_renamed hρ hname x
  have hdraft : (ρ.routine x).draft = ρ.draft x.draft := rfl
  unfold routineLines
  dsimp only
  refine .ite Iff.rfl (fun _ => .ok (by rw [hline])) fun _ => ?_
  rw [hdraft, Renaming.settle_draft]
  cases x.draft.settle with
  | error f => exact .error rfl
  | ok b =>
    refine .ok ?_
    rw [hline]
    exact congrArg (fun ls => _ :: _ :: (ls ++ _)) (bodyLines_renamed hρ hname hstart b)

/-! ### Types -/

/-- The block of a renamed type is that of the type. -/
theorem classLines_renamed {d : TypeDef}
    (hstart : ∀ x ∈ d.routines, m'.entry = some (ρ.method x.method) ↔ m.entry = some x.method) :
    Agree (fun ls ls' => ls' = ls) (m.classLines d) (m'.classLines (ρ.typeDef d)) := by
  have routines : ∀ xs : List Routine, (∀ x ∈ xs, m'.entry = some (ρ.method x.method) ↔ m.entry = some x.method) →
      Agree (fun ls ls' => ls' = ls) (xs.mapM m.routineLines) ((xs.map ρ.routine).mapM m'.routineLines) := by
    intro xs hxs
    induction xs with
    | nil => exact .ok rfl
    | cons x xs ih =>
      rw [List.map_cons, List.mapM_cons, List.mapM_cons]
      refine (routineLines_renamed hρ hname (hxs x List.mem_cons_self)).bind ?_
      rintro ls _ rfl
      refine (ih fun y hy => hxs y (List.mem_cons_of_mem _ hy)).bind ?_
      rintro lss _ rfl
      exact .ok rfl
  have fields : ((ρ.typeDef d).fields.toList.map fun f => Text.join ["    .field ", f.attrs.words, " ",
      m'.optTypeRef f.type, " ", f.name]) =
      d.fields.toList.map fun f => Text.join ["    .field ", f.attrs.words, " ", m.optTypeRef f.type, " ", f.name] := by
    rw [Renaming.fields_typeDef, Array.toList_map, List.map_map]
    refine List.map_congr_left fun f _ => ?_
    rw [Function.comp_apply, Renaming.type_field, optTypeRef_renamed hρ hname]
    rfl
  have hattrs : (ρ.typeDef d).attrs = d.attrs := rfl
  -- What is written behind the line that names the base.
  have block : ∀ extend : List Text, Agree (fun ls ls' => ls' = ls)
      (d.routines.mapM m.routineLines >>= fun lss => pure
        ([Text.join [".class ", d.attrs.words, " ", d.type.name]] ++ extend ++ [("\x7b" : Text)] ++
          d.fields.toList.map (fun f => Text.join ["    .field ", f.attrs.words, " ", m.optTypeRef f.type, " ", f.name]) ++
          lss.flatten ++ [("\x7d" : Text)]))
      ((d.routines.map ρ.routine).mapM m'.routineLines >>= fun lss => pure
        ([Text.join [".class ", d.attrs.words, " ", d.type.name]] ++ extend ++ [("\x7b" : Text)] ++
          d.fields.toList.map (fun f => Text.join ["    .field ", f.attrs.words, " ", m.optTypeRef f.type, " ", f.name]) ++
          lss.flatten ++ [("\x7d" : Text)])) := by
    intro extend
    refine (routines d.routines hstart).bind ?_
    rintro lss _ rfl
    exact .ok rfl
  unfold classLines
  simp only [Renaming.type_typeDef, Renaming.name_ty, Renaming.base?_ty, Renaming.routines_typeDef, fields, hattrs]
  cases d.type.base? with
  | none => exact block []
  | some b =>
    simp only [Option.map_some, Renaming.name_ty, qualified_renamed hρ hname]
    exact .ite Iff.rfl (fun _ => block _) fun _ => .error rfl

end Module
end CilCompiler
