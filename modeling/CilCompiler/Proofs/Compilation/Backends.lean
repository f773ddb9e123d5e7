import Mathlib.Logic.Equiv.Basic
import CilCompiler.Proofs.Compilation.Listed
import CilCompiler.Proofs.Compilation.Lockstep
import CilCompiler.Proofs.Compilation.Sealed
import CilCompiler.Proofs.StackBalance

/-! The two backends. A program without loops and choices that names no array of void is compiled into a listing where
    it is compiled into a module that can be run, and fails with the same code where it fails; and each of its members
    has the same code in both (`backends_agree`). A listing counts the values on the stack while a body grows, and
    code that can be run is looked at as a whole in the end; so the count of a listing is no smaller, and it is the
    same where nothing follows a return. -/

namespace CilCompiler

/-! ### What is written of an instruction -/

/-- What an instruction refers to, by names: a type by its own, and a member by its owner's, its own and those of its
    types. -/
inductive Referent where
  | value (x : Operand)
  | type (name : Text)
  | field (owner name : Text) (type : Option Text)
  | member (owner : Text) (isCtor : Bool) (name : Text) (isStatic : Bool) (params : List (Option Text)) (ret : Option Text)
deriving DecidableEq

def Method.referent (r : Method) : Referent :=
  .member r.owner.name r.isCtor r.name r.isStatic (r.params.map (Option.map Ty.name)) (r.ret.map Ty.name)

def Operand.referent : Operand → Referent
  | .type t => .type t.name
  | .field f => .field f.owner.name f.name (f.type.map Ty.name)
  | .method r | .ctor r => r.referent
  | x => .value x

/-- An instruction by its opcode and what it refers to. -/
def Instr.shown (i : Instr) : Opcode × Referent := (i.op, i.operand.referent)

/-- A body in a listing is one that can be run, by the names its instructions refer to; its stack is no smaller. -/
structure Body.Alike (b b' : Body) : Prop where
  locals : b'.locals.map Ty.name = b.locals.map Ty.name
  code : b'.code.map Instr.shown = b.code.map Instr.shown
  stack : b.maxStack ≤ b'.maxStack

namespace Renaming
variable (ρ : Renaming)

theorem referent_method (r : Method) : (ρ.method r).referent = r.referent := by
  have hparams : (r.params.map ρ.opt).map (Option.map Ty.name) = r.params.map (Option.map Ty.name) := by
    rw [List.map_map]
    exact List.map_congr_left fun t _ => ρ.map_name_opt t
  simp only [Method.referent, params_method, owner_method, ret_method, name_ty, hparams, map_name_opt]
  rfl

/-- A renamed instruction refers to the same names. -/
theorem shown_instr (i : Instr) : (ρ.instr i).shown = i.shown := by
  obtain ⟨op, x⟩ := i
  refine Prod.ext rfl ?_
  cases x with
  | type t => exact congrArg Referent.type (ρ.name_ty t)
  | field f =>
    show Referent.field (ρ.ty f.owner).name f.name ((ρ.opt f.type).map Ty.name) = _
    rw [name_ty, map_name_opt]
    rfl
  | method r => exact ρ.referent_method r
  | ctor r => exact ρ.referent_method r
  | _ => rfl

/-! ### Modules of different names -/

/-- The renaming between modules of two names, whose catalogs are in two assemblies. -/
def between (a b n n' : Text) : Renaming where
  declared d :=
    { d with assembly := if d.index < Module.hostCount then Equiv.swap a b d.assembly else Equiv.swap n n' d.assembly }
  module_declared _ := rfl
  name_declared _ := rfl
  isValue_declared _ := rfl

variable {a b n n' : Text}

theorem between_still : (between a b n n').Still := fun _ => rfl

theorem between_distinct : (between a b n n').Distinct := by
  rintro ⟨module, index, assembly, name, isValue⟩ ⟨module', index', assembly', name', isValue'⟩ h
  simp only [between, Declared.mk.injEq] at h
  obtain ⟨rfl, rfl, h, rfl, rfl⟩ := h
  split at h
  · rw [(Equiv.swap a b).injective h]
  · rw [(Equiv.swap n n').injective h]

theorem between_default (ha : a ≠ .empty) (hb : b ≠ .empty) : (between a b n n').ty default = default := by
  have hswap : Equiv.swap a b Text.empty = .empty := Equiv.swap_apply_of_ne_of_ne ha.symm hb.symm
  show Ty.root ((between a b n n').declared default) = Ty.root default
  have hdeclared : (between a b n n').declared default =
      { (default : Declared) with assembly := Equiv.swap a b Text.empty } := rfl
  rw [hdeclared, hswap]
  rfl

end Renaming

/-- The renaming from one module to another. -/
def Renaming.across (m m' : Module) : Renaming := .between m.runtime m'.runtime m.name m'.name

namespace Module
variable (name runtime name' runtime' : Text)

theorem runtime_new_ne_empty (backend : Backend) : (new 0 backend name runtime).runtime ≠ .empty := by
  have hassembly : Host.defaultAssembly ≠ .empty := by decide
  cases backend with
  | dynamic => exact hassembly
  | textual =>
    show (if runtime.isEmpty then Host.defaultAssembly else runtime) ≠ .empty
    split
    · exact hassembly
    · rename_i hne
      rintro rfl
      exact hne rfl

theorem across_default :
    (Renaming.across (new 0 .dynamic name runtime) (new 0 .textual name' runtime')).ty default = default :=
  Renaming.between_default (runtime_new_ne_empty name runtime .dynamic) (runtime_new_ne_empty name' runtime' .textual)

/-- A listing starts like a module that can be run, whatever their names are. -/
theorem new_began_across : (new 0 .dynamic name runtime).Began
    (.across (new 0 .dynamic name runtime) (new 0 .textual name' runtime')) (new 0 .textual name' runtime') where
  alike := new_renamed fun d hd ha => by
    simp only [Renaming.across, Renaming.between, if_pos hd, ha, Equiv.swap_apply_left]
  defines d hd ha := by
    simp only [Renaming.across, Renaming.between, if_neg (Nat.not_lt.mpr hd), ha, Equiv.swap_apply_left]
  size := Nat.le_of_eq Compilation.hostModule_size.symm

end Module

/-! ### Lines of a listing -/

/-- Where each piece of work succeeds, all of them do. -/
theorem mapM_of_ok {ε α β : Type} {f : α → Except ε β} {xs : List α} (h : ∀ x ∈ xs, ∃ y, f x = .ok y) :
    ∃ ys, xs.mapM f = .ok ys ∧ ∀ x ∈ xs, ∃ y ∈ ys, f x = .ok y := by
  induction xs with
  | nil => exact ⟨[], rfl, List.forall_mem_nil _⟩
  | cons x xs ih =>
    obtain ⟨y, hy⟩ := h x List.mem_cons_self
    obtain ⟨ys, hys, hmem⟩ := ih fun z hz => h z (List.mem_cons_of_mem _ hz)
    refine ⟨y :: ys, by rw [List.mapM_cons, hy, hys]; rfl,
        List.forall_mem_cons.mpr ⟨⟨y, List.mem_cons_self, hy⟩, fun z hz => ?_⟩⟩
    obtain ⟨v, hv, hz⟩ := hmem z hz
    exact ⟨v, List.mem_cons_of_mem _ hv, hz⟩

namespace Module
variable {m : Module} {x : Routine} {b : Body} {d : TypeDef} {ls : List Text}

/-- A body that settles is written with its lines. -/
theorem routineLines_settled (himpl : x.impl ≠ .runtime) (hb : x.draft.settle = .ok b) :
    ∃ ls, m.routineLines x = .ok ls ∧ m.bodyLines x.method b <:+: ls := by
  refine ⟨m.methodLine x :: "    \x7b" :: (m.bodyLines x.method b ++ [("    \x7d" : Text)]), ?_,
    [m.methodLine x, "    \x7b"], ["    \x7d"], by simp⟩
  rw [routineLines, if_neg himpl, hb]

theorem routineLines_runtime (himpl : x.impl = .runtime) : ∃ ls, m.routineLines x = .ok ls := by
  rw [routineLines, if_pos himpl]
  exact ⟨_, rfl⟩

/-- A definition whose members can be written can be written, with their lines one behind the other. -/
theorem classLines_of_routines (hbase : ∀ {b}, d.type.base? = some b → b.name = TypeName.multicastDelegate)
    (h : ∀ x ∈ d.routines, ∃ ls, m.routineLines x = .ok ls) :
    ∃ ls, m.classLines d = .ok ls ∧ ∀ x ∈ d.routines, ∃ xs, m.routineLines x = .ok xs ∧ xs <:+: ls := by
  obtain ⟨lss, hlss, hmem⟩ := mapM_of_ok h
  obtain ⟨ls, hls⟩ : ∃ ls, m.classLines d = .ok ls := by
    unfold classLines
    dsimp only
    rw [hlss]
    split
    · exact ⟨_, rfl⟩
    · rw [if_pos (hbase ‹_›)]
      exact ⟨_, rfl⟩
  obtain ⟨extend, lss', -, hlss', rfl⟩ := m.classLines_ok hls
  cases hlss.symm.trans hlss'
  refine ⟨_, hls, fun x hx => ?_⟩
  obtain ⟨xs, hxs, hx⟩ := hmem x hx
  exact ⟨xs, hx, (List.infix_of_mem_flatten hxs).trans (List.infix_append ..)⟩

end Module

/-- A body that can be run settles with what a listing counts. -/
theorem Setting.Complete.settles {Γ : Setting} {D : Draft} (hv : Γ.Voidless) (h : Γ.Complete D) :
    (D.counted (some Γ.scope.ret)).settle =
      .ok { code := D.code, locals := D.locals, maxStack := peakBehind (some Γ.scope.ret) D.code } := by
  obtain ⟨code, hlast⟩ := h.last
  have hcode : ¬(D.counted (some Γ.scope.ret)).code.isEmpty = true := by simp [Draft.counted, hlast]
  have hdepth : (D.counted (some Γ.scope.ret)).depth = 0 := h.typed.depthBehind hv
  unfold Draft.settle
  rw [if_neg hcode, if_neg (not_not.mpr hdepth)]
  rfl

/-! ### Programs without loops and choices -/

/-- Whether there is a loop or a choice in a class. -/
def ClassDecl.branches (d : ClassDecl) : Bool :=
  (d.ctors.any fun x => x.body.any Stmt.branches) || d.methods.any fun x => x.body.any Stmt.branches

/-- Whether there is a loop or a choice in a program. -/
def Program.branches (p : Program) : Bool := p.classes.any ClassDecl.branches

namespace Compilation

variable {P : Ty → Prop} {p : Program} {ρ : Renaming} {c₀ c c' c₁ c₁' : Compilation} {k : Nat}
    {d : DeclaredType} {x : Member}
  {f f' : Method → Draft} {scope : Scope} {s : Symbols} {D : Draft}

theorem Described.Of.straight {cd : ClassDecl} {e : TypeDef} {m : Bool × MethodDecl} {y : Routine}
    (h : Described.Of P p s c k d x cd e m y) (hp : p.branches = false) : x.body.any Stmt.branches = false := by
  have hclass : cd.branches = false := by simpa using List.any_eq_false.mp hp cd h.mem
  rw [ClassDecl.branches, Bool.or_eq_false_iff, List.any_eq_false, List.any_eq_false] at hclass
  rcases h.body_mem with he | ⟨ctor, hc, he⟩ | ⟨method, hm, he⟩
  · rw [he]
    rfl
  · rw [he]
    simpa using hclass.1 ctor hc
  · rw [he]
    simpa using hclass.2 method hm

section Straight
variable (h : Emits scope d x { symbols := s } D) (hb : x.body.any Stmt.branches = false)
include h hb

/-- Lowering a body without loops and choices adds no labels. -/
theorem Emits.unlabelled : D.marks = #[] := by
  have keeps := Work.Unlabelled.stepwise
  obtain ⟨b, w, w', hl, hret, rfl⟩ := h
  have lowered : ({ symbols := s } : Work).Unlabelled w := by
    unfold lowering at hl
    split at hl
    · refine keeps.constructor d.inits (keeps.block hb) (fun rest hrest => keeps.block ?_) hl
      rw [hrest, List.any_cons, Bool.or_eq_false_iff] at hb
      exact hb.2
    · exact keeps.statements (keeps.block hb) hl
  rcases hret with ⟨-, rfl⟩ | ⟨-, he⟩
  · exact lowered
  · exact (keeps.leave he).trans lowered

/-- Where no statement follows a return, nothing follows a return. -/
theorem Emits.returnsLast (hr : ∀ t ∈ x.body.dropLast, t.returns = false) : D.ReturnsLast := by
  obtain ⟨b, w, w', hl, hret, rfl⟩ := h
  have concludes : ({ symbols := s } : Work).Concludes scope b w := by
    unfold lowering at hl
    split at hl
    · exact .constructor hb hr hl
    · exact .statements hb hr hl
  rcases hret with ⟨rfl, rfl⟩ | ⟨rfl, he⟩
  · obtain ⟨w₁, h1, he⟩ := concludes
    exact Work.Concludes.returnsLast h1 he
  · exact Work.Concludes.returnsLast concludes he

end Straight

/-- A body without loops and choices is finished with one code in a module that can be run and in a listing. -/
structure OneCode (x : Member) (D : Draft) (b b' : Body) : Prop where
  verified : D.verify (some x.ret) = .ok b
  settled : (D.counted (some x.ret)).settle = .ok b'
  code : b'.code = b.code
  locals : b'.locals = b.locals
  stack : b.maxStack ≤ b'.maxStack
  exact : (∀ t ∈ x.body.dropLast, t.returns = false) → b'.maxStack = b.maxStack

theorem Lowered.oneCode (h : Supplied P c d x) (hdyn : c.module.backend = .dynamic)
    (hv : ∀ {e : Ty}, P (.array e) → e.isVoid = false)
    (hb : x.body.any Stmt.branches = false) (hl : Lowered P c d x D) : ∃ b b', OneCode x D b b' := by
  have hvoid : (settingOf P c x).Voidless := fun hP => hv hP
  have hcomplete := Lowered.complete h hl
  obtain ⟨s, -, -, hemits⟩ := hl
  obtain ⟨b, hverify, hfinishes⟩ := hcomplete.finishes hdyn hvoid
  have hstraight := hcomplete.straight (hemits.unlabelled hb)
  have hassigned := hcomplete.assignment hvoid
  have hret : (settingOf P c x).scope.ret = x.ret := rfl
  have hsettles := hcomplete.settles hvoid
  rw [hret] at hverify hfinishes hassigned hsettles
  exact ⟨b, _, hverify, hsettles, (hfinishes.code_eq hstraight).symm, hfinishes.locals.symm,
      hfinishes.maxStack_le hassigned hstraight,
    fun hr => (hfinishes.maxStack_eq hassigned hstraight (hemits.returnsLast hb hr)).symm⟩

/-! ### Finishing -/

/-- A type is not derived, or a delegate. -/
theorem base_name {source : Declaration} {t b : Ty} (h : source.TypedBy t) (hb : t.base? = some b) :
    b.name = TypeName.multicastDelegate := by
  have hmulticast : hostRoles.multicastDelegate.name = TypeName.multicastDelegate := by decide +kernel
  rw [h.base] at hb
  cases source with
  | «class» cd => cases hb
  | delegate dd =>
    cases hb
    exact hmulticast

/-- What has become of a member in a module that can be run and in a listing: it has been verified and written with
    one code, for a stack that is as large in both where no statement follows a return. -/
structure SameCode (m m' : Module) (x x' : Member) : Prop where
  referent : x'.method.referent = x.method.referent
  bodies : ∃ y b y' b', m.routine? x.method = some y ∧ y.body = some b ∧ m'.routine? x'.method = some y' ∧
    y'.draft.settle = .ok b' ∧
    m'.bodyLines x'.method b' <:+: m'.lines.toList ∧ b.Alike b' ∧
    ((∀ t ∈ x.body.dropLast, t.returns = false) → b'.maxStack = b.maxStack)

section Finishing
variable (hdesc : Described P p c₀ c) (hv : ∀ {e : Ty}, P (.array e) → e.isVoid = false) (h : Paired P ρ c c')
  (hl : Lockstep P ρ c c' (pairs c.types) c₁ c₁' f f')
include hdesc hv h hl

theorem Lockstep.oneCode {y : DeclaredType × Member} (hy : y ∈ pairs c.types) :
    ∃ b b', OneCode y.2 (f y.2.method) b b' := by
  obtain ⟨s, hs, he⟩ := hl.left.emitted y hy
  exact Lowered.oneCode (h.provided.supplied y hy) hdesc.coherent.dynamic hv (h.straight y hy) ⟨s, hs.1, hs.2, he⟩

omit hdesc hv h in
/-- The draft of a member in the listing settles to the renamed body. -/
theorem Lockstep.settle {y : Routine} {b b' : Body} (hmethod : x.method = y.method)
    (hret : x.method.ret = some x.ret) (hone : OneCode x (f x.method) b b') :
    ((ρ.routine y).withDraft f').draft.settle = .ok (ρ.body b') := by
  show (f' (ρ.method y.method)).settle = _
  rw [hl.drafts, ρ.settle_draft, ← hmethod, hret, hone.settled]
  rfl

/-- The definition of a type in the listing, and the members that are written of it. -/
theorem Lockstep.written (hd : c.types[k]? = some d) :
    ∃ e ls, c.module.types[Module.hostCount + k]? = some e ∧
      c₁'.module.def? (ρ.ty d.type) = some ((ρ.typeDef e).withDrafts f') ∧ e.isCreated = false ∧
      c₁'.module.classLines ((ρ.typeDef e).withDrafts f') = .ok ls ∧
      ∀ y ∈ e.routines, ∃ ys, c₁'.module.routineLines ((ρ.routine y).withDraft f') = .ok ys ∧ ys <:+: ls := by
  obtain ⟨ht, e, he, hm⟩ := hdesc.made hd
  have htype : e.type = d.type := Made.type hm
  have hdef : c₁'.module.def? (ρ.ty d.type) = some ((ρ.typeDef e).withDrafts f') := by
    have hmodule : c₁'.module = c'.module.withDrafts f' := by rw [hl.right.eq]
    rw [hmodule, Module.def?_withDrafts, (h.alike.module.local h.still).own trivial, ← htype,
        Module.Shaped.def? hdesc.coherent.shaped he]
    rfl
  have hroutines : ((ρ.typeDef e).withDrafts f').routines = e.routines.map fun y => (ρ.routine y).withDraft f' := by
    rw [TypeDef.routines_withDrafts, Renaming.routines_typeDef, List.map_map]
    rfl
  have each : ∀ z ∈ ((ρ.typeDef e).withDrafts f').routines, ∃ ls, c₁'.module.routineLines z = .ok ls := by
    intro z hz
    rw [hroutines] at hz
    obtain ⟨y, hy, rfl⟩ := List.mem_map.mp hz
    rcases Made.runtime_or_member hm hy with hrun | ⟨x, hx, hmethod, hret⟩
    · exact Module.routineLines_runtime hrun
    · by_cases hrun : y.impl = .runtime
      · exact Module.routineLines_runtime hrun
      · obtain ⟨b, b', hone⟩ := hl.oneCode hdesc hv h (y := (d, x)) (mem_pairs.mpr ⟨List.mem_of_getElem? hd, hx⟩)
        have hsettle := hl.settle hmethod hret hone
        obtain ⟨ls, hls, -⟩ := Module.routineLines_settled (m := c₁'.module) (x := (ρ.routine y).withDraft f') hrun hsettle
        exact ⟨ls, hls⟩
  obtain ⟨ls, hls, hmem⟩ := Module.classLines_of_routines (fun {b} hb => by
    have hb : (ρ.ty d.type).base? = some b := by rw [← htype]; exact hb
    rw [Renaming.base?_ty] at hb
    obtain ⟨b₀, hb₀, rfl⟩ := Option.map_eq_some_iff.mp hb
    rw [Renaming.name_ty]
    exact base_name ht hb₀) each
  refine ⟨e, ls, he, hdef, Made.isOpen hm, hls, fun y hy => hmem _ ?_⟩
  rw [hroutines]
  exact List.mem_map_of_mem hy

theorem Lockstep.sameCode {y : DeclaredType × Member} (hy : y ∈ pairs c.types) :
    SameCode (c₁.module.sealTypes (c₁.types.map DeclaredType.type))
      (c₁'.module.sealTypes (c₁'.types.map DeclaredType.type)) y.2
      (ρ.member y.2) := by
  have hmodule : c₁.module = c.module.withDrafts f := by rw [hl.left.eq]
  have hmodule' : c₁'.module = c'.module.withDrafts f' := by rw [hl.right.eq]
  have htypes : c₁.types = c.types := by rw [hl.left.eq]
  have htypes' : c₁'.types = c.types.map ρ.declaredType := by rw [hl.right.eq]; exact h.alike.types
  obtain ⟨hd, hx⟩ := mem_pairs.mp hy
  obtain ⟨k, hk⟩ := List.mem_iff_getElem?.mp hd
  obtain ⟨cd, e, m, z, hof⟩ := hdesc.member hk hx
  have howner : y.2.method.owner = y.1.type := hof.declares.owner
  have himpl : z.impl ≠ .runtime := by rw [(hof.made.recorded z hof.routine).impl]; decide
  obtain ⟨b, b', hone⟩ := hl.oneCode hdesc hv h hy
  have hroutine : c.module.routine? y.2.method = some z :=
    hof.method ▸ Module.Shaped.routine? hdesc.coherent.shaped hof.definition hof.routine
  -- In the module that can be run the body has been verified.
  have hrun : (c₁.module.sealTypes (c₁.types.map DeclaredType.type)).routine? y.2.method =
      some ((z.withDraft f).sealed .dynamic) := by
    have hplace : y.2.method.owner.declared.index ∈ (c₁.types.map DeclaredType.type).map fun t => t.declared.index := by
      rw [htypes, howner]
      exact List.mem_map_of_mem (List.mem_map_of_mem hd)
    rw [Module.routine?_sealTypes hplace, hmodule, Module.routine?_withDrafts, hroutine,
      show (c.module.withDrafts f).backend = .dynamic from hdesc.coherent.dynamic]
    rfl
  have hbody : ((z.withDraft f).sealed .dynamic).body = some b := by
    have hverify : (f z.method).verify z.method.ret = .ok b := by
      rw [hof.method, hof.declares.result]
      exact hone.verified
    have himpl : ¬(z.withDraft f).impl = .runtime := himpl
    show (z.withDraft f).finished.body = _
    rw [Routine.finished, if_neg himpl]
    exact congrArg Except.toOption hverify
  -- In the listing it has been settled and written.
  have hlist : (c₁'.module.sealTypes (c₁'.types.map DeclaredType.type)).routine? (ρ.method y.2.method) =
      some (((ρ.routine z).withDraft f').sealed .textual) := by
    have hplace : (ρ.method y.2.method).owner.declared.index ∈ (c₁'.types.map DeclaredType.type).map fun t =>
      t.declared.index := by
      rw [htypes', Renaming.owner_method, howner]
      exact List.mem_map_of_mem (List.mem_map_of_mem (List.mem_map_of_mem hd))
    rw [Module.routine?_sealTypes hplace, hmodule', Module.routine?_withDrafts,
        (h.alike.module.local h.still).routine? trivial, hroutine,
      show (c'.module.withDrafts f').backend = .textual from h.textual]
    rfl
  have hsettle := hl.settle hof.method.symm hof.declares.result hone
  obtain ⟨e', ls, he', hdef, -, hls, hmem⟩ := hl.written hdesc hv h hk
  cases hof.definition.symm.trans he'
  obtain ⟨ys, hys, hwritten⟩ := hmem z hof.routine
  have hlines : (c₁'.module.sealTypes (c₁'.types.map DeclaredType.type)).bodyLines (ρ.method y.2.method) (ρ.body b') <:+:
      (c₁'.module.sealTypes (c₁'.types.map DeclaredType.type)).lines.toList := by
    obtain ⟨ys', hys', hinside⟩ :=
      Module.routineLines_settled (m := c₁'.module) (x := (ρ.routine z).withDraft f') himpl hsettle
    cases hys.symm.trans hys'
    have hmem : ρ.ty y.1.type ∈ c₁'.types.map DeclaredType.type := by
      rw [htypes', List.map_map]
      exact List.mem_map_of_mem hd
    have hblock := Module.typeBlock_infix (m := c₁'.module) hmem
    rw [Module.typeBlock_of_classLines (by rw [hmodule']; exact h.textual) hdef hls] at hblock
    rw [Module.bodyLines_sealTypes, ← hof.method]
    exact hinside.trans (hwritten.trans hblock)
  refine ⟨ρ.referent_method y.2.method, _, b, _, ρ.body b', hrun, hbody, hlist, hsettle, hlines,
      ⟨?_, ?_, hone.stack⟩, hone.exact⟩
  · show (b'.locals.map ρ.ty).map Ty.name = _
    rw [Array.map_map, hone.locals]
    exact Array.map_congr_left fun t _ => ρ.name_ty t
  · show (b'.code.map ρ.instr).map Instr.shown = _
    rw [Array.map_map, hone.code]
    exact Array.map_congr_left fun i _ => ρ.shown_instr i

/-- Both are finished, and each member has the same code in both. -/
theorem Lockstep.finish (helem : ∀ {e : Ty}, P (.array e) → P e) (hn : ∀ n ∈ p.typeNames, c₀.symbols.Names P n) :
    ∃ c₂ c₂', c₁.finish = .ok c₂ ∧ c₁'.finish = .ok c₂' ∧
      List.Forall₂ (fun y y' => SameCode c₂.module c₂'.module y.2 y'.2) (pairs c₂.types) (pairs c₂'.types) := by
  have hmodule : c₁.module = c.module.withDrafts f := by rw [hl.left.eq]
  have hmodule' : c₁'.module = c'.module.withDrafts f' := by rw [hl.right.eq]
  have htypes : c₁.types = c.types := by rw [hl.left.eq]
  have htypes' : c₁'.types = c.types.map ρ.declaredType := by rw [hl.right.eq]; exact h.alike.types
  have hplaces : (c₁.types.map index).Nodup := htypes ▸ hdesc.index_nodup
  have hplaces' : (c₁'.types.map index).Nodup := by
    rw [htypes', List.map_map]
    refine (List.map_congr_left fun d _ => ?_).symm ▸ hdesc.index_nodup
    show (ρ.ty d.type).declared.index = d.type.declared.index
    rw [Renaming.declared_ty, h.still]
  obtain ⟨c₂, hfinish⟩ := hl.left.generated.finishes hdesc helem hn hv
  obtain ⟨-, rfl⟩ := (finish_iff hplaces).mp hfinish
  have can : ∀ d ∈ c₁'.types, c₁'.module.CanFinish d.type := by
    rw [htypes', List.forall_mem_map]
    intro d hd
    obtain ⟨k, hk⟩ := List.mem_iff_getElem?.mp hd
    obtain ⟨e, ls, -, hdef, hopen, hls, -⟩ := hl.written hdesc hv h hk
    refine ⟨_, hdef, hopen, ?_⟩
    rw [Module.Seals, hmodule', show (c'.module.withDrafts f').backend = .textual from h.textual, ← hmodule']
    exact ⟨ls, hls⟩
  refine ⟨_, _, hfinish, (finish_iff hplaces').mpr ⟨can, rfl⟩, ?_⟩
  have hpairs : pairs c₁'.types = (pairs c₁.types).map (renamed ρ) := by rw [htypes', htypes, pairs_renamed]; rfl
  show List.Forall₂ _ (pairs c₁.types) (pairs c₁'.types)
  rw [hpairs, List.forall₂_map_right_iff, List.forall₂_same]
  exact fun y hy => hl.sameCode hdesc hv h (htypes ▸ hy)

end Finishing

/-! ### Compiling -/

/-- What the passes ahead of bodies do to a module is a sequence of edits. -/
theorem prepared_edits (h : (prepared p c).Gives c') : c.module.Edits c'.module := by
  obtain ⟨c₁, hcatalog, h⟩ := h.of_bind
  obtain ⟨c₂, hdeclare, hdescribe⟩ := h.of_bind
  rw [describe_module hdescribe.of_pass, ← enterCatalog_module hcatalog.of_pass.of_except]
  exact declare_edits hdeclare.of_pass

/-- The passes ahead of bodies leave a module that can be run and a listing in which bodies come to the same. -/
theorem prepared_paired {name runtime name' runtime' : Text} (hp : p.branches = false) (hd : ρ.Distinct) (hρ : ρ.Still)
    (halike : c.Alike ρ c') (hdesc : Described P p c₀ c) (helem : ∀ {e : Ty}, P (.array e) → P e)
    (hn : ∀ n ∈ p.typeNames, c₀.symbols.Names P n) (hv : ∀ {e : Ty}, P (.array e) → e.isVoid = false)
    (free : ∀ s ∈ p.sources, s.name.endsWith TypeName.arrayEnding = false)
    (hc : (prepared p (start (Module.new 0 .dynamic name runtime))).Gives c)
    (hc' : (prepared p (start (Module.new 0 .textual name' runtime'))).Gives c') : Paired P ρ c c' where
  alike := halike
  distinct := hd
  still := hρ
  textual := ((prepared_edits hc').listed (Module.listed_new 0 name' runtime')).textual
  provided := hdesc.provided (prepared_ready hc) helem hn
  ready := prepared_ready hc'
  listable y hy := by
    obtain ⟨hd, hx⟩ := mem_pairs.mp hy
    obtain ⟨k, hk⟩ := List.mem_iff_getElem?.mp hd
    exact hdesc.listable helem hv (Symbols.reachable_invariant.prepared .catalog hc).regular free hk hx
  straight y hy := by
    obtain ⟨hd, hx⟩ := mem_pairs.mp hy
    obtain ⟨k, hk⟩ := List.mem_iff_getElem?.mp hd
    obtain ⟨cd, e, m, z, hof⟩ := hdesc.member hk hx
    exact hof.straight hp

/-- A program without loops and choices that names no array of void, and declares no type under the name of an array,
    is compiled by both backends, or by neither and with the same code; and then each of its members has the same code
    in both. -/
theorem backends_agree {p : Program} {name runtime name' runtime' : Text} {isCanceled : Bool} (hp : p.branches = false)
    (free : ∀ s ∈ p.sources, s.name.endsWith TypeName.arrayEnding = false)
    (hvoid : ∀ n ∈ p.typeNames, ∀ t, typeNamed? p (start (Module.new 0 .dynamic name runtime)) n = some t →
      t.isVoidArray = false) :
    Logged.Agrees
      (fun c c' => List.Forall₂ (fun y y' => SameCode c.module c'.module y.2 y'.2) (pairs c.types) (pairs c'.types))
      (compile p .dynamic name runtime isCanceled) (compile p .textual name' runtime' isCanceled) := by
  refine .of_echoes ?_ (runUnder_echoes _ _ p) (runUnder_echoes _ _ p)
  cases isCanceled with
  | true => exact fun _ _ => .error rfl
  | false =>
    show Logged.Agrees _ (passes p _) (passes p _)
    rw [passes_eq, passes_eq, generated_eq, generated_eq, bind_assoc, bind_assoc]
    have hprepared := prepared_alike Renaming.between_still (Module.across_default name runtime name' runtime')
      (Module.new_began_across name runtime name' runtime') Renaming.between_distinct
      (Module.bodied_new (Q := (· = {})) rfl 0 .dynamic name runtime) p
    refine hprepared.bind_gives fun c c' halike hc hc' => ?_
    obtain ⟨c₀, hlaid, laid, hdescribed⟩ := prepared_described hc
    have hn := names_of_typeNamed hlaid hvoid
    have hdesc := hdescribed laid.not_voidArray hn
    have helem : ∀ {e : Ty}, (Ty.array e).isVoidArray = false → e.isVoidArray = false :=
      fun he => (Ty.of_not_voidArray he).2
    have hv : ∀ {e : Ty}, (Ty.array e).isVoidArray = false → e.isVoid = false := fun he => (Ty.of_not_voidArray he).1
    have hpaired := prepared_paired hp Renaming.between_distinct Renaming.between_still halike hdesc helem hn hv free hc hc'
    refine hpaired.generate.pass.bind ?_
    rintro c₁ c₁' ⟨f, f', hl⟩
    obtain ⟨c₂, c₂', hfinish, hfinish', hsame⟩ := hl.finish hdesc hv hpaired helem hn
    rw [hfinish, hfinish']
    exact .pass (.ofExcept (.ok hsame))

/-- A program that counts in a field, with a local, an array, a delegate and a statement behind a return. -/
def tallyProgram : Program where
  delegates := [{ name := "Step", ret := "int", params := [{ name := "n", type := "int" }] }]
  classes := [{
    name := "Tally"
    fields := [{ name := "sum", type := "int", isStatic := true, init := .missing }]
    ctors := []
    methods := [
      { name := "Add", isStatic := true, ret := "int", params := [{ name := "n", type := "int" }]
        body :=
          [.assign (.ident "sum") (.binary .add (.ident "sum") (.ident "n")), .return (.ident "sum"), .return (.int 1)] },
      { name := "Main", isStatic := true, ret := "void", params := []
        body := [.local "step" "Step" (.methodRef .missing "Add" ""), .local "row" "" (.newArray "int" (.int 3)),
          .assign (.index (.ident "row") (.int 0)) (.call (.ident "step") "Invoke" [.int 2])] }] }]

theorem backends_agree_tally : ∃ c c', (compile tallyProgram .dynamic "m" "v4" false).Gives c ∧
    (compile tallyProgram .textual "n" "mscorlib" false).Gives c' ∧
    List.Forall₂ (fun y y' => SameCode c.module c'.module y.2 y'.2) (pairs c.types) (pairs c'.types) := by
  have named : (tallyProgram.typeNames.all fun n =>
      (typeNamed? tallyProgram (start (Module.new 0 .dynamic "m" "v4")) n).all fun t => !t.isVoidArray) =
        true := by decide +kernel
  obtain ⟨c, hc⟩ :=
    Logged.gives_of_isOk (x := compile tallyProgram .dynamic "m" "v4" false) (j := default) (by decide +kernel)
  have hagrees := @backends_agree tallyProgram "m" "v4" "n" "mscorlib" false (by decide) (by decide) fun n hn t ht => by
    have := List.all_eq_true.mp named n hn
    rw [ht] at this
    simpa using this
  obtain ⟨c', hc', hsame⟩ := hagrees.gives hc
  exact ⟨c, c', hc, hc', hsame⟩

end Compilation
end CilCompiler
