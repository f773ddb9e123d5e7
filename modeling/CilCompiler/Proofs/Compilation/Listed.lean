import CilCompiler.Compiler
import CilCompiler.Proofs.Compilation.Steps
import CilCompiler.Proofs.Listing
import CilCompiler.Proofs.Typed.Work
import CilCompiler.Proofs.Module.Bodied
import Mathlib.Data.List.Nodup

/-! What a compilation does to its module. `Module.Edit` is one change: a definition, a name, a mark, a recorded body
    that ends by returning, or a finished type. A compilation that succeeds is a sequence of edits (`passes_edits`),
    so what every edit keeps holds of the module it leaves.

Listings of compiled programs. `Module.Listed` says of a textual module that its lines have been read without a flaw
and, if they hold the entry point, that the type of the entry point is finished. Every edit of a module keeps this
(`Edit.listed`), so the listing of a program that compiles passes the check of its shape (`check_listing`). -/

namespace CilCompiler

/-- One change that a compilation makes to its module. -/
inductive Module.Edit (m : Module) : Module → Prop
  | defineType {name attrs base t m'} : m.defineType name attrs base = .ok (t, m') → Edit m m'
  | defineField {t name type attrs f m'} : m.defineField t name type attrs = .ok (f, m') → Edit m m'
  | defineMethod {t name attrs ret params r m'} : m.defineMethod t name attrs ret params = .ok (r, m') → Edit m m'
  | defineConstructor {t attrs params r m'} : m.defineConstructor t attrs params = .ok (r, m') → Edit m m'
  | defineParameter {r position name m'} : m.defineParameter r position name = .ok m' → Edit m m'
  | setImplementation {r impl m'} : m.setImplementation r impl = .ok m' → Edit m m'
  | setEntryPoint {r m'} : m.setEntryPoint r = .ok m' → Edit m m'
  | setDraft (r) {D : Draft} : D.EndsInReturn → Edit m (m.setDraft r D)
  | createType {t m'} : m.createType t = (.ok (), m') → Edit m m'

/-- Any number of changes. -/
def Module.Edits : Module → Module → Prop := Relation.ReflTransGen Module.Edit

namespace Module.Edits
variable {m m₁ m' : Module}

theorem refl (m : Module) : m.Edits m := Relation.ReflTransGen.refl

theorem trans (h : m.Edits m₁) (h' : m₁.Edits m') : m.Edits m' := Relation.ReflTransGen.trans h h'

theorem of_edit (h : m.Edit m') : m.Edits m' := Relation.ReflTransGen.single h

end Module.Edits

/-! ### Bodies end by returning -/

namespace Lower
variable {c : Scope} {w w' : Work}

theorem emit_ret_ends {u : Unit} (h : emit (.plain .ret) c w = .ok (u, w')) : w'.draft.EndsInReturn := by
  obtain ⟨i, hi, hcode, -⟩ := emit_pushes h
  have hlong : i = { op := .ret } := by
    simp only [Emission.encode] at hi
    split at hi
    · cases hi
    · obtain ⟨_, -, hi⟩ := bind_eq_ok.mp hi
      cases hi
      rfl
  refine .inr ?_
  rw [hcode, hlong, Array.back?_push]

theorem returnStmt_ends {e : Expr} {u : Unit} (h : returnStmt e c w = .ok (u, w')) : w'.draft.EndsInReturn := by
  simp only [returnStmt, bind_ok, read_ok, ite_ok, fail_ok, and_false, false_or, or_false] at h
  obtain ⟨_, _, ⟨rfl, rfl⟩, ⟨-, -, h⟩ | ⟨-, -, _, _, -, _, _, -, h⟩⟩ := h
  · exact emit_ret_ends h
  · exact emit_ret_ends h

/-- The statements of a body that ends in a return statement. -/
theorem block_ends {body : List Stmt} (hb : endsInReturn body = true) {u : Unit} (h : block body c w = .ok (u, w')) :
    w'.draft.EndsInReturn := by
  induction body generalizing w with
  | nil => cases hb
  | cons s rest ih =>
    simp only [block, bind_ok] at h
    obtain ⟨_, w₁, hs, hrest⟩ := h
    cases rest with
    | nil =>
      cases s with
      | «return» e =>
        simp only [block, pure_ok] at hrest
        obtain ⟨-, rfl⟩ := hrest
        exact returnStmt_ends hs
      | _ => cases hb
    | cons s' rest => exact ih (by simpa [endsInReturn] using hb) hrest

theorem statements_ends {body : List Stmt} (h : statements body c w = .ok (false, w')) : w'.draft.EndsInReturn := by
  simp only [statements, bind_ok, read_ok, ite_ok, fail_ok, pure_ok, and_false, or_false,
      Bool.true_eq_false, false_and] at h
  obtain ⟨_, _, hblock, _, _, ⟨rfl, rfl⟩, hb, -, rfl⟩ := h
  exact block_ends hb hblock

theorem constructor_ends {inits : List (Field × Expr)} {body : List Stmt}
    (h : constructor inits body c w = .ok (false, w')) :
    w'.draft.EndsInReturn := by
  simp only [constructor, bind_ok] at h
  obtain ⟨_, _, -, _, _, -, h⟩ := h
  exact statements_ends h

end Lower

/-! ### Passes -/

namespace Compilation
variable {c c' : Compilation}

theorem defineType_edits {src : Declaration} {attrs : TypeAttributes} {base : Option Ty}
    (h : c.defineType src attrs base = .ok c') :
    c.module.Edits c'.module := by
  unfold defineType at h
  dsimp only at h
  split at h
  · cases h
  · split at h
    · cases h
    · obtain ⟨⟨t, m⟩, h1, h⟩ := bind_eq_ok.mp h
      obtain ⟨s, -, h⟩ := bind_eq_ok.mp h
      cases h
      exact .of_edit (.defineType h1)

theorem foldlM_edits {α : Type} {f : Compilation → α → Except Fault Compilation} {l : List α}
    (step : ∀ {c c' : Compilation} {a : α}, f c a = .ok c' → c.module.Edits c'.module) (h : l.foldlM f c = .ok c') :
    c.module.Edits c'.module := by
  induction l generalizing c with
  | nil =>
    cases h
    exact .refl _
  | cons a l ih =>
    obtain ⟨c₁, h1, h2⟩ := foldlM_cons_ok h
    exact (step h1).trans (ih h2)

theorem defineTypes_edits {p : Program} (h : c.defineTypes p = .ok c') : c.module.Edits c'.module := by
  obtain ⟨c₁, h1, h2⟩ := bind_eq_ok.mp h
  exact (foldlM_edits defineType_edits h1).trans (foldlM_edits defineType_edits h2)

/-- A step of declaring the members of a type changes the module by one edit at most. -/
theorem Step.edits {t : Ty} (h : Step t c c') : c.module.Edits c'.module := by
  cases h with
  | lookup h => rw [lookup_module h]; exact .refl _
  | defineField h => exact .of_edit (.defineField h)
  | defineMethod h => exact .of_edit (.defineMethod h)
  | defineConstructor h => exact .of_edit (.defineConstructor h)
  | defineParameter _ h => exact .of_edit (.defineParameter h)
  | setImplementation _ h => exact .of_edit (.setImplementation h)
  | registerField | registerMethod | registerConstructor => exact .refl _

theorem declareType_edits {d d' : DeclaredType} (h : c.declareType d = .ok (d', c')) : c.module.Edits c'.module :=
  (declareType_steps h).keeps (P := fun c' => c.module.Edits c'.module) (fun hstep h => h.trans hstep.edits) (.refl _)

theorem declareTypes_edits {ds ds' : List DeclaredType} (h : (c.declareTypes ds).Gives (ds', c')) :
    c.module.Edits c'.module := by
  induction ds generalizing c ds' with
  | nil =>
    cases h.of_pure
    exact .refl _
  | cons d ds ih =>
    obtain ⟨⟨d₁, c₁⟩, h1, h⟩ := h.of_bind
    obtain ⟨⟨rest, c₂⟩, h2, h⟩ := h.of_bind
    cases h.of_pure
    exact (declareType_edits h1.of_declareNext).trans (ih h2)

theorem considerEntry_edits {x : Member} (h : c.considerEntry x = .ok c') : c.module.Edits c'.module := by
  unfold considerEntry at h
  dsimp only at h
  split at h
  · cases h
    exact .refl _
  · split at h
    · cases h
    · split at h
      · cases h
      · obtain ⟨m, h1, h⟩ := bind_eq_ok.mp h
        cases h
        exact .of_edit (.setEntryPoint h1)

theorem declare_edits {p : Program} (h : (declare p c).Gives c') : c.module.Edits c'.module := by
  obtain ⟨s, -, h⟩ := h.of_bind
  obtain ⟨c₁, h1, h⟩ := h.of_bind
  obtain ⟨⟨ds, c₂⟩, h2, h⟩ := h.of_bind
  have hentry := h.of_except
  unfold findEntry at hentry
  have hfind := foldlM_edits (f := considerEntry) considerEntry_edits hentry
  exact ((defineTypes_edits h1.of_except).trans (declareTypes_edits h2)).trans hfind

theorem describeDelegates_module {ds : List DeclaredType} (h : (c.describeDelegates ds).Gives c') :
    c'.module = c.module := by
  induction ds generalizing c with
  | nil => rw [h.of_pure]
  | cons d ds ih =>
    unfold describeDelegates at h
    split at h
    · exact ih h
    · obtain ⟨s, -, h⟩ := h.of_bind
      obtain ⟨_, -, h⟩ := h.of_bind
      obtain ⟨_, -, h⟩ := h.of_bind
      have hmodule := ih h
      exact hmodule

theorem describe_module (h : c.describe.Gives c') : c'.module = c.module := by
  obtain ⟨c₁, h1, h⟩ := h.of_bind
  obtain ⟨s, -, h⟩ := h.of_bind
  have hmodule := describeDelegates_module h1
  cases h.of_pure
  exact hmodule

/-- The body of a member is recorded at once, and ends by returning. -/
theorem recordBody_edits {d : DeclaredType} {x : Member} (h : recordBody d c x = .ok c') : c.module.Edits c'.module := by
  obtain ⟨w', hbody, rfl⟩ := recordBody_ok.mp h
  obtain ⟨b, w, hl, ⟨rfl, rfl⟩ | ⟨-, hret⟩⟩ := memberBody_ok.mp hbody
  · refine .of_edit (.setDraft _ ?_)
    unfold lowerMember at hl
    dsimp only at hl
    split at hl
    · exact Lower.constructor_ends hl
    · exact Lower.statements_ends hl
  · exact .of_edit (.setDraft _ (Lower.emit_ret_ends hret))

theorem recordBodies_edits {d : DeclaredType} (h : c.recordBodies d = .ok c') : c.module.Edits c'.module :=
  foldlM_edits recordBody_edits h

theorem generate_edits (h : c.generate.Gives c') : c.module.Edits c'.module :=
  foldlM_edits recordBodies_edits ((generate_runs c).of_gives h)

theorem finishType_edits {d : DeclaredType} (h : c.finishType d = .ok c') : c.module.Edits c'.module := by
  unfold finishType at h
  split at h
  · rename_i m hm
    cases h
    exact .of_edit (.createType hm)
  · cases h

theorem enterCatalog_module (h : c.enterCatalog = .ok c') : c'.module = c.module := by
  obtain ⟨_, -, h⟩ := bind_eq_ok.mp h
  obtain ⟨_, -, h⟩ := bind_eq_ok.mp h
  cases h
  rfl

/-- A compilation is a sequence of edits of its module. -/
theorem passes_edits {p : Program} (h : (passes p c).Gives c') : c.module.Edits c'.module := by
  obtain ⟨c₁, hcatalog, h⟩ := h.of_bind
  obtain ⟨c₂, hdeclare, h⟩ := h.of_bind
  obtain ⟨c₃, hdescribe, h⟩ := h.of_bind
  obtain ⟨c₄, hgenerate, hfinish⟩ := h.of_bind
  have hentered := enterCatalog_module hcatalog.of_pass.of_except
  have hdescribed := describe_module hdescribe.of_pass
  have hgenerated := generate_edits hgenerate.of_pass
  rw [hdescribed] at hgenerated
  rw [← hentered]
  exact ((declare_edits hdeclare.of_pass).trans hgenerated).trans (foldlM_edits finishType_edits hfinish.of_pass.of_except)

/-- What is compiled has been a module with the catalog only, before the edits. -/
theorem compile_edits {p : Program} {backend : Backend} {name runtime : Text} {isCanceled : Bool}
    (h : (compile p backend name runtime isCanceled).Gives c) : (Module.new 0 backend name runtime).Edits c.module := by
  have hrun := h.of_echoes (runUnder_echoes _ _ p)
  cases isCanceled with
  | true =>
    obtain ⟨j, j', hrun⟩ := hrun
    cases hrun
  | false => exact passes_edits hrun

end Compilation

open Listing

/-- The lines of a module have been read without a flaw; an entry point among them belongs to a finished type. -/
structure Module.Listed (m : Module) : Prop where
  textual : m.backend = .textual
  bodied : m.Bodied Draft.EndsInReturn
  lines : ∃ e ≤ 1, Reads m.lines.toList {} ⟨0, e, none⟩ ∧
    (e = 1 → ∃ r d, m.entry = some r ∧ m.types[r.owner.declared.index]? = some d ∧ d.isCreated = true)

variable {m m' : Module} {d : TypeDef} {i : Nat}

/-! ### Definitions -/

/-- Of members with different references, one is listed as the entry point at most. -/
theorem Module.countP_listsEntry (m : Module) {xs : List Routine} (h : (xs.map Routine.method).Nodup) :
    xs.countP m.listsEntry ≤ 1 := by
  cases he : m.entry with
  | none =>
    rw [List.countP_eq_zero.mpr fun x _ => by simp [Module.listsEntry, he]]
    omega
  | some r =>
    have hcount : xs.countP m.listsEntry ≤ (xs.map Routine.method).count r := by
      rw [List.count, List.countP_map]
      refine List.countP_mono_left fun x _ hx => ?_
      simp only [Module.listsEntry, he, Option.some.injEq, decide_eq_true_eq] at hx
      simp [hx.2]
    exact Nat.le_trans hcount (List.nodup_iff_count_le_one.mp h r)

namespace TypeDef

/-- A type lists the entry point once at most. -/
theorem Placed.countP_listsEntry (h : d.Placed i) (m : Module) : d.routines.countP m.listsEntry ≤ 1 :=
  m.countP_listsEntry h.methods_pairwise

/-- A type that lists the entry point is the type of the entry point. -/
theorem Placed.entry (h : d.Placed i) {m : Module} (hm : 0 < d.routines.countP m.listsEntry) :
    ∃ r, m.entry = some r ∧ r.owner.declared.index = i := by
  obtain ⟨x, hx, hlists⟩ := List.countP_pos_iff.mp hm
  simp only [Module.listsEntry, decide_eq_true_eq] at hlists
  exact ⟨x.method, hlists.2, h.owner hx⟩

end TypeDef

/-! ### Edits -/

namespace Module

/-- A definition is replaced by another that stays finished if it was. -/
theorem Listed.modifyDef (h : m.Listed) {t : Ty} {f : TypeDef → TypeDef} (hb : (m.modifyDef t f).Bodied Draft.EndsInReturn)
    (hf : ∀ d, d.isCreated = true → (f d).isCreated = true) : (m.modifyDef t f).Listed where
  textual := h.textual
  bodied := hb
  lines := by
    obtain ⟨e, hle, hreads, hentry⟩ := h.lines
    refine ⟨e, hle, hreads, fun he => ?_⟩
    obtain ⟨r, d, hr, hd, hc⟩ := hentry he
    simp only [Module.modifyDef, Array.getElem?_modify]
    by_cases hi : t.declared.index = r.owner.declared.index
    · exact ⟨r, f d, hr, by simp [hi, hd], hf d hc⟩
    · exact ⟨r, d, hr, by simp [hi, hd], hc⟩

theorem Listed.modifyRoutine (h : m.Listed) {r : Method} {f : Routine → Routine}
    (hb : (m.modifyRoutine r f).Bodied Draft.EndsInReturn) :
    (m.modifyRoutine r f).Listed :=
  h.modifyDef hb fun d hc => by rw [TypeDef.isCreated_modifyRoutine]; exact hc

theorem Listed.defineType (h : m.Listed) {name : Text} {attrs : TypeAttributes} {base : Option Ty} {t : Ty}
    (hd : m.defineType name attrs base = .ok (t, m')) : m'.Listed := by
  have hb := h.bodied.defineType hd
  unfold Module.defineType at hd
  split at hd
  · cases hd
  · cases hd
    refine ⟨h.textual, hb, ?_⟩
    obtain ⟨e, hle, hreads, hentry⟩ := h.lines
    refine ⟨e, hle, hreads, fun he => ?_⟩
    obtain ⟨r, d, hr, hd, hc⟩ := hentry he
    have hlt := (Array.getElem?_eq_some_iff.mp hd).1
    exact ⟨r, d, hr, by rw [Array.getElem?_push, if_neg (by omega)]; exact hd, hc⟩

theorem Listed.setEntryPoint (h : m.Listed) {r : Method} (hr : m.setEntryPoint r = .ok m') : m'.Listed := by
  unfold Module.setEntryPoint at hr
  repeat' split at hr
  all_goals cases hr
  · exact h
  · rename_i hnone
    refine ⟨h.textual, h.bodied.of_types rfl, ?_⟩
    obtain ⟨e, hle, hreads, hentry⟩ := h.lines
    refine ⟨e, hle, hreads, fun he => ?_⟩
    obtain ⟨r', d, hr', -⟩ := hentry he
    rw [hnone] at hr'
    cases hr'

/-- Finishing a type writes its class block behind the lines there are. -/
theorem Listed.createType (h : m.Listed) {t : Ty} (ht : m.createType t = (.ok (), m')) : m'.Listed := by
  unfold Module.createType at ht
  split at ht
  · cases ht
  rename_i d hopen
  obtain ⟨hdef, hcreated⟩ := open?_ok hopen
  have hget := (def?_some hdef).1
  have hd := h.bodied.types hget
  rw [h.textual] at ht
  dsimp only at ht
  split at ht
  · rename_i m₁ hwrite
    cases ht
    unfold writeType at hwrite
    split at hwrite
    · cases hwrite
    obtain ⟨block, hblock, hwrite⟩ := bind_eq_ok.mp hwrite
    cases hwrite
    rw [hdef, Option.getD_some] at hblock
    obtain ⟨e, hle, hreads, hentry⟩ := h.lines
    have hnew : Reads (m.lines ++ block.toArray).toList {} ⟨0, e + d.routines.countP m.listsEntry, none⟩ := by
      rw [Array.toList_append]
      exact hreads.append (m.reads_class hd.bodies hblock e)
    have hone := hd.placed.countP_listsEntry m
    -- A type that lists the entry point was open till now, so no other has listed it.
    have hfirst : d.routines.countP m.listsEntry = 1 → e = 0 := by
      intro hcount
      obtain ⟨r, hr, hi⟩ := hd.placed.entry (m := m) (by omega)
      by_contra hne
      obtain ⟨r', d', hr', hd', hc⟩ := hentry (by omega)
      rw [hr] at hr'
      cases hr'
      rw [hi, hget] at hd'
      cases hd'
      rw [hcreated] at hc
      cases hc
    refine ⟨h.textual, ?_, e + d.routines.countP m.listsEntry, by omega, hnew, fun he => ?_⟩
    · have hb : ({ m with lines := m.lines ++ block.toArray }).Bodied Draft.EndsInReturn := h.bodied.of_types rfl
      exact hb.modifyDef fun _ hd => hd.withCreated true
    · have done : ∀ {r : Method}, r.owner.declared.index = t.declared.index →
          (m.types.modify t.declared.index fun d => { d with isCreated := true })[r.owner.declared.index]? =
            some { d with isCreated := true } := by
        intro r hi
        rw [Array.getElem?_modify, if_pos hi.symm, hi, hget]
        rfl
      by_cases hcount : d.routines.countP m.listsEntry = 1
      · obtain ⟨r, hr, hi⟩ := hd.placed.entry (m := m) (by omega)
        exact ⟨r, _, hr, done hi, rfl⟩
      · obtain ⟨r, d', hr, hd', hc⟩ := hentry (by omega)
        by_cases hi : r.owner.declared.index = t.declared.index
        · exact ⟨r, _, hr, done hi, rfl⟩
        · exact ⟨r, d', hr, by simp only [Module.modifyDef, Array.getElem?_modify, if_neg (Ne.symm hi)]; exact hd', hc⟩
  · cases ht

theorem endsInReturn_blank : ({} : Draft).EndsInReturn := .inl rfl

/-- One edit keeps a listing readable. -/
theorem Edit.listed (h : m.Listed) (he : m.Edit m') : m'.Listed := by
  cases he with
  | defineType hd => exact h.defineType hd
  | defineField hf =>
    have hb := h.bodied.defineField hf
    obtain ⟨d, -, hf⟩ := bind_eq_ok.mp hf
    cases hf
    exact h.modifyDef hb fun _ hc => hc
  | defineMethod hr =>
    have hb := h.bodied.defineMethod endsInReturn_blank hr
    obtain ⟨d, -, hr⟩ := bind_eq_ok.mp hr
    cases hr
    exact h.modifyDef hb fun _ hc => hc
  | defineConstructor hr =>
    have hb := h.bodied.defineConstructor endsInReturn_blank hr
    obtain ⟨d, -, hr⟩ := bind_eq_ok.mp hr
    cases hr
    exact h.modifyDef hb fun _ hc => hc
  | defineParameter hp =>
    have hb := h.bodied.defineParameter hp
    unfold Module.defineParameter at hp
    split at hp
    · cases hp
    · cases hp
      exact h.modifyRoutine hb
  | setImplementation hi =>
    have hb := h.bodied.setImplementation hi
    obtain ⟨d, -, hi⟩ := bind_eq_ok.mp hi
    cases hi
    exact h.modifyRoutine hb
  | setEntryPoint hr => exact h.setEntryPoint hr
  | setDraft r hD => exact h.modifyRoutine (h.bodied.modifyRoutine (fun _ => rfl) fun _ _ => hD)
  | createType ht => exact h.createType ht

/-- Edits keep a listing readable. -/
theorem Edits.listed (h : m.Listed) (he : m.Edits m') : m'.Listed := by
  induction he with
  | refl => exact h
  | tail _ hedit ih => exact hedit.listed ih

/-! ### The catalog -/

/-- The module with the catalog only has a header. -/
theorem listed_new (id : Nat) (name runtime : Text) : (Module.new id .textual name runtime).Listed where
  textual := rfl
  bodied := bodied_new endsInReturn_blank id .textual name runtime
  lines := by
    refine ⟨0, by omega, reads_outside (fun l hl => ?_) rfl, by simp⟩
    simp only [Module.new, Module.header, List.mem_cons, List.not_mem_nil, or_false] at hl
    rcases hl with rfl | rfl | rfl
    all_goals exact plain_join (by decide) _

end Module

/-- The listing of a program that compiles has the shape of a listing. -/
theorem Compilation.check_listing {p : Program} {name runtime : Text} {isCanceled : Bool} {c : Compilation}
    (h : (compile p .textual name runtime isCanceled).Gives c) : Listing.check c.module.lines.toList = .ok () := by
  have hlisted : c.module.Listed := (compile_edits h).listed (Module.listed_new 0 name runtime)
  obtain ⟨e, hle, hreads, -⟩ := hlisted.lines
  rw [Listing.check, hreads 1]
  have hfew : ¬1 < e := by omega
  simp [bind, Except.bind, hfew]

/-- A program with an entry point, a field that is initialized, a delegate, and names and literals that look like parts of a
    listing. -/
def Compilation.listedProgram : Program where
  delegates := [{ name := "\x7d", ret := "string", params := [{ name := "method", type := "int" }] }]
  classes := [{
    name := ".method \x7b"
    fields := [{ name := ".entrypoint", type := "int", isStatic := false, init := .int 3 }]
    ctors := []
    methods := [
      { name := "ret", isStatic := true, ret := "string", params := [{ name := "n", type := "int" }]
        body := [.local "d" "\x7d" (.methodRef .missing "ret" ""), .return (.string " \x7d\n.method \x7b")] },
      { name := "Main", isStatic := true, ret := .empty, params := []
        body := [.expr (.call (.ident "Console") "WriteLine" [.call .missing "ret" [.int 1]])] }] }]

theorem Compilation.check_listing_lookalikes : ∃ c, (compile listedProgram .textual "m" "runtime managed" false).Gives c ∧
    Listing.check c.module.lines.toList = .ok () := by
  obtain ⟨c, hc⟩ := Logged.gives_of_isOk (x := compile listedProgram .textual "m" "runtime managed" false) (j := default)
    (by decide +kernel)
  exact ⟨c, hc, check_listing hc⟩

end CilCompiler
