import CilCompiler.Proofs.Machine.Cells
import CilCompiler.Proofs.Machine.VerifiedStack
import CilCompiler.Proofs.Module.Unfinished

/-! Calls of members of unfinished types. A member without a body is refused wherever it is called, through delegates
    as well, and changes nothing (`Reaches.enter`); no frame is ever its own (`run_bodied`). In an unfinished type
    these are all members but those that were verified when finishing the type failed (`unfinished_runs_nothing`),
    which do run (`unfinished_runs_checked`). -/

namespace CilCompiler
namespace Machine

/-- The halt of a call of a member whose type is not finished. -/
def notFinalized (r : Method) : Halt := .fault (.backend (.memberNotFinalized r.owner.name r.name))

/-- A call reaches a member: it is of the member itself, or of a delegate whose method leads to it. -/
inductive Reaches (m : Machine) (w : World) (r : Method) : (levels : Nat) → Method → List Value → Prop
  | direct {levels : Nat} {args : List Value} : Reaches m w r (levels + 1) r args
  | delegate {levels id : Nat} {q target : Method} {x : Routine} {self : Value} {rest args : List Value} {o : Obj} :
      m.routine? q = some x → x.native = none → x.impl = .runtime → q.name = Method.invokeName →
        w.heap.deref self = .obj id →
      w.heap.objects[id]? = some o → o.method = some target →
      (target.isStatic = true ∧ args = rest ∨ target.isStatic = false ∧ o.target.isNull = false ∧ args = o.target :: rest) →
      Reaches m w r levels target args → Reaches m w r (levels + 1) q (self :: rest)

variable {m : Machine} {w : World} {r : Method} {x : Routine}

/-- Calls that reach a member without a body are refused and change nothing. -/
theorem Reaches.enter (hx : m.routine? r = some x) (hnative : x.native = none) (himpl : x.impl ≠ .runtime)
    (hbody : x.body = none)
    (hopen : (m.def? r.owner).any TypeDef.isCreated = false) {levels : Nat} {q : Method} {args : List Value}
    (h : m.Reaches w r levels q args) (use : ResultUse) : m.enter use levels q args w = (.halt (notFinalized r), w) := by
  induction h with
  | direct =>
    unfold Machine.enter
    simp only [hx, hnative, himpl, hbody, hopen, Bool.false_eq_true, if_false]
    rfl
  | delegate hq hqnative hqimpl hname hself ho htarget hargs _ ih =>
    have hctor : Method.invokeName ≠ Method.ctorName := by decide
    unfold Machine.enter
    simp only [hq, hqnative, hqimpl, hname, hself, ho, htarget, hctor, if_true, if_false]
    rcases hargs with ⟨hstatic, rfl⟩ | ⟨hstatic, htarget, rfl⟩
    · simp only [hstatic, if_true]
      exact ih
    · simp only [hstatic, htarget, Bool.false_eq_true, if_false]
      exact ih

/-! ### Frames -/

/-- The frame runs the body of a member. -/
def Bodied (m : Machine) (f : Frame) : Prop := ∃ x, m.routine? f.method = some x ∧ x.body = some f.body

theorem enter_bodied {use : ResultUse} {levels : Nat} {args : List Value} {w' : World} {f : Frame}
    (h : m.enter use levels r args w = (.frame f, w')) : m.Bodied f := by
  induction levels generalizing r args with
  | zero => cases h
  | succ levels ih =>
    unfold Machine.enter at h
    split at h
    · cases h
    rename_i x hx
    split at h
    · split at h <;> cases h
    split at h
    · split at h
      · cases h
      split at h
      · split at h
        · cases h
        split at h
        · unfold bindDelegate at h
          split at h <;> cases h
        split at h
        · split at h
          · cases h
          split at h
          · exact ih h
          split at h
          · cases h
          · exact ih h
        · cases h
      · cases h
    · split at h
      · rename_i b hb
        cases h
        exact ⟨x, hx, hb⟩
      · split at h <;> cases h

theorem bodied_carries (m : Machine) : m.Carries m.Bodied where
  moved h := h
  entered _ h := enter_bodied h

theorem run_bodied (fuel : Nat) {p : Progress} (h : p.Each m.Bodied) : (m.run fuel p).Each m.Bodied :=
  run_each m.bodied_carries fuel h

theorem Beginning.bodied {p : Progress} (h : m.Beginning p) : p.Each m.Bodied := by
  cases h with
  | call use levels r args w => exact proceed_each m.bodied_carries (fun f hf => by cases hf) enter_bodied _
  | invoke w r args => exact invoke_each m.bodied_carries ..
  | construct w t args => exact construct_each m.bodied_carries ..
  | start w => exact start_each m.bodied_carries _

/-! ### Unfinished types -/

/-- A member of an unfinished type that has code has a body exactly if it was verified by a call that failed to finish
    the type. If there was none, a run ends where a call reaches it, with no change, and no run has a frame of it. If
    there was one, it runs. From outside it is refused in any case. -/
theorem unfinished_runs_nothing {mod : Module} {past : List Module} {id : Nat} {d : TypeDef}
    (h : Module.History id (mod :: past))
    (hm : m.modules[r.owner.module]? = some mod) (hd : mod.def? r.owner = some d) (hopen : d.isCreated = false)
    (hx : d.routine? r = some x) (himpl : x.impl ≠ .runtime) :
    (x.body = none ↔ ¬Module.CheckedInVain (mod :: past) r) ∧
      (x.body = none → (∀ frames steps use levels q args w, m.Reaches w r levels q args →
          proceed frames steps use (m.enter use levels q args w) = .halted (notFinalized r) w) ∧
        ∀ p, m.Beginning p → ∀ fuel s, m.run fuel p = .running s → ∀ f ∈ s.frames, f.method ≠ r) ∧
      (∀ b, x.body = some b → ∀ use levels args w, ∃ f w',
        m.enter use (levels + 1) r args w = (.frame f, w') ∧ f.body = b) ∧
      ∀ args w, m.invoke w r args = .halted (notFinalized r) w := by
  obtain ⟨hnative, hbody⟩ := h.body_iff hd hopen hx
  have hdef : m.def? r.owner = some d := by rw [Machine.def?, hm]; exact hd
  have hroutine : m.routine? r = some x := by
    rw [Machine.routine?, hm, Option.bind_some, Module.routine?, hd]
    exact hx
  have hcreated : (m.def? r.owner).any TypeDef.isCreated = false := by rw [hdef]; exact hopen
  refine ⟨not_not.symm.trans (not_congr hbody), fun hnone => ⟨?_, ?_⟩, ?_, ?_⟩
  · intro frames steps use levels q args w hreaches
    rw [hreaches.enter hroutine hnative himpl hnone hcreated use]
    rfl
  · intro p hp fuel s hs f hf hfr
    have hall := run_bodied fuel hp.bodied
    rw [hs] at hall
    obtain ⟨y, hy, hb⟩ := hall f hf
    rw [hfr, hroutine] at hy
    cases hy
    rw [hnone] at hb
    cases hb
  · intro b hb use levels args w
    refine ⟨(frameFor w r b args levels use).1, (frameFor w r b args levels use).2, ?_, rfl⟩
    unfold Machine.enter
    simp only [hroutine, hnative, himpl, hb, if_false]
  · intro args w
    unfold Machine.invoke
    simp only [hcreated]
    rfl

/-! Two types: a method of the second calls one of the first. -/

namespace Caller

/-- A call on the module under construction. -/
inductive Step where
  | type (name : Text)
  | method (t : Ty) (name : Text)
  | emit (r : Method) (e : Emission)
  | finish (t : Ty)

def int : Option Ty := (Module.new 0 .dynamic "M" "").type? TypeName.int32

def Step.next (m : Module) : Step → Module
  | .type name => ((m.defineType name ⟨1⟩ none).map Prod.snd).toOption.getD m
  | .method t name => ((m.defineMethod t name .statics int []).map Prod.snd).toOption.getD m
  | .emit r e => (m.emit r e).2
  | .finish t => (m.createType t).2

def declares (m : Module) (t : Ty) : Bool := (m.def? t).any fun d => d.type = t

def has (m : Module) (r : Method) : Bool := (m.routine? r).any fun x => x.method = r

/-- Whether a call is possible: it succeeds, or its references are known. -/
def Step.fits (m : Module) : Step → Bool
  | .type name => (m.defineType name ⟨1⟩ none).isOk
  | .method t name => declares m t && (m.defineMethod t name .statics int []).isOk
  | .emit r (.method _ q) => has m r && has m q && !q.isCtor
  | .emit r (.int ..) | .emit r (.plain _) => has m r
  | .emit .. => false
  | .finish t => declares m t

theorem has_iff {m : Module} {r : Method} : has m r = true ↔ m.Has r := by
  simp [has, Module.Has, Option.any_eq_true]

theorem declares_iff {m : Module} {t : Ty} : declares m t = true ↔ m.Declares t := by
  simp [declares, Module.Declares, Option.any_eq_true]

theorem ok_of_isOk {m : Module} {α : Type} {y : Except Fault (α × Module)} (h : y.isOk = true) :
    ∃ a, y = .ok (a, (y.map Prod.snd).toOption.getD m) := by
  cases y with
  | error f => cases h
  | ok a => exact ⟨a.1, rfl⟩

theorem Step.change {m : Module} {s : Step} (h : s.fits m = true) : m.Change (s.next m) := by
  cases s with
  | type name =>
    obtain ⟨t, ht⟩ := ok_of_isOk (m := m) h
    exact .defineType ht
  | method t name =>
    obtain ⟨hd, hok⟩ := Bool.and_eq_true_iff.mp h
    obtain ⟨r, hr⟩ := ok_of_isOk (m := m) hok
    exact .defineMethod (declares_iff.mp hd) hr
  | emit r e =>
    cases e with
    | method op q =>
      simp only [fits, Bool.and_eq_true, Bool.not_eq_true'] at h
      exact .emit _ (has_iff.mp h.1.1) ⟨h.2, fun _ => has_iff.mp h.1.2⟩
    | int op v => exact .emit _ (has_iff.mp h) trivial
    | plain op => exact .emit _ (has_iff.mp h) trivial
    | _ => cases h
  | finish t => exact .createType (declares_iff.mp h)

/-- The modules that calls lead to, the last one first, unless one of the calls is not possible. -/
def modules : List Step → Option (List Module)
  | [] => some [.new 0 .dynamic "M" ""]
  | s :: earlier =>
    match modules earlier with
    | some (m :: past) => if s.fits m then some (s.next m :: m :: past) else none
    | _ => none

theorem history {steps : List Step} {ms : List Module} (h : modules steps = some ms) : Module.History 0 ms := by
  induction steps generalizing ms with
  | nil =>
    cases h
    exact .new _ _
  | cons s earlier ih =>
    unfold modules at h
    split at h
    · rename_i m past hpast
      split at h
      · cases h
        exact (ih hpast).change (Step.change ‹_›)
      · cases h
    · cases h

def called : Ty := .root { module := 0, index := Module.hostCount, assembly := "M", name := "A", isValue := false }

def caller : Ty := .root { module := 0, index := Module.hostCount + 1, assembly := "M", name := "B", isValue := false }

def seven : Method :=
  { owner := called, isCtor := false, index := 0, name := "Seven", attrs := .statics, params := [], ret := int }

def main : Method :=
  { owner := caller, isCtor := false, index := 0, name := "Main", attrs := .statics, params := [], ret := int }

/-- Calls that give the first type a method, the last one first. -/
def defined : List Step := [.emit seven (.plain .ret), .emit seven (.int .ldc 7), .method called "Seven", .type "A"]

/-- Calls that fail to finish the first type, for it has a method without code. -/
def failed : List Step := [.finish called, .method called "Empty"]

/-- Calls that define and finish the second type. -/
def finished : List Step :=
  [.finish caller, .emit main (.plain .ret), .emit main (.method .call seven), .method caller "Main", .type "B"]

def machine (mod : Module) : Machine := { modules := #[mod], module := 0, maxDepth := 8, isCanceled := false }

/-- The beginning of a run of the second type's method. -/
def begun (mod : Module) : Progress := (machine mod).invoke (.initial 1 []) main []

/-- The modules that calls lead to, where the first type is not finished and its method is as given. -/
theorem made (steps : List Step) {p : Module → Routine → Bool}
    (h : ((modules steps).any fun ms => ms.head?.any fun mod => (mod.def? called).any fun d =>
      !d.isCreated && (d.routine? seven).any fun x => decide (x.impl ≠ .runtime) && p mod x) = true) :
    ∃ mod past d x, Module.History 0 (mod :: past) ∧ mod.def? called = some d ∧ d.isCreated = false ∧
      d.routine? seven = some x ∧
      x.impl ≠ .runtime ∧ p mod x = true := by
  obtain ⟨ms, hms, h⟩ := (Option.any_eq_true _ _).mp h
  obtain ⟨mod, hmod, h⟩ := (Option.any_eq_true _ _).mp h
  obtain ⟨d, hd, h⟩ := (Option.any_eq_true _ _).mp h
  obtain ⟨hopen, h⟩ := Bool.and_eq_true_iff.mp h
  obtain ⟨x, hx, h⟩ := (Option.any_eq_true _ _).mp h
  obtain ⟨himpl, hp⟩ := Bool.and_eq_true_iff.mp h
  obtain ⟨past, rfl⟩ := List.head?_eq_some_iff.mp hmod
  exact ⟨mod, past, d, x, history hms, hd, by simpa using hopen, hx, of_decide_eq_true himpl, hp⟩

def isHalted (h : Halt) : Progress → Bool
  | .halted h' _ => h' = h
  | _ => false

def isDone (v : Value) : Progress → Bool
  | .done v' _ => v' = v
  | _ => false

end Caller

/-- The method of the second type runs, and stops at the call. -/
theorem unfinished_runs_nothing_called : ∃ mod past x, Module.History 0 (mod :: past) ∧ mod.routine? Caller.seven = some x ∧
    x.draft.code.size = 2 ∧ ¬Module.CheckedInVain (mod :: past) Caller.seven ∧
    Caller.isHalted (notFinalized Caller.seven) ((Caller.machine mod).run 9 (Caller.begun mod)) = true ∧
    ∀ fuel s, (Caller.machine mod).run fuel (Caller.begun mod) = .running s → ∀ f ∈ s.frames, f.method ≠ Caller.seven := by
  obtain ⟨mod, past, d, x, h, hd, hopen, hx, himpl, hp⟩ := Caller.made (Caller.finished ++ Caller.defined)
    (p := fun mod x => decide (x.body = none ∧ x.draft.code.size = 2 ∧
      Caller.isHalted (notFinalized Caller.seven) ((Caller.machine mod).run 9 (Caller.begun mod)) = true))
        (by decide +kernel)
  obtain ⟨hnone, hsize, hrun⟩ := of_decide_eq_true hp
  obtain ⟨hiff, hrefused, -⟩ := unfinished_runs_nothing (m := Caller.machine mod) h rfl hd hopen hx himpl
  exact ⟨mod, past, x, h, by rw [Module.routine?, show mod.def? Caller.seven.owner = some d from hd]; exact hx,
      hsize, hiff.mp hnone,
    hrun, (hrefused hnone).2 _ (.invoke _ _ _)⟩

/-- After its type could not be finished, the method of the first type has a body and runs. -/
theorem unfinished_runs_checked : ∃ mod past d x, Module.History 0 (mod :: past) ∧ mod.def? Caller.called = some d ∧
    d.isCreated = false ∧ d.routine? Caller.seven = some x ∧ x.body ≠ none ∧
    Caller.isDone (.int 7) ((Caller.machine mod).run 9 (Caller.begun mod)) = true := by
  obtain ⟨mod, past, d, x, h, hd, hopen, hx, -, hp⟩ := Caller.made (Caller.finished ++ Caller.failed ++ Caller.defined)
    (p := fun mod x => decide (x.body ≠ none ∧
      Caller.isDone (.int 7) ((Caller.machine mod).run 9 (Caller.begun mod)) = true))
    (by decide +kernel)
  obtain ⟨hbody, hrun⟩ := of_decide_eq_true hp
  exact ⟨mod, past, d, x, h, hd, hopen, hx, hbody, hrun⟩

end Machine
end CilCompiler
