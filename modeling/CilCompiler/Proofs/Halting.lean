import CilCompiler.Proofs.Compilation.Loopless
import CilCompiler.Proofs.TypeSoundness

/-! Programs without loops answer. A run of a compiled program without loops comes to its end
    (`Machine.loopless_halts`). In the worlds that calls from outside come to, the heap is typed
    (`Compilation.Stages.visits_typed`), and so the end is a value or an error where the arguments are of the types of
    the parameters (`Compilation.loopless_answers`). The number of arguments alone is not enough: a delegate that is
    handed in as one of another type calls its method with arguments that the method does not have
    (`Compilation.taken_for_another_delegate`). -/

namespace CilCompiler

/-- A run that has come back, with a value or with an error. One that stopped short where something is missing has not. -/
def Progress.Answers : Progress → Prop
  | .done _ _ => True
  | .halted (.fault _) _ => True
  | _ => False

/-- The world that a run has left. -/
def Progress.left? : Progress → Option World
  | .done _ w => some w
  | .halted _ w => some w
  | .running _ => none

/-- What a run that is done has come to, with its world. -/
def Progress.done? : Progress → Option (Value × World)
  | .done v w => some (v, w)
  | _ => none

/-- Whether a run has stopped short where something is missing. -/
def Progress.isLost : Progress → Bool
  | .halted .missing _ => true
  | _ => false

theorem Progress.eq_of_done? {p : Progress} {v : Value} {w : World} (h : p.done? = some (v, w)) : p = .done v w := by
  unfold Progress.done? at h
  split at h <;> cases h
  rfl

theorem Progress.eq_of_isLost {p : Progress} (h : p.isLost = true) : ∃ w, p = .halted .missing w := by
  unfold Progress.isLost at h
  split at h
  · exact ⟨_, rfl⟩
  · cases h

/-- The types of what is handed to a method: the receiver comes first. -/
def Method.argTypes (r : Method) : List (Option Ty) := (if r.isStatic then [] else [some r.owner]) ++ r.params

/-- Values of types. -/
def Heap.Matches (h : Heap) (vs : List Value) (types : List (Option Ty)) : Prop :=
  List.Forall₂ (fun v t => ∃ u, t = some u ∧ h.Has v u.name) vs types

/-- The worlds that calls from outside come to, each with its input: the first one, and those that runs from the entry
    point, calls of methods and the making of objects leave, whether they come back with a value or an error. What is
    handed in is of the types of the parameters, a receiver may be null, and delegates are only made by code. -/
inductive Machine.Visits (m : Machine) (M : Module) : World → Prop
  | first (input : List UInt8) : m.Visits M (World.initial 1 input)
  | reads {w} (input : List UInt8) : m.Visits M w → m.Visits M (w.withInput 0 input)
  | runs {w w' canceled n} : m.Visits M w → (m.runUnder canceled n (m.start w)).left? = some w' → m.Visits M w'
  | calls {w w' canceled n d x args} : m.Visits M w → d ∈ M.types.toList → x ∈ d.methods.toList →
      w.heap.Matches args x.method.argTypes → (m.runUnder canceled n (m.invoke w x.method args)).left? =
        some w' → m.Visits M w'
  | makes {w w' canceled n d x args} : m.Visits M w → d ∈ M.types.toList → d.type.isDelegate = false →
      d.ctors.find? (fun x => x.method.params.length = args.length) = some x → w.heap.Matches args x.method.params →
      (m.runUnder canceled n (m.construct w d.type args)).left? = some w' → m.Visits M w'

/-! ### Values from outside -/

namespace Platform
variable {P : Platform} {ts : List Text} {h : Heap} {v : Value} {t : Ty} {r : Method} {vs : List Value}
    {types : List (Option Ty)}
  {p : Progress}

/-- A value with the name of a type that is admitted belongs to its key. -/
theorem belongs_of_has (hP : P.Sound) (ht : P.Typed ts h) (hT : P.Admits t) (hv : h.Has v t.name) : h.Belongs v t.key := by
  generalize hname : t.name = n at hv
  cases hv with
  | number hn =>
    have hnumber : t.IsNumber := by
      rw [Ty.IsNumber, hname]
      exact hn
    exact .number hnumber.key
  | pointer => exact Ty.key_host hname (by decide) ▸ .pointer
  | string => exact Ty.key_host hname (by decide) ▸ .string
  | null hnull =>
    refine .null ?_
    cases hvalue : t.isValue with
    | false => exact hP.reference hT hvalue
    | true =>
      cases hvoid : t.isVoid with
      | true =>
        rw [Ty.key_host (of_decide_eq_true hvoid) (by decide)]
        exact .inl rfl
      | false =>
        rcases hP.value hT hvalue hvoid with (hn | hn) | hn <;> rw [← hname, hn] at hnull <;>
            rcases hnull with hnull | hnull <;> cases hnull
  | @object id o ho hb =>
    have hkey : o.type.key = t.key := Ty.key_of_name hname.symm
    exact hkey ▸ .object ho hb ((ht.object ho).object hb)
  | @array id a ha =>
    have hkey : (Ty.array a.elem).key = t.key := Ty.key_of_name hname.symm
    exact hkey ▸ a.elem.key_array ▸ .array ha

theorem takes_of_matches (hP : P.Sound) (ht : P.Typed ts h) (hv : h.Matches vs types)
    (hT : ∀ p ∈ types, ∃ t, p = some t ∧ P.Admits t) :
    h.Takes vs types := by
  induction hv with
  | nil => exact .nil
  | cons hv _ ih =>
    obtain ⟨u, rfl, hv⟩ := hv
    obtain ⟨⟨u', hu, hU⟩, hrest⟩ := List.forall_mem_cons.mp hT
    cases hu
    exact .cons ⟨u, rfl, belongs_of_has hP ht hU hv⟩ (ih hrest)

/-- What is handed to a method is a receiver that it can have, and arguments of its parameters. -/
theorem handed (hP : P.Sound) (hplain : ¬P.plain) (ht : P.Typed ts h) (howner : P.Admits r.owner)
    (hparams : ∀ p ∈ r.params, ∃ t, p = some t ∧ P.Admits t) (hv : h.Matches vs r.argTypes) :
    ∃ recv args, vs = recv ++ args ∧ P.Receivers h r recv ∧ h.Takes args r.params := by
  unfold Receivers
  cases hst : r.isStatic with
  | true =>
    rw [Method.argTypes, hst] at hv
    exact ⟨[], vs, rfl, rfl, takes_of_matches hP ht hv hparams⟩
  | false =>
    rw [Method.argTypes, hst] at hv
    obtain ⟨v, args, ⟨u, hu, hhas⟩, hargs, rfl⟩ := List.forall₂_cons_right_iff.mp hv
    cases hu
    have receives : P.Receives h r v := ⟨fun hp => absurd hp hplain, .inr (.inr (belongs_of_has hP ht howner hhas))⟩
    exact ⟨[v], args, rfl, ⟨v, rfl, receives⟩, takes_of_matches hP ht hargs hparams⟩

theorem Stays.fault (ht : P.Typed ts h) (x : Fault) {w : World} (hw : w.heap = h) : P.Stays (.halted (.fault x) w) :=
  ⟨⟨x, rfl⟩, ts, hw ▸ ht⟩

/-- A run that stays in typed code and is over has come back. -/
theorem Stays.answers (hp : P.Stays p) (hover : p.isOver = true) : p.Answers := by
  cases p with
  | running s => cases hover
  | done v w => trivial
  | halted e w =>
    obtain ⟨⟨x, rfl⟩, -⟩ := hp
    trivial

theorem Stays.left (hp : P.Stays p) {w : World} (hw : p.left? = some w) : ∃ ts, P.Typed ts w.heap := by
  cases p with
  | running s => cases hw
  | done v w' =>
    cases hw
    exact hp
  | halted e w' =>
    cases hw
    exact hp.2

end Platform

/-! ### Cancellation -/

namespace Machine
variable {m : Machine}

/-- A run that comes to its end does so too when it is canceled on its way. -/
theorem over_of_canceled (canceled : Nat → Bool) {n : Nat} {p : Progress}
    (hover : ((m.under false).run n p).isOver = true) :
    (m.runUnder canceled n p).isOver = true := by
  induction n generalizing p with
  | zero =>
    cases p with
    | running s => cases hover
    | _ => rfl
  | succ n ih =>
    cases p with
    | done v w => rfl
    | halted h w => rfl
    | running s =>
      show (m.runUnder canceled n ((m.under (canceled s.steps)).step s)).isOver = true
      replace hover : ((m.under false).run n ((m.under false).step s)).isOver = true := hover
      cases hc : canceled s.steps with
      | false => exact ih hover
      | true =>
        -- The step is the one without a cancellation, or the last one.
        have stops : (m.under true).step s = (m.under false).step s ∨ ∃ e w, (m.under true).step s = .halted e w := by
          obtain ⟨frames, w, steps⟩ := s
          cases frames with
          | nil => exact .inl rfl
          | cons f rest =>
            cases hi : f.body.code[f.pc]? with
            | none => exact .inl (by simp only [step, hi])
            | some i =>
              rw [step_under hi, step_under hi]
              simp only [and_true, Bool.false_eq_true, and_false, if_false]
              split
              · exact .inr ⟨_, _, rfl⟩
              · exact .inl rfl
        rcases stops with hstep | ⟨e, w, hstep⟩
        · exact ih (hstep ▸ hover)
        · rw [hstep]
          cases n <;> rfl

theorem invoke_under (b : Bool) (w : World) (r : Method) (args : List Value) :
    (m.under b).invoke w r args = m.invoke w r args := by
  unfold invoke
  rw [enter_under]
  rfl

theorem start_under (b : Bool) (w : World) : (m.under b).start w = m.start w := by
  unfold start
  simp only [invoke_under]
  rfl

theorem construct_under (b : Bool) (w : World) (t : Ty) (args : List Value) :
    (m.under b).construct w t args = m.construct w t args := by
  unfold construct
  simp only [enter_under]
  rfl

end Machine

/-! ### Calls from outside -/

namespace Compilation
namespace Stages
variable {p : Program} {c₀ c c₁ c₂ : Compilation} {f : Method → Draft} {m : Machine} {w : World} {r : Method} {d : TypeDef}
  {x : Routine} {args : List Value} {ts : List Text}

section Calls
variable (h : Stages p c₀ c c₁ c₂ f) (hm : m.Loads c₂.module) (ht : (platformOf m c₀ c False).Typed ts w.heap)
include h hm ht

/-- A call of a method of the module begins a run of typed code, or is over. -/
theorem invoke_stays (hd : d ∈ c₂.module.types.toList) (hx : x ∈ d.methods.toList)
    (ha : w.heap.Matches args x.method.argTypes) :
    (platformOf m c₀ c False).Stays (m.invoke w x.method args) := by
  obtain ⟨i, e, he, hleft⟩ := h.came_from hd
  obtain ⟨y, hy, hyx⟩ := List.mem_map.mp (hleft.methods ▸ List.mem_map_of_mem hx)
  rw [← hyx] at ha ⊢
  have sound : (platformOf m c₀ c False).Sound := h.platform_sound hm False.elim
  have admitted := h.described.admitted he
  have params : ∀ q ∈ y.method.params, ∃ t, q = some t ∧ c₀.module.Knows t := fun q hq => by
    obtain ⟨t, hq, hT, -⟩ := admitted.params y (List.mem_append_right _ hy) q hq
    exact ⟨t, hq, hT⟩
  obtain ⟨recv, args, rfl, hrecv, htakes⟩ := Platform.handed sound id ht (h.method_owner he hy ▸ admitted.type) params ha
  unfold Machine.invoke
  split
  · exact .fault ht _ rfl
  split
  · exact .fault ht _ rfl
  · exact ((h.provides_method hm False.elim he hy).enters ht hrecv htakes .push m.maxDepth).stays id

/-- The making of an object begins a run of typed code, or is over. -/
theorem construct_stays (hd : d ∈ c₂.module.types.toList) (hdelegate : d.type.isDelegate = false)
    (hx : ∀ x, d.ctors.find? (fun x => x.method.params.length = args.length) = some x →
      w.heap.Matches args x.method.params) :
    (platformOf m c₀ c False).Stays (m.construct w d.type args) := by
  obtain ⟨i, e, he, hleft⟩ := h.came_from hd
  unfold Machine.construct
  rw [hm.def?, hleft.type, hleft.found]
  dsimp only
  split
  · exact .fault ht _ rfl
  cases hfound : d.ctors.find? fun x => x.method.params.length = args.length with
  | none => exact .fault ht _ rfl
  | some x =>
    have ha := hx x hfound
    have hctor := Array.mem_toList_iff.mpr (Array.mem_of_find?_eq_some hfound)
    obtain ⟨y, hy, hyx⟩ := List.mem_map.mp (hleft.ctors ▸ List.mem_map_of_mem hctor)
    dsimp only
    rw [← hyx] at ha ⊢
    have sound : (platformOf m c₀ c False).Sound := h.platform_sound hm False.elim
    have hmem : y.method ∈ c.symbols.ctorsOf e.type := by
      rw [(h.lists he).ctors]
      exact List.mem_map_of_mem hy
    have hnone : c.symbols.delegate? (some e.type) = none := h.delegate?_none hm he (hleft.type ▸ hdelegate)
    have htakes := Platform.takes_of_matches sound ht ha fun q hq => by
      obtain ⟨t, hq, hT, -⟩ := (h.described.admitted he).params y (List.mem_append_left _ hy) q hq
      exact ⟨t, hq, hT⟩
    have hctor : (platformOf m c₀ c False).Owns y.method.owner e.type ∧ y.method.isStatic = false ∧
        (platformOf m c₀ c False).Builds y.method.owner y.method := h.platform_ctor hm hnone hmem
    obtain ⟨howns, hst, hbuilds⟩ := hctor
    have hvoid := h.described.constructed_notVoid hmem
    have htype : d.type = y.method.owner := hleft.type.trans ((h.described.coherent.shaped he).ctor hy).1.symm
    have hlays := h.lays m False he hleft.type hleft.fields hleft.slots
    cases hnew : w.makeObject m.module d (fun o => o) with
    | mk id w' =>
    dsimp only
    cases hbuilds with
    | builder _ hx hnative _ =>
      obtain ⟨ret, enters, -⟩ := Platform.builder_leads ht hvoid howns hnone htype hlays hx hnative hnew m.maxDepth
      exact enters.stays not_false
    | object hbuilder _ _ hc =>
      obtain ⟨ret, enters, -⟩ :=
        Platform.object_leads ht hvoid howns hnone hbuilder htype hlays hc hst htakes hnew m.maxDepth
      exact enters.stays not_false

/-- A run from the entry point is one of typed code, or is over. -/
theorem start_stays : (platformOf m c₀ c False).Stays (m.start w) := by
  have hmodule : m.modules[m.module]? = some c₂.module := by simp [hm.modules, hm.module]
  unfold Machine.start
  rw [hmodule]
  dsimp only
  split
  · exact .fault ht _ rfl
  · rename_i r hr
    obtain ⟨k, d, x, hk, hx, rfl, hst, hparams⟩ := h.entry hr
    unfold Machine.invoke
    split
    · exact .fault ht _ rfl
    split
    · exact .fault ht _ rfl
    · obtain ⟨hrecv, htakes⟩ := entry_takes (P := platformOf m c₀ c False) (w := w) hst hparams
      exact ((h.provides_member hm hk hx).enters ht hrecv htakes .push m.maxDepth).stays not_false

end Calls

/-- The heaps of the worlds that calls from outside come to are typed. -/
theorem visits_typed (h : Stages p c₀ c c₁ c₂ f) (hm : m.Loads c₂.module) (hw : m.Visits c₂.module w) :
    ∃ ts, (platformOf m c₀ c False).Typed ts w.heap := by
  have sound : (platformOf m c₀ c False).Sound := h.platform_sound hm False.elim
  have stays : ∀ {q : Progress} {canceled : Nat → Bool} {n : Nat}, (platformOf m c₀ c False).Stays q →
      (platformOf m c₀ c False).Stays (m.runUnder canceled n q) := fun hq => hq.run sound not_false _ _
  induction hw with
  | first input => exact ⟨[], initial_typed input⟩
  | reads input _ ih => exact ih
  | runs _ hleft ih =>
    obtain ⟨ts, ht⟩ := ih
    exact (stays (h.start_stays hm ht)).left hleft
  | calls _ hd hx ha hleft ih =>
    obtain ⟨ts, ht⟩ := ih
    exact (stays (h.invoke_stays hm ht hd hx ha)).left hleft
  | makes _ hd hdelegate hx ha hleft ih =>
    obtain ⟨ts, ht⟩ := ih
    refine (stays (h.construct_stays hm ht hd hdelegate fun y hy => ?_)).left hleft
    cases hx.symm.trans hy
    exact ha

end Stages

variable {p : Program} {name runtime : Text} {isCanceled : Bool} {c : Compilation} {m : Machine} {w : World}

/-- A compiled program without loops answers, with a value or an error: when it is run from its entry point, when a
    method of it is called, and when an object is made, in every world that such calls come to, however deep calls may
    go and whenever they are canceled. What is handed in is of the types of the parameters. -/
theorem loopless_answers (h : (compile p .dynamic name runtime isCanceled).Gives c) (hp : p.loops = false)
    (hm : m.Loads c.module)
    (hw : m.Visits c.module w) (canceled : Nat → Bool) :
    (∃ n, (m.runUnder canceled n (m.start w)).Answers) ∧ ∀ d ∈ c.module.types.toList,
      (∀ x ∈ d.methods.toList, ∀ args, w.heap.Matches args x.method.argTypes →
        ∃ n, (m.runUnder canceled n (m.invoke w x.method args)).Answers) ∧
      (d.type.isDelegate = false → ∀ args,
        (∀ x, d.ctors.find? (fun x => x.method.params.length = args.length) = some x →
          w.heap.Matches args x.method.params) →
        ∃ n, (m.runUnder canceled n (m.construct w d.type args)).Answers) := by
  obtain ⟨c₀, c', c₁, drafts, -, hs⟩ := compile_stages h
  have sound : (platformOf m c₀ c' False).Sound := hs.platform_sound hm False.elim
  obtain ⟨ts, ht⟩ := hs.visits_typed hm hw
  obtain ⟨hrun, hcall, hmake⟩ := Machine.loopless_halts h hp (m := m.under false) hm.modules w
  have answers : ∀ {q : Progress}, (platformOf m c₀ c' False).Stays q → (∃ n, ((m.under false).run n q).isOver = true) →
      ∃ n, (m.runUnder canceled n q).Answers := by
    rintro q hq ⟨n, hover⟩
    exact ⟨n, Platform.Stays.answers (hq.run sound not_false canceled n) (Machine.over_of_canceled canceled hover)⟩
  refine ⟨answers (hs.start_stays hm ht) (m.start_under false w ▸ hrun),
      fun d hd => ⟨fun x hx args ha => ?_, fun hdelegate args ha => ?_⟩⟩
  · exact answers (hs.invoke_stays hm ht hd hx ha) (m.invoke_under false w x.method args ▸ hcall x.method args)
  · exact answers (hs.construct_stays hm ht hd hdelegate ha) (m.construct_under false w d.type args ▸ hmake d.type args)

/-- A method that calls itself through a delegate, and an object whose constructor makes another one. -/
def endlessProgram : Program where
  delegates := [{ name := "Op", ret := "int", params := [{ name := "n", type := "int" }] }]
  classes := [{
    name := "C"
    fields := []
    ctors := [{ params := [], body := [.local "next" "C" (.new "C" [])] }]
    methods := [
      { name := "f", isStatic := true, ret := "int", params := [{ name := "n", type := "int" }]
        body := [
          .local "op" "Op" (.ident "f"),
          .if (.binary .lt (.ident "n") (.int 0)) [.return (.int 0)] [],
          .return (.call .missing "op" [.binary .add (.ident "n") (.int 1)])] },
      { name := "Main", isStatic := true, ret := "int", params := []
        body := [.local "c" "C" (.new "C" []), .return (.call .missing "f" [.int 1])] }] }]

theorem loopless_answers_endless : ∃ c, (compile endlessProgram .dynamic "m" "v4" false).Gives c ∧
    endlessProgram.loops = false ∧
    ∀ maxDepth canceled, (c.machine maxDepth).Loads c.module ∧ (c.machine maxDepth).Visits c.module (World.initial 1 [52]) ∧
      ∃ n, ((c.machine maxDepth).runUnder canceled n ((c.machine maxDepth).start (World.initial 1 [52]))).Answers := by
  obtain ⟨c, hc, -⟩ := Logged.gives_of_any (x := compile endlessProgram .dynamic "m" "v4" false) (j := default)
    (p := fun c => c.module.entry.isSome) (by decide +kernel)
  have loopless : endlessProgram.loops = false := by decide +kernel
  obtain ⟨_, _, _, _, -, hs⟩ := compile_stages hc
  refine ⟨c, hc, loopless, fun maxDepth canceled => ?_⟩
  have loads := hs.loads maxDepth
  exact ⟨loads, .first [52], (loopless_answers hc loopless loads (.first [52]) canceled).1⟩

/-- Two delegates of one and of two parameters, a method that gives the second and one that takes the first. -/
def crossedProgram : Program where
  delegates := [
    { name := "One", ret := "int", params := [{ name := "n", type := "int" }] },
    { name := "Two", ret := "int",
        params := [{ name := "a", type := "int" }, { name := "b", type := "int" }] }]
  classes := [{
    name := "P"
    fields := []
    ctors := []
    methods := [
      { name := "add", isStatic := true, ret := "int",
        params := [{ name := "a", type := "int" }, { name := "b", type := "int" }]
        body := [.return (.binary .add (.ident "a") (.ident "b"))] },
      { name := "make", isStatic := true, ret := "Two", params := []
        body := [.local "two" "Two" (.ident "add"), .return (.ident "two")] },
      { name := "apply", isStatic := true, ret := "int",
        params := [{ name := "f", type := "One" }, { name := "n", type := "int" }]
        body := [.return (.call .missing "f" [.ident "n"])] }] }]

/-- A method of a module, by its name. -/
def methodNamed (c : Compilation) (name : Text) : Option Method :=
  (c.module.types.toList.flatMap fun d => d.methods.toList.map Routine.method).find? fun r => r.name = name

/-- A call from outside is only asked for the number of its arguments. A delegate of two parameters that is handed in
    as one of one parameter calls its method with one argument, and the method looks for another. -/
theorem taken_for_another_delegate : ∃ c, (compile crossedProgram .dynamic "m" "v4" false).Gives c ∧
    crossedProgram.loops = false ∧
    ∃ make apply, c.methodNamed "make" = some make ∧ c.methodNamed "apply" = some apply ∧
      ∃ d w w', (c.machine 8).run 6 ((c.machine 8).invoke (World.initial 1 []) make []) = .done d w ∧
        [d, .int 1].length = apply.argCount ∧ (c.machine 8).run 5 ((c.machine 8).invoke w apply [d, .int 1]) =
          .halted .missing w' := by
  obtain ⟨c, hc, hruns⟩ := Logged.gives_of_any (x := compile crossedProgram .dynamic "m" "v4" false) (j := default)
    (p := fun c => (c.methodNamed "make").any fun (make : Method) => (c.methodNamed "apply").any fun (apply : Method) =>
      ((c.machine 8).run 6 ((c.machine 8).invoke (World.initial 1 []) make [])).done?.any fun (d : Value × World) =>
        decide (2 = apply.argCount) && ((c.machine 8).run 5 ((c.machine 8).invoke d.2 apply [d.1, .int 1])).isLost)
    (by decide +kernel)
  obtain ⟨make, hmake, hruns⟩ := (Option.any_eq_true _ _).mp hruns
  obtain ⟨apply, happly, hruns⟩ := (Option.any_eq_true _ _).mp hruns
  obtain ⟨⟨d, w⟩, hdone, hruns⟩ := (Option.any_eq_true _ _).mp hruns
  obtain ⟨hcount, hlost⟩ := Bool.and_eq_true_iff.mp hruns
  obtain ⟨w', hlost⟩ := Progress.eq_of_isLost hlost
  exact ⟨c, hc, by decide, make, apply, hmake, happly, d, w, w', Progress.eq_of_done? hdone, of_decide_eq_true hcount,
    hlost⟩

end Compilation
end CilCompiler
