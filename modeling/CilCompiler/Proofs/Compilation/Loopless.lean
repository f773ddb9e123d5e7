import CilCompiler.Proofs.Compilation.Passes
import CilCompiler.Proofs.Lowering.Forward
import CilCompiler.Proofs.Machine.Halting
import CilCompiler.Proofs.Machine.VerifiedStack

/-! Programs without loops halt. The bodies of a compiled program without loops only jump forward
    (`Generated.forward`), so a run of it comes to its end, whatever is read and however deep calls may go, also where
    members call each other or themselves (`loopless_halts`). -/

namespace CilCompiler

/-- A body that is finished from a draft whose branches go forward. -/
theorem Draft.Built.forward {r : Method} {d : Draft} (hd : d.Built r) (hf : d.Forward) {ret : Option Ty} {b : Body}
    (hv : d.verify ret = .ok b) : b.Forward :=
  fun _ _ _ hi hn => hf.jumps (hd.balanced hv).2 hi hn

namespace Compilation

variable {P : Ty → Prop} {p : Program} {c₀ c c₁ c₂ : Compilation} {f : Method → Draft}

/-- There is no loop in the body of a member. -/
theorem Described.Of.loopless {s : Symbols} {k : Nat} {d : DeclaredType} {x : Member} {cd : ClassDecl} {e : TypeDef}
    {m : Bool × MethodDecl} {y : Routine} (h : Described.Of P p s c k d x cd e m y) (hp : p.loops = false) :
    Stmt.anyLoops x.body = false := by
  have hclass : cd.loops = false := by simpa using List.any_eq_false.mp hp cd h.mem
  rw [ClassDecl.loops, Bool.or_eq_false_iff, List.any_eq_false, List.any_eq_false] at hclass
  rcases h.body_mem with he | ⟨ctor, hc, he⟩ | ⟨method, hm, he⟩
  · rw [he, Stmt.anyLoops]
  · simpa [he] using hclass.1 ctor hc
  · simpa [he] using hclass.2 method hm

/-- Branches go forward in what lowering leaves of a member without loops. -/
theorem Emits.forward {scope : Scope} {d : DeclaredType} {x : Member} {s : Symbols} {D : Draft}
    (h : Emits scope d x { symbols := s } D)
    (hx : Stmt.anyLoops x.body = false) : D.Forward := by
  obtain ⟨b, w, w', hl, hret, rfl⟩ := h
  have lowered : ({ symbols := s } : Work).Advances w := by
    unfold lowering at hl
    split at hl
    · exact Work.Advances.constructor d.inits hx hl
    · exact Work.Advances.statements hx hl
  rcases hret with ⟨-, rfl⟩ | ⟨-, he⟩
  · exact lowered.forward Draft.Forward.new
  · exact (advances_stepwise.leave he).forward (lowered.forward Draft.Forward.new)

theorem hostModule_bodies : ∀ e ∈ hostModule.types.toList, ∀ x ∈ e.routines, x.body = none := by decide +kernel

/-- The bodies of a finished program without loops only jump forward. -/
theorem Generated.forward (h : Described P p c₀ c) (helem : ∀ {e : Ty}, P (.array e) → P e)
    (hn : ∀ n ∈ p.typeNames, c₀.symbols.Names P n) (hg : Generated P c (pairs c.types) f c₁) (hf : c₁.finish = .ok c₂)
    (hp : p.loops = false) {i : Nat} {e : TypeDef} (he : c₂.module.types[i]? = some e) {x : Routine} (hx : x ∈ e.routines)
    (himpl : x.impl ≠ .runtime) {b : Body} (hb : x.body = some b) : b.Forward := by
  obtain ⟨-, hfinal, hsize, -⟩ := hg.finish h hf
  have hlt := (Array.getElem?_eq_some_iff.mp he).1
  rw [hsize] at hlt
  have hget := Array.getElem?_eq_getElem hlt
  rw [hfinal hget] at he
  cases he
  split at hx
  · rename_i hi
    rw [h.host i hi] at hget
    rw [hostModule_bodies _ (Array.mem_toList_iff.mpr (Array.mem_of_getElem? hget)) x hx] at hb
    cases hb
  · obtain ⟨z, -, rfl⟩ : ∃ z ∈ c.module.types[i].routines, (z.withDraft f).finished = x := by
      simpa [TypeDef.routines, TypeDef.finished, TypeDef.withDrafts, or_and_right, exists_or] using hx
    have hv : (f z.method).verify z.method.ret = .ok b := by
      unfold Routine.finished at hb himpl
      split at hb
      · rename_i hrun
        rw [if_pos hrun] at himpl
        exact absurd hrun himpl
      · have hb : ((f z.method).verify z.method.ret).toOption = some b := hb
        cases hv : (f z.method).verify z.method.ret with
        | error e => rw [hv] at hb; cases hb
        | ok b' => rw [hv] at hb; cases hb; rfl
    by_cases hmember : ∃ y ∈ pairs c.types, y.2.method = z.method
    · obtain ⟨⟨d, y⟩, hy, hmethod⟩ := hmember
      have hlowered := hg.lowered (d, y) hy
      obtain ⟨d', hd, hmap⟩ := List.mem_flatMap.mp hy
      obtain ⟨y', hmem, heq⟩ := List.mem_map.mp hmap
      cases heq
      obtain ⟨k, hk⟩ := List.mem_iff_getElem?.mp hd
      obtain ⟨cd, e', m, y'', hof⟩ := h.member hk hmem
      have hbuilt := (Lowered.complete (h.supplied helem hn hk hmem) hlowered).built h.coherent.dynamic
      obtain ⟨s, -, -, hemits⟩ := hlowered
      rw [← hmethod] at hv
      exact hbuilt.forward (hemits.forward (hof.loopless hp)) hv
    · rw [hg.rest z.method fun y hy heq => hmember ⟨y, hy, heq⟩] at hv
      exact (Draft.Built.new (m := z.method)).forward Draft.Forward.new hv

end Compilation

namespace Machine

/-- The machine that runs a compiled program without loops. -/
theorem forward_of_compile {p : Program} {name runtime : Text} {isCanceled : Bool} {c : Compilation}
    (h : (compile p .dynamic name runtime isCanceled).Gives c) (hp : p.loops = false) {m : Machine}
    (hm : m.modules = #[c.module]) :
    m.Forward := by
  obtain ⟨-, c₁, hgen, hfin⟩ := Compilation.compile_gives h
  obtain ⟨c₀, c₂, -, -, hgenerate, hdescribed⟩ := Compilation.generated_described hgen
  have hnames : ∀ n ∈ p.typeNames, c₀.symbols.Names (fun _ => True) n := fun _ _ _ _ _ _ _ _ => ⟨trivial, fun _ => trivial⟩
  have hdesc : Compilation.Described (fun _ => True) p c₀ c₂ := hdescribed (fun _ => trivial) hnames
  obtain ⟨f, hg⟩ := hdesc.generate (fun _ => trivial) hnames hgenerate
  intro r x b hx himpl hb
  obtain ⟨y, hy, hx⟩ := Option.bind_eq_some_iff.mp hx
  obtain ⟨e, he, hx⟩ := Option.bind_eq_some_iff.mp hx
  have hone : y = c.module := by
    rw [hm] at hy
    simpa using Array.mem_of_getElem? hy
  rw [hone] at he
  have hroutine : x ∈ e.routines := by
    unfold TypeDef.routine? at hx
    split at hx
    · exact List.mem_append_left _ (Array.mem_toList_iff.mpr (Array.mem_of_getElem? hx))
    · exact List.mem_append_right _ (Array.mem_toList_iff.mpr (Array.mem_of_getElem? hx))
  exact hg.forward hdesc (fun _ => trivial) hnames hfin hp (Module.def?_some he).1 hroutine himpl hb

/-- A call ends, if the code it runs jumps forward only. -/
theorem Forward.proceed_over {m : Machine} (hm : m.Forward) (steps : Nat) (use : ResultUse) (levels : Nat) (r : Method)
    (args : List Value) (w : World) :
      ∃ n, (m.run n (proceed [] steps use (m.enter use levels r args w))).isOver = true := by
  have leads : m.Leads [] (proceed [] steps use (m.enter use levels r args w)) := by
    cases he : m.enter use levels r args w with
    | mk entered w' =>
    cases entered with
    | value v => exact .of_deliver w' steps use v
    | halt h => exact .of_over rfl
    | frame g => exact hm.leads _ _ (enter_frame hm he).2 rfl rfl [] w' steps
  obtain ⟨n, hover | ⟨w', steps', use', v, hn⟩⟩ := leads
  · exact ⟨n, hover⟩
  · refine ⟨n, ?_⟩
    rw [hn]
    cases use' <;> rfl

/-- Programs without loops halt: a run from the entry point, a call of a method from outside, and the making of an
    object from outside all come to an end, whatever the world holds and however deep calls may go. -/
theorem loopless_halts {p : Program} {name runtime : Text} {isCanceled : Bool} {c : Compilation}
    (h : (compile p .dynamic name runtime isCanceled).Gives c) (hp : p.loops = false) {m : Machine}
    (hm : m.modules = #[c.module])
    (w : World) :
    (∃ n, (m.run n (m.start w)).isOver = true) ∧
      (∀ r args, ∃ n, (m.run n (m.invoke w r args)).isOver = true) ∧
      ∀ t args, ∃ n, (m.run n (m.construct w t args)).isOver = true := by
  have forward := forward_of_compile h hp hm
  have invoked : ∀ r args, ∃ n, (m.run n (m.invoke w r args)).isOver = true := by
    intro r args
    unfold invoke
    split
    · exact ⟨0, rfl⟩
    split
    · exact ⟨0, rfl⟩
    · exact forward.proceed_over ..
  refine ⟨?_, invoked, fun t args => ?_⟩
  · unfold start
    split
    · exact ⟨0, rfl⟩
    split
    · exact ⟨0, rfl⟩
    · exact invoked ..
  · unfold construct
    split
    · exact ⟨0, rfl⟩
    split
    · exact ⟨0, rfl⟩
    split
    · exact ⟨0, rfl⟩
    · exact forward.proceed_over ..

end Machine
end CilCompiler
