import CilCompiler.Proofs.Numeric.Stmt
import CilCompiler.Proofs.Compilation.Program
import CilCompiler.Proofs.Machine.Cells
import CilCompiler.Proofs.Compilation.Stages
import CilCompiler.Proofs.Machine.VerifiedStack
import CilCompiler.Proofs.StackBalance

/-!
How runs of methods over numbers begin and end. The frame of a call holds the arguments and zeros, as the reference
semantics starts with them; and a body that ends in a return is never left at its end.

Compiled methods over numbers and booleans do what the reference semantics says (`compiled_method_correct`).
-/

namespace CilCompiler.Numeric

/-! ### The end of a body -/

theorem endsInReturn_cons {s : Stmt} {rest : List Stmt} (hs : ∀ e, s ≠ .return e) (hr : Lower.endsInReturn rest = false) :
    Lower.endsInReturn (s :: rest) = false := by
  cases rest with
  | nil =>
    simp only [Lower.endsInReturn, List.getLast?_singleton]
    split
    · rename_i e he
      exact absurd (Option.some_inj.mp he) (hs e)
    · rfl
  | cons t rest =>
    simpa only [Lower.endsInReturn, List.getLast?_cons_cons] using hr

/-- Control does not go on behind a body that ends in a return. -/
theorem not_endsInReturn_of_falls {kindOf : Text → Option Kind} {fuel : Nat} {κ : Kinds} {σ σ' : Slots} {ss : List Stmt}
    (h : run kindOf fuel κ σ ss = some (.falls σ')) : Lower.endsInReturn ss = false := by
  induction fuel generalizing κ σ ss with
  | zero => cases h
  | succ fuel ih =>
    cases ss with
    | nil => rfl
    | cons s rest =>
      cases s with
      | «return» e =>
        simp only [run] at h
        split at h
        · cases h
        · split at h <;> cases h
      | «local» x type init =>
        refine endsInReturn_cons (fun _ h => by cases h) ?_
        simp only [run] at h
        split at h
        · exact ih h
        · split at h
          · exact ih h
          · cases h
      | assign target e =>
        refine endsInReturn_cons (fun _ h => by cases h) ?_
        cases target <;> simp only [run, reduceCtorEq] at h
        split at h
        · exact ih h
        · cases h
      | «while» cond body =>
        simp only [run] at h
        split at h
        · cases h
        · split at h
          · exact endsInReturn_cons (fun _ h => by cases h) (ih h)
          · split at h
            -- The loop itself is run once more.
            · exact ih h
            · rename_i hne
              exact absurd h (hne σ')
      | «if» cond yes no =>
        refine endsInReturn_cons (fun _ h => by cases h) ?_
        simp only [run] at h
        split at h
        · cases h
        · split at h
          · exact ih h
          · rename_i hne
            exact absurd h (hne σ')
      | expr e => cases h
      | baseCall => cases h

/-! ### The frame of a call -/

/-- Parameters with their types, from an argument number on. -/
def numbered (ps : List Param) (ts : List Ty) (first : Nat) : List (Text × Nat × Ty) :=
  (((ps.map Param.name).zip ts).zipIdx first).map fun e => (e.1.1, e.2, e.1.2)

theorem numbered_cons (q : Param) (ps : List Param) (t : Ty) (ts : List Ty) (first : Nat) :
    numbered (q :: ps) (t :: ts) first = (q.name, first, t) :: numbered ps ts (first + 1) := by
  simp [numbered]

theorem numbered_indices {ps : List Param} {ts : List Ty} (ht : ts.length = ps.length) (first : Nat) :
    (numbered ps ts first).map (fun p => p.2.1) = List.range' first ps.length := by
  have hsnd : (numbered ps ts first).map (fun p => p.2.1) = (((ps.map Param.name).zip ts).zipIdx first).map Prod.snd := by
    rw [numbered, List.map_map]
    rfl
  rw [hsnd, List.zipIdx_map_snd]
  simp [ht]

/-- A name stands for the first parameter that has it. -/
theorem numbered_find {x : Text} {ps : List Param} {ts : List Ty} {vs : List Int32} (ht : ts.length = ps.length)
    (hv : vs.length = ps.length) (first : Nat) :
    (numbered ps ts first).find? (fun e => e.1 = x) = none ∧ (ps.find? fun q => q.name = x) = none ∧
      entrySlots ps vs x = 0 ∨
      ∃ j q t, (numbered ps ts first).find? (fun e => e.1 = x) = some (x, first + j, t) ∧
        (ps.find? fun q => q.name = x) = some q ∧
        ps[j]? = some q ∧ ts[j]? = some t ∧ vs[j]? = some (entrySlots ps vs x) := by
  induction ps generalizing ts vs first with
  | nil => simp [numbered, entrySlots]
  | cons q ps ih =>
    obtain ⟨t, ts, rfl⟩ := List.exists_cons_of_length_eq_add_one ht
    obtain ⟨v, vs, rfl⟩ := List.exists_cons_of_length_eq_add_one hv
    simp only [List.length_cons, Nat.add_right_cancel_iff] at ht hv
    rw [numbered_cons]
    by_cases hq : q.name = x
    · exact .inr ⟨0, q, t, by simp [hq], by simp [hq], by simp, by simp, by simp [entrySlots, hq]⟩
    · have hslot : entrySlots (q :: ps) (v :: vs) x = entrySlots ps vs x := by simp [entrySlots, hq]
      rw [hslot]
      rcases ih ht hv (first + 1) with ⟨hn, hp, hz⟩ | ⟨j, q', t', hf, hp, hps, hts, hvs⟩
      · exact .inl ⟨by simpa [hq] using hn, by simpa [hq] using hp, hz⟩
      · refine .inr ⟨j + 1, q', t', ?_, by simpa [hq] using hp, by simpa using hps, by simpa using hts, by simpa using hvs⟩
        rw [List.find?_cons_of_neg (by simpa using hq), hf, Nat.add_right_comm, Nat.add_assoc]

section
variable {kindOf : Text → Option Kind} {c : Scope} {ps : List Param} {ts : List Ty} (hc : c.params = numbered ps ts 0)
include hc

/-- Nothing but the parameters is in scope at first. -/
theorem entry_fits {s : Symbols} (hs : Reads kindOf s)
    (hk : List.Forall₂ (fun q t => t.kind? = some ((kindOf q.type).getD .int)) ps ts) :
    Fits kindOf c (entryKinds kindOf ps) { symbols := s } where
  tidy := ⟨fun _ he => (by cases he), List.nodup_nil, List.nodup_nil, fun _ he => (by cases he)⟩
  reads := hs
  scope := by
    intro x k hx
    refine .inr ⟨rfl, ?_⟩
    have hlen := hk.length_eq.symm
    have hfind : (ps.find? fun q => q.name = x).map (fun q => (kindOf q.type).getD .int) = some k := by
      rw [← hx, entryKinds, Kinds.kind?, List.find?_map, Option.map_map]
      rfl
    rcases numbered_find (x := x) hlen (by simp : (ps.map fun _ => (0 : Int32)).length = ps.length) 0 with ⟨-, hp,
        -⟩ | ⟨j, q, t, hf, hp, hps, hts, -⟩
    · rw [hp] at hfind
      cases hfind
    · rw [hp] at hfind
      refine ⟨0 + j, t, by rw [Scope.param?, hc, hf]; rfl, ?_⟩
      obtain ⟨q', hq', hkind⟩ := Compilation.forall₂_getElem? hk hts
      rw [hps] at hq'
      cases hq'
      rw [hkind]
      exact hfind

/-- The frame of a call runs the body it is made for. -/
theorem entry_hosts {m : Machine} {world world' : World} {r : Method} {b : Body} {vs : List Int32} {levels : Nat}
    {W : Work} {f : Frame}
    (hr : Ready c) (hm : m.isCanceled = false) (hf : Machine.frameFor world r b (vs.map .int) levels .push = (f, world'))
    (ht : Tidy c W) (hcode : W.draft.ResolvesTo b.code) (hl : b.locals = W.draft.locals) (hts : ts.length = ps.length)
    (hvs : vs.length = ps.length) : Hosts m c W f := by
  have hindices := numbered_indices hts 0
  rw [← hc] at hindices
  obtain ⟨hargs, hlocals, -⟩ := Machine.frameFor_cells hf
  have hapart : f.args + (vs.map Value.int).length = f.locals := by rw [hargs, hlocals]
  cases hf
  refine ⟨hm, hr.dynamic, hcode, hl, rfl, ht, ?_, ?_, ?_⟩
  · intro p hp
    have hmem : p.2.1 ∈ List.range' 0 ps.length := hindices ▸ List.mem_map_of_mem hp
    simp only [List.mem_range'_1] at hmem
    simpa [hvs] using hmem.2
  · rw [hindices]
    exact List.nodup_range'
  · exact Nat.le_of_eq hapart

/-- The frame of a call holds what the names hold at first. -/
theorem entry_holds {world world' : World} {r : Method} {b : Body} {vs : List Int32} {levels : Nat} {W : Work} {f : Frame}
    (hf : Machine.frameFor world r b (vs.map .int) levels .push = (f, world')) (ht : Tidy c W)
    (hl : b.locals = W.draft.locals)
    (hts : ts.length = ps.length) (hvs : vs.length = ps.length) : Holds c W f world' (entrySlots ps vs) := by
  intro x n hx
  obtain ⟨hargs, hlocals, hcells⟩ := Machine.frameFor_cells hf
  rw [List.length_map] at hlocals
  rw [hcells]
  have found := numbered_find (x := x) hts hvs 0
  rw [← hc] at found
  unfold cell? at hx
  rw [hargs, hlocals] at hx
  cases hlx : W.local? x with
  | some l =>
    have hmem := find?_name hlx
    obtain ⟨t, k, hget, hk⟩ := ht.numbers _ hmem
    have hzero : Value.zero (some t) = .int 0 := by
      cases k with
      | int => simp [Value.zero, kind?_eq_int.mp hk]
      | bool => simp [Value.zero, kind?_eq_bool.mp hk]
    rcases found with ⟨-, -, hz⟩ | ⟨j, q, t', hf, -⟩
    · rw [hlx] at hx
      simp only [Option.some.injEq] at hx
      subst hx
      have hget : b.locals.toList[l.index]? = some t := by
        rw [hl, Array.getElem?_toList]
        exact hget
      rw [hz, Array.getElem?_append_right (by simp)]
      simp only [Array.size_append, List.size_toArray, List.length_map, Nat.add_sub_cancel_left, List.getElem?_toArray,
        List.getElem?_map, hget, Option.map_some, hzero]
    · have := (ht.fresh _ hmem).1
      simp only [Scope.param?, hf, Option.map_some, reduceCtorEq] at this
  | none =>
    rw [hlx] at hx
    rcases found with ⟨hf, -, -⟩ | ⟨j, q, t', hf, -, -, -, hv⟩
    · simp [Scope.param?, hf] at hx
    · simp only [Scope.param?, hf, Option.map_some, Option.some.injEq, Nat.zero_add] at hx
      subst hx
      have hj := (List.getElem?_eq_some_iff.mp hv).1
      rw [Array.getElem?_append_left (by simp; omega), Array.getElem?_append_right (by omega)]
      simp [hv]

end

end CilCompiler.Numeric

namespace CilCompiler
namespace Numeric

/-! ### Names of types -/

/-- The kind of the type that a name stands for in a program. -/
def kindNamed? (p : Program) (name runtime : Text) (n : Text) : Option Kind :=
  (Compilation.typeNamed? p (Compilation.start (Module.new 0 .dynamic name runtime)) n).bind Ty.kind?

theorem kind?_array (t : Ty) : (Ty.array t).kind? = none := by
  have hint : (Ty.array t).name ≠ TypeName.int32 := TypeName.array_ne (by decide)
  have hbool : (Ty.array t).name ≠ TypeName.boolean := TypeName.array_ne (by decide)
  simp [Ty.kind?, hint, hbool]

/-- A name of a number's type has been entered, and stands for it however many array types have been added. -/
theorem lookup_of_kind {s s₁ s' : Symbols} {n : Text} {t : Ty} {k : Kind} (h : s.lookup n = .ok (t, s'))
    (hk : t.kind? = some k)
    (hg : s.Grown s₁) : s₁.lookup n = .ok (t, s₁) := by
  rcases Symbols.lookup_cases h with ⟨he, -⟩ | ⟨-, _, u, _, -, -, rfl, -⟩
  · exact Symbols.lookup_of_entered (hg.entered? he)
  · rw [kind?_array] at hk
    cases hk

theorem kindNamed?_lookup {p : Program} {name runtime : Text} {c₀ : Compilation} {n : Text} {k : Kind}
    (hl : Compilation.laidOut p (Compilation.start (Module.new 0 .dynamic name runtime)) = .ok c₀)
    (hk : kindNamed? p name runtime n = some k) :
      ∃ t, t.kind? = some k ∧ ∀ {s}, c₀.symbols.Grown s → s.lookup n = .ok (t, s) := by
  obtain ⟨t, ht, hkt⟩ := Option.bind_eq_some_iff.mp hk
  simp only [Compilation.typeNamed?, hl] at ht
  split at ht
  · rename_i t' s' hlook
    cases ht
    exact ⟨t, hkt, fun hg => lookup_of_kind hlook hkt hg⟩
  · cases ht

theorem reads_of_grown {p : Program} {name runtime : Text} {c₀ : Compilation} {s : Symbols}
    (hl : Compilation.laidOut p (Compilation.start (Module.new 0 .dynamic name runtime)) = .ok c₀)
    (hg : c₀.symbols.Grown s) :
    Reads (kindNamed? p name runtime) s := by
  intro n k t s' hk hlook
  obtain ⟨t', ht', hfound⟩ := kindNamed?_lookup hl hk
  rw [hfound hg] at hlook
  cases hlook
  exact ⟨ht', rfl⟩

theorem params_kinds {P : Ty → Prop} {p : Program} {name runtime : Text} {c₀ : Compilation} {ps : List Param} {ts : List Ty}
    (hl : Compilation.laidOut p (Compilation.start (Module.new 0 .dynamic name runtime)) = .ok c₀)
    (ht : List.Forall₂ (fun q t => c₀.symbols.Denotes q.type t ∧ Ty.Locates P t) ps ts)
    (hp : ∀ q ∈ ps, (kindNamed? p name runtime q.type).isSome = true) :
    List.Forall₂ (fun q t => t.kind? = some ((kindNamed? p name runtime q.type).getD .int)) ps ts := by
  induction ht with
  | nil => exact .nil
  | cons h _ ih =>
    refine .cons ?_ (ih fun q hq => hp q (List.mem_cons_of_mem _ hq))
    obtain ⟨⟨s₁, s₂, hg, hlook⟩, -⟩ := h
    obtain ⟨k, hk⟩ := Option.isSome_iff_exists.mp (hp _ List.mem_cons_self)
    obtain ⟨t, hkind, hfound⟩ := kindNamed?_lookup hl hk
    rw [hfound hg] at hlook
    cases hlook
    rw [hk]
    exact hkind

/-! ### Bodies -/

/-- The run of a frame ends with what the reference semantics gives. -/
def Concludes (m : Machine) (f : Frame) (world : World) : Except Trap (Option Int32) → Prop
  | .ok v => ∃ world', m.Ends f world (.done (v.elim .null .int) world')
  | .error t => Traps m f world t

theorem statements_cases {c : Scope} {w w' : Work} {body : List Stmt} {b : Bool}
    (h : Lower.statements body c w = .ok (b, w')) :
    Lower.block body c w = .ok ((), w') ∧ b = !Lower.endsInReturn body := by
  simp only [Lower.statements, Lower.bind_ok, Lower.read_ok, Lower.ite_ok, Lower.pure_ok, Lower.fail_ok,
      and_false, or_false] at h
  obtain ⟨⟨⟩, w₁, hb, _, _, ⟨rfl, rfl⟩, ⟨he, rfl, rfl⟩ | ⟨he, -, rfl, rfl⟩⟩ := h
  · exact ⟨hb, by simp [he]⟩
  · exact ⟨hb, by simp [he]⟩

section
variable {kindOf : Text → Option Kind} {m : Machine} {c : Scope} {decl : MethodDecl} {ts : List Ty} {s : Symbols}
  (hr : Ready c) (hc : c.params = numbered decl.params ts 0) (hs : Reads kindOf s)
  (hk : List.Forall₂ (fun q t => t.kind? = some ((kindOf q.type).getD .int)) decl.params ts)
  (hbody : isBlock kindOf (entryKinds kindOf decl.params) decl.body = true)
include hr hc hs hk hbody

/-- Code of a body, with the return behind it that it may need, run on a frame of its own. -/
theorem body_concludes (hm : m.isCanceled = false) {b : Bool} {w W : Work}
    (hl : Lower.statements decl.body c { symbols := s } = .ok (b, w))
    (hW : b = false ∧ W = w ∨ b = true ∧ Lower.emit (.plain .ret) c w = .ok ((), W)) {code : Body} {r : Method}
    (hcode : W.draft.ResolvesTo code.code) (hlocals : code.locals = W.draft.locals) {world world' : World}
      {levels : Nat} {vs : List Int32}
    (hvs : vs.length = decl.params.length) {f : Frame}
      (hf : Machine.frameFor world r code (vs.map .int) levels .push = (f, world'))
    {fuel : Nat} {outcome : Except Trap (Option Int32)} (hrun : runMethod kindOf fuel decl vs = some outcome) :
    Concludes m f world' outcome := by
  obtain ⟨hblock, hadd⟩ := statements_cases hl
  have hlen := hk.length_eq.symm
  have hfits := entry_fits hc hs hk
  obtain ⟨-, hw⟩ := block_leads hr decl.body hbody hfits hblock
  have hsteady : Steady w W := by
    rcases hW with ⟨-, rfl⟩ | ⟨-, he⟩
    · exact .refl _
    · exact .emit hr.dynamic he
  have htidy := (hsteady.fits hw).tidy
  have hhosts : Hosts m c W f := entry_hosts hc hr hm hf htidy hcode hlocals hlen hvs
  have hholds := entry_holds hc hf htidy hlocals hlen hvs
  cases hf
  cases hend : run kindOf fuel (entryKinds kindOf decl.params) (entrySlots decl.params vs) decl.body with
  | none => simp [runMethod, hend] at hrun
  | some ending =>
    have hsim := block_simulates hhosts hr ⟨hbody, hfits, hblock, hsteady.later⟩ hholds hend
    simp only [runMethod, hend] at hrun
    cases ending with
    | falls σ =>
      cases hrun
      obtain ⟨w', hgo, -⟩ := hsim
      have hnot := not_endsInReturn_of_falls hend
      rcases hW with ⟨hb, -⟩ | ⟨-, he⟩
      · rw [hb, hnot] at hadd
        cases hadd
      · exact ⟨w', hgo.ends (hhosts.returns he (Work.Grows.refl W) [])⟩
    | returns v =>
      cases hrun
      exact hsim
    | traps t =>
      cases hrun
      exact hsim

end

/-! ### Compiled methods -/

/-- A run ends with what the reference semantics gives. -/
def Answers (m : Machine) (p : Progress) : Except Trap (Option Int32) → Prop
  | .ok v => ∃ n w, m.run n p = .done (v.elim .null .int) w
  | .error t => ∃ n fault w, m.run n p = .halted (.fault fault) w ∧ fault.code? = some t.code

theorem Concludes.answers {m : Machine} {f : Frame} {world : World} {outcome : Except Trap (Option Int32)}
    (h : Concludes m f world outcome) (steps : Nat) : Answers m (.running { frames := [f], world, steps }) outcome := by
  cases outcome with
  | ok v =>
    obtain ⟨world', he⟩ := h
    obtain ⟨n, hn⟩ := he steps
    exact ⟨n, world', hn⟩
  | error t =>
    obtain ⟨fault, world', he, hcode⟩ := h
    obtain ⟨n, hn⟩ := he steps
    exact ⟨n, fault, world', hn, hcode⟩

/-- A call from outside begins with a frame for the method's body. -/
theorem invoke_frame {m : Machine} {x : Module} {i : Nat} {e : TypeDef} {y : Routine} {b : Body}
    (hx : m.modules[0]? = some x)
    (hid : x.id = 0) (hs : x.Shaped) (he : x.types[i]? = some e) (hcreated : e.isCreated = true) (hy : y ∈ e.routines)
    (howner : y.method.owner = e.type) (hnative : y.native = none) (himpl : y.impl ≠ .runtime) (hbody : y.body = some b)
    {args : List Value} (hargs : args.length = y.method.argCount) {levels : Nat}
    (hdepth : m.maxDepth = levels + 1) (world : World) :
    m.invoke world y.method args = .running
      { frames := [(Machine.frameFor world y.method b args levels .push).1],
        world := (Machine.frameFor world y.method b args levels .push).2 } := by
  have hmodule : y.method.owner.module = 0 := by rw [howner, (hs he).module, hid]
  have hdef : m.def? y.method.owner = some e := by
    rw [Machine.def?, hmodule, hx, howner]
    exact hs.def? he
  have hroutine : m.routine? y.method = some y := by
    rw [Machine.routine?, hmodule, hx]
    exact hs.routine? he hy
  rw [Machine.invoke, if_neg (by simp [hdef, hcreated]), if_neg (by simp [hargs]), hdepth]
  unfold Machine.enter
  simp only [hroutine, hnative, himpl, if_false, hbody]
  rfl

/-- Compiled methods over numbers and booleans do what the reference semantics says: a call from outside gives the same
    result, or fails with the same trap, wherever the reference semantics comes to an end. -/
theorem compiled_method_correct {p : Program} {name runtime : Text} {isCanceled : Bool} {c : Compilation}
    (h : (compile p .dynamic name runtime isCanceled).Gives c) {i j : Nat} {cd : ClassDecl} {decl : MethodDecl}
    (hc : p.classes[i]? = some cd) (hd : cd.methods[j]? = some decl)
    (hm : isMethod (kindNamed? p name runtime) decl = true) :
    ∃ e x, c.module.types[Module.hostCount + (p.delegates.length + i)]? = some e ∧ e.type.name = cd.name ∧
      e.methods[j]? = some x ∧
      x.method.name = decl.name ∧
      ∀ (m : Machine) (world : World) (args : List Int32) (fuel : Nat) (outcome : Except Trap (Option Int32)),
        m.modules[0]? = some c.module → 0 < m.maxDepth → m.isCanceled = false → args.length = decl.params.length →
        runMethod (kindNamed? p name runtime) fuel decl args = some outcome →
        Answers m (m.invoke world x.method (args.map .int)) outcome := by
  obtain ⟨-, c₁, hgen, hfin⟩ := Compilation.compile_gives h
  obtain ⟨c₀, c₂, hlaid, -, hgenerate, hdescribed⟩ := Compilation.generated_described hgen
  have hnames : ∀ n ∈ p.typeNames, c₀.symbols.Names (fun _ => True) n := fun _ _ _ _ _ _ _ _ => ⟨trivial, fun _ => trivial⟩
  have hdesc : Compilation.Described (fun _ => True) p c₀ c₂ := hdescribed (fun _ => trivial) hnames
  obtain ⟨f, hg⟩ := hdesc.generate (fun _ => trivial) hnames hgenerate
  obtain ⟨d, x, e, y, b, hcomp⟩ := hg.compiled hdesc hfin hc hd
  have hdecl := hcomp.declares
  simp only [isMethod, Bool.and_eq_true, List.all_eq_true] at hm
  obtain ⟨⟨hstatic, hparams⟩, hbody⟩ := hm
  refine ⟨e, y, hcomp.definition, hcomp.name, hcomp.method, by rw [hcomp.same, hdecl.name], ?_⟩
  intro m world args fuel outcome hmodule hdepth hlive hargs hrun
  have hl := hg.lowered (d, x) (List.mem_flatMap.mpr ⟨d, List.mem_of_getElem? hcomp.type, List.mem_map_of_mem hcomp.member⟩)
  have hbuilt :=
    (Compilation.Lowered.complete (hdesc.supplied (fun _ => trivial) hnames hcomp.type hcomp.member) hl).built
      hdesc.coherent.dynamic
  have hcode := (hbuilt.balanced hcomp.verified).2
  have hlocals := (Draft.verify_parts hcomp.verified).1
  -- The body is what lowering leaves, with the return that is added to it.
  obtain ⟨s, hs, -, added, w, W, hlower, hW, hdraft⟩ := hl
  rw [hdraft] at hcode hlocals
  have hok := hdesc.setting_ok (fun _ => trivial) hcomp.type hcomp.member
  have hctor : x.method.isCtor = false := hdecl.isCtor
  have hready : Ready (c₂.scopeOf x) := ⟨hdesc.coherent.dynamic, hok.int32, hok.boolean, hok.string⟩
  simp only [Compilation.lowering, hctor, Bool.false_eq_true, if_false, hdecl.body] at hlower
  have hxs : x.method.isStatic = true := by rw [hdecl.isStatic, hstatic]
  have hscope : (c₂.scopeOf x).params = numbered decl.params x.types 0 := by
    simp [Compilation.scopeOf, numbered, hxs, hdecl.params]
  have hreads := reads_of_grown hlaid (hdesc.grown.trans hs.grown)
  have hkinds := params_kinds hlaid hdecl.types hparams
  have hargCount : (args.map Value.int).length = y.method.argCount := by
    rw [hcomp.same, Method.argCount, if_pos hxs, hdecl.signature]
    simp [hargs, hdecl.types.length_eq]
  have hshaped : c.module.Shaped := hg.shaped hdesc hfin
  have hid : c.module.id = 0 := by
    rw [(hg.finish hdesc hfin).1, hg.eq]
    exact hdesc.id
  have hy : y ∈ e.routines := List.mem_append_right _ (Array.mem_toList_iff.mpr (Array.mem_of_getElem? hcomp.method))
  rw [invoke_frame hmodule hid hshaped hcomp.definition hcomp.created hy
      ((hshaped hcomp.definition).methods hcomp.method).1 hcomp.native
    hcomp.impl hcomp.body hargCount (Nat.succ_pred_eq_of_pos hdepth).symm world]
  refine Concludes.answers ?_ 0
  exact body_concludes hready hscope hreads hkinds hbody hlive hlower hW hcode hlocals hargs rfl hrun

/-- A method that divides a greatest common divisor. -/
def divisorMethod : MethodDecl where
  name := "f"
  isStatic := true
  ret := "int"
  params := [{ name := "n", type := "int" }, { name := "m", type := "int" }, { name := "d", type := "int" }]
  body := [
    .local "more" "" (.binary .ne (.ident "m") (.int 0)),
    .local "r" "int" .missing,
    .while (.ident "more") [
      .assign (.ident "r") (.binary .rem (.ident "n") (.ident "m")),
      .assign (.ident "n") (.ident "m"),
      .assign (.ident "m") (.ident "r"),
      .assign (.ident "more") (.unary .not (.binary .eq (.ident "m") (.int 0)))],
    .if (.binary .ge (.ident "n") (.int 1000)) [.return (.ident "n")] [.local "k" "bool" (.bool true)],
    .return (.binary .div (.ident "n") (.ident "d"))]

def divisorProgram : Program where
  delegates := []
  classes := [{ name := "C", fields := [], ctors := [], methods := [divisorMethod] }]

theorem compiled_method_correct_divisor : ∃ c e x, (compile divisorProgram .dynamic "m" "v4" false).Gives c ∧
    c.module.types[Module.hostCount + 0]? = some e ∧ e.methods[0]? = some x ∧
    ∃ m : Machine, m.modules = #[c.module] ∧
      Answers m (m.invoke {} x.method ([1071, 462, 3].map .int)) (.ok (some 7)) ∧
      Answers m (m.invoke {} x.method ([1071, 462, 0].map .int)) (.error .divideByZero) ∧
      Answers m (m.invoke {} x.method ([-2147483648, 0, -1].map .int)) (.error .overflow) := by
  obtain ⟨c, hc⟩ :=
    Logged.gives_of_isOk (x := compile divisorProgram .dynamic "m" "v4" false) (j := default) (by decide +kernel)
  have hm : isMethod (kindNamed? divisorProgram "m" "v4") divisorMethod = true := by decide +kernel
  obtain ⟨e, x, he, -, hx, -, hrun⟩ := compiled_method_correct (i := 0) (j := 0) hc rfl rfl hm
  let m : Machine := { modules := #[c.module], module := 0, maxDepth := 1, isCanceled := false }
  exact ⟨c, e, x, hc, he, hx, m, rfl,
      hrun m {} [1071, 462, 3] 30 (.ok (some 7)) rfl Nat.one_pos rfl rfl (by decide +kernel),
    hrun m {} [1071, 462, 0] 30 (.error .divideByZero) rfl Nat.one_pos rfl rfl (by decide +kernel),
    hrun m {} [-2147483648, 0, -1] 30 (.error .overflow) rfl Nat.one_pos rfl rfl (by decide +kernel)⟩

end Numeric
end CilCompiler
