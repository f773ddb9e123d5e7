import CilCompiler.Compiler
import CilCompiler.Proofs.Outcome

/-!
What a compilation comes to, its journal aside. Work that begins and ends spans comes to what the work inside them comes
to, in whatever context it is done: a type is declared (`declareNext_runs`), bodies are recorded one after the other
(`generate_runs`), a pass comes to what it does (`phase_echoes`), and a compilation to what its passes do
(`runUnder_echoes`), which is one outcome for each program (`run_runs`).
-/

namespace CilCompiler
namespace Compilation

open Logged (Runs)

variable {α : Type}

/-! ### Bodies -/

/-- What is recorded of a member's body. -/
def memberBody (c : Compilation) (d : DeclaredType) (x : Member) : Except Fault Work := do
  let (addReturn, w) ← c.lowerMember d x
  if addReturn then
    let (_, w) ← Lower.emit (.plain .ret) (c.scopeOf x) w
    return w
  else return w

/-- Keeps the body of a member. -/
def keepBody (c : Compilation) (x : Member) (w : Work) : Compilation :=
  { c with module := c.module.setDraft x.method w.draft, symbols := w.symbols }

/-- Records the body of a member. -/
def recordBody (d : DeclaredType) (c : Compilation) (x : Member) : Except Fault Compilation :=
  ((c.memberBody d x).map (c.keepBody x)).mapError (Fault.inside (Text.join [d.source.name, "::", x.method.name]))

/-- Records the bodies of a type's members. -/
def recordBodies (c : Compilation) (d : DeclaredType) : Except Fault Compilation := d.members.foldlM (recordBody d) c

theorem recordBody_ok {d : DeclaredType} {c c' : Compilation} {x : Member} :
    recordBody d c x = .ok c' ↔ ∃ w, c.memberBody d x = .ok w ∧ c.keepBody x w = c' := by
  rw [← map_eq_ok, recordBody]
  cases (c.memberBody d x).map (c.keepBody x) with
  | ok => exact ⟨id, id⟩
  | error => exact ⟨nofun, nofun⟩

/-- A body is what lowering leaves, with a return behind it where one is to be added. -/
theorem memberBody_ok {d : DeclaredType} {c : Compilation} {x : Member} {w' : Work} :
    c.memberBody d x = .ok w' ↔ ∃ b w, c.lowerMember d x = .ok (b, w) ∧
      (b = false ∧ w' = w ∨ b = true ∧ Lower.emit (.plain .ret) (c.scopeOf x) w = .ok ((), w')) := by
  constructor
  · intro h
    obtain ⟨⟨b, w⟩, hl, h⟩ := bind_eq_ok.mp h
    refine ⟨b, w, hl, ?_⟩
    cases b with
    | true =>
      obtain ⟨⟨_, w₁⟩, he, h⟩ := bind_eq_ok.mp h
      cases h
      exact .inr ⟨rfl, he⟩
    | false =>
      cases h
      exact .inl ⟨rfl, rfl⟩
  · rintro ⟨b, w, hl, ⟨rfl, rfl⟩ | ⟨rfl, he⟩⟩
    · exact bind_eq_ok.mpr ⟨_, hl, rfl⟩
    · exact bind_eq_ok.mpr ⟨_, hl, bind_eq_ok.mpr ⟨_, he, rfl⟩⟩

theorem lowerBody_runs (ctx : Context) (c : Compilation) (d : DeclaredType) (x : Member) :
    (c.lowerBody ctx d x).Runs (c.memberBody d x) := by
  refine .bind (.ofExcept _) fun (b, w) _ => ?_
  dsimp only
  split
  · exact .behind (.note _) fun _ => .bind (.ofExcept _) fun _ _ => .pure _
  · exact .pure _

theorem generateMember_runs (ctx : Context) (c : Compilation) (d : DeclaredType) (x : Member) :
    (c.generateMember ctx d x).Runs ((c.memberBody d x).map (c.keepBody x)) := by
  refine .behind (.startIn _ _ _) fun (span, ctx) => .attempt (lowerBody_runs ctx c d x) (fun w hw => ?_) (fun e he _ => ?_)
    fun he => ?_
  · rw [hw]
    exact .behind (.note _) fun _ => .pure _
  · rw [he]
    exact .behind (.note _) fun _ => .fail _
  · rw [he]
    rfl

theorem generateMembers_runs (span : Trace.Span) (ctx : Context) (d : DeclaredType) (c : Compilation) (xs : List Member) :
    (generateMembers .never span ctx d c xs).Runs (xs.foldlM (recordBody d) c) := by
  induction xs generalizing c with
  | nil => exact .pure c
  | cons x xs ih =>
    rw [List.foldlM_cons, recordBody]
    -- Nobody cancels, so that the look at the cancellation leads on.
    have look : ∀ {f : Bool → Logged Compilation} {r : Except Fault Compilation}, (f false).Runs r →
        (Logged.isCanceled .never >>= f).Runs r := fun h j => h { j with looks := j.looks + 1 }
    refine look (.attempt (generateMember_runs ctx c d x) (fun c' hc => ?_) (fun e he hne => ?_) fun he => ?_)
    · rw [hc]
      exact ih c'
    · rw [he]
      show Runs _ (.error (Fault.inside _ e))
      rw [Fault.inside_of_ne hne]
      exact .behind (.note _) fun _ => .fail _
    · rw [he]
      rfl

theorem generateType_runs (c : Compilation) (d : DeclaredType) : (c.generateType d).Runs (c.recordBodies d) := by
  unfold generateType generateTypeUnder recordBodies
  split
  · rename_i hempty
    rw [List.isEmpty_iff.mp hempty]
    exact .pure c
  · refine .behind .context fun outer => .behind (.startIn _ _ _) fun (span, ctx) => ?_
    rw [← bind_pure (d.members.foldlM (recordBody d) c)]
    exact .bind (generateMembers_runs span ctx d c d.members) fun c' _ => .behind (.note _) fun _ => .pure c'

/-- All bodies are recorded, one after the other. -/
theorem generate_runs (c : Compilation) : c.generate.Runs (c.types.foldlM recordBodies c) := by
  have steps : ∀ (ds : List DeclaredType) (c : Compilation),
      Runs (ds.foldlM generateType c) (ds.foldlM recordBodies c) := by
    intro ds
    induction ds with
    | nil => exact fun c => .pure c
    | cons d ds ih =>
      intro c
      rw [List.foldlM_cons, List.foldlM_cons]
      exact .bind (generateType_runs c d) fun c' _ => ih c'
  exact steps c.types c

/-! ### Declarations and passes -/

theorem declareNext_runs (c : Compilation) (d : DeclaredType) : (c.declareNext d).Runs (c.declareType d) := by
  refine .behind .context fun ctx => .behind (.start _ _ _) fun span => .attempt (.ofExcept _) (fun r hr => ?_)
    (fun e he _ => ?_) id
  · rw [hr]
    exact .behind (.note _) fun _ => .pure _
  · rw [he]
    exact .behind (.note _) fun _ => .fail _

/-- Declares the members of one more type. -/
def declareOnto (r : List DeclaredType × Compilation) (d : DeclaredType) :
    Except Fault (List DeclaredType × Compilation) := do
  let (d, c) ← r.2.declareType d
  return (r.1 ++ [d], c)

theorem declareTypes_runs (c : Compilation) (ds : List DeclaredType) :
    (c.declareTypes ds).Runs (ds.foldlM declareOnto ([], c)) := by
  have rest : ∀ (done : List DeclaredType) (c : Compilation), Runs (do
      let r ← c.declareTypes ds
      return (done ++ r.1, r.2)) (ds.foldlM declareOnto (done, c)) := by
    induction ds with
    | nil =>
      intro done c
      rw [List.foldlM_nil, declareTypes, pure_bind, List.append_nil]
      exact .pure _
    | cons d ds ih =>
      intro done c
      rw [List.foldlM_cons, declareOnto, bind_assoc, declareTypes, bind_assoc]
      refine Runs.bind (declareNext_runs _ _) fun r _ => ?_
      have hrest := ih (done ++ [r.1]) r.2
      simpa only [bind_assoc, pure_bind, List.append_assoc, List.singleton_append] using hrest
  simpa using rest [] c

/-- The program's types and their members. -/
def declared (p : Program) (c : Compilation) : Except Fault Compilation := do
  let symbols ← c.symbols.beginDeclarations
  let c ← { c with symbols }.defineTypes p
  let (types, c) ← c.types.foldlM declareOnto ([], c)
  { c with types }.findEntry

theorem declare_runs (p : Program) (c : Compilation) : (declare p c).Runs (declared p c) :=
  Runs.bind (.ofExcept _) fun _ _ => Runs.bind (.ofExcept _) fun c _ => Runs.bind (declareTypes_runs c c.types) fun _ _ =>
    .ofExcept _

/-- Describes a delegate. -/
def describeNext (c : Compilation) (d : DeclaredType) : Except Fault Compilation :=
  match d.delegate with
  | none => .ok c
  | some x => do
    let symbols ← c.symbols.registerDelegate x
    return { c with symbols }

theorem describeDelegates_runs (c : Compilation) (ds : List DeclaredType) :
    (c.describeDelegates ds).Runs (ds.foldlM describeNext c) := by
  induction ds generalizing c with
  | nil => exact .pure _
  | cons d ds ih =>
    rw [List.foldlM_cons]
    unfold Compilation.describeDelegates describeNext
    cases d.delegate with
    | none => exact ih c
    | some x =>
      show Runs _ ((do
        let symbols ← c.symbols.registerDelegate x
        return { c with symbols }) >>= fun c => ds.foldlM describeNext c)
      rw [bind_assoc]
      exact .bind (.ofExcept _) fun s _ => .behind .context fun _ => .behind (.note _) fun _ => ih _

/-- Describes the delegates and ends the phase of declarations. -/
def described (c : Compilation) : Except Fault Compilation := do
  let c ← c.types.foldlM describeNext c
  let symbols ← c.symbols.freeze
  return { c with symbols }

theorem describe_runs (c : Compilation) : c.describe.Runs c.described :=
  Runs.bind (describeDelegates_runs c c.types) fun _ _ => Runs.bind (.ofExcept _) fun _ _ => .pure _

/-- A pass comes to what it does. -/
theorem phase_echoes (name : Text) (work : Logged α) : (phase name work).Echoes work := by
  refine .behind .context fun outer => .behind (.startIn _ _ _) fun (span, ctx) => .behind (.startPhase _) fun number => ?_
  refine .behind (.note _) fun _ => .attempt fun r => ?_
  exact .behind (.note _) fun _ => .behind (.note _) fun _ => .behind (.note _) fun _ => .ofExcept r

theorem pass_echoes (name : Text) (work : Logged α) : (pass .never name work).Echoes work :=
  .behind (fun _ => ⟨_, _, rfl⟩) fun _ => phase_echoes name work

/-- A compilation comes to what its passes come to. -/
theorem runUnder_echoes (canceled : Cancellation) (m : Module) (p : Program) :
    (runUnder canceled m p).Echoes (passesUnder canceled p (start m)) := by
  refine .behind .context fun caller => .behind (.startIn _ _ _) fun (span, ctx) => .behind (.note _) fun _ => ?_
  refine .attempt fun r => ?_
  cases r with
  | ok c => exact .behind (.note _) fun _ => .behind (.note _) fun _ => .pure c
  | error f => exact .behind (.note _) fun _ => .behind (.note _) fun _ => .fail f

/-- What compiling a program comes to. -/
def outcome (m : Module) (p : Program) : Except Fault Compilation := do
  let c ← (start m).enterCatalog
  let c ← declared p c
  let c ← c.described
  let c ← c.types.foldlM recordBodies c
  c.finish

theorem run_runs (m : Module) (p : Program) : (run m p false).Runs (outcome m p) := by
  have pass : ∀ {α : Type} {work : Logged α} {name : Text} {r : Except Fault α}, work.Runs r →
      (pass .never name work).Runs r :=
    fun h => h.of_echoes (pass_echoes _ _)
  refine Runs.of_echoes ?_ (runUnder_echoes .never m p)
  refine .bind (pass (.ofExcept _)) fun c _ => .bind (pass (declare_runs p c)) fun c _ => ?_
  refine .bind (pass (describe_runs c)) fun c _ => .bind (pass (generate_runs c)) fun c _ => ?_
  exact pass (.ofExcept _)

end Compilation

namespace Logged

variable {α β : Type} {work : Logged α} {name : Text}

theorem Gives.of_declareNext {c : Compilation} {d : DeclaredType} {r : DeclaredType × Compilation}
    (h : (c.declareNext d).Gives r) : c.declareType d = .ok r :=
  (Compilation.declareNext_runs c d).of_gives h

theorem Gives.of_pass {a : α} (h : (Compilation.pass .never name work).Gives a) : work.Gives a :=
  h.of_echoes (Compilation.pass_echoes name work)

theorem Runs.pass {r : Except Fault α} (h : work.Runs r) : (Compilation.pass .never name work).Runs r :=
  h.of_echoes (Compilation.pass_echoes name work)

theorem Agrees.declareNext {R : DeclaredType × Compilation → DeclaredType × Compilation → Prop} {c c' : Compilation}
    {d d' : DeclaredType} (h : Agree R (c.declareType d) (c'.declareType d')) :
    Agrees R (c.declareNext d) (c'.declareNext d') :=
  .of_runs (Compilation.declareNext_runs c d) (Compilation.declareNext_runs c' d') h

theorem Agrees.pass {R : α → β → Prop} {work' : Logged β} {name' : Text} (h : Agrees R work work') :
    Agrees R (Compilation.pass .never name work) (Compilation.pass .never name' work') :=
  h.of_echoes (Compilation.pass_echoes name work) (Compilation.pass_echoes name' work')

end Logged
end CilCompiler
