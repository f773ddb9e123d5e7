import Mathlib.Data.List.Nodup
import CilCompiler.Proofs.Compilation.Crashes
import CilCompiler.Proofs.Outcome

/-!
The events of a compilation are well nested. `Event.nest` reads events one by one, with the spans that are open before
each: a span begins below the innermost of them, and the one that ends is the innermost.

`Logged.Leaves` says what work makes of the open spans and of its context, when it succeeds and when it fails; there is a
rule for each operation on the journal, and each function of the compilation is taken apart by these rules. Work that
crashes ends nothing, so that of a crash no more is said than that its events can be read.

A compilation that does not crash leaves no span open, in whichever pass or member it fails and whenever it is canceled
(`traced_nested`). One that crashes does (`crash_leaves_spans`).
-/

namespace CilCompiler

namespace Trace

/-- Reads an event, with the spans that are open before it, innermost first. A span begins, and a point is passed, below
    the innermost open span, or below `caller` where none is open; and the span that ends is the innermost one. The
    answer is the spans that are open then. -/
def Event.nest (caller : Nat) (opened : List Nat) (e : Event) : Option (List Nat) :=
  match e.kind with
  | 1 => if e.parentId = opened.headD caller then some (e.spanId :: opened) else none
  | 2 =>
    match opened with
    | s :: rest => if e.spanId = s then some rest else none
    | [] => none
  | 3 => if e.parentId = opened.headD caller then some opened else none
  | _ => none

/-- The numbers of the spans that begin. -/
def beginnings (es : List Event) : List Nat := (es.filter fun e => e.kind = 1).map Event.spanId

/-- The numbers of the spans that end. -/
def endings (es : List Event) : List Nat := (es.filter fun e => e.kind = 2).map Event.spanId

theorem beginnings_append (es fs : List Event) : beginnings (es ++ fs) = beginnings es ++ beginnings fs := by
  simp [beginnings]

theorem endings_append (es fs : List Event) : endings (es ++ fs) = endings es ++ endings fs := by
  simp [endings]

/-- What an event does to the open spans. -/
theorem Event.nest_cases {e : Event} {caller : Nat} {opened behind : List Nat} (h : e.nest caller opened = some behind) :
    e.kind = 1 ∧ behind = e.spanId :: opened ∨ e.kind = 2 ∧ opened = e.spanId :: behind ∨ e.kind = 3 ∧ behind = opened := by
  unfold nest at h
  split at h
  next hk => simp_all
  next hk =>
    split at h
    · simp_all
    · cases h
  next hk => simp_all
  next => cases h

/-- In well-nested events the spans that end, with those left open, are those that begin, with those open before. -/
theorem endings_perm {es : List Event} {caller : Nat} {opened behind : List Nat}
    (h : es.foldlM (Event.nest caller) opened = some behind) : (endings es ++ behind).Perm (beginnings es ++ opened) := by
  induction es generalizing opened with
  | nil =>
    cases h
    exact .refl _
  | cons e es ih =>
    rw [List.foldlM_cons] at h
    obtain ⟨next, hnext, h⟩ := Option.bind_eq_some_iff.mp h
    have ih := ih h
    rw [← List.singleton_append, endings_append, beginnings_append]
    rcases Event.nest_cases hnext with ⟨hk, rfl⟩ | ⟨hk, rfl⟩ | ⟨hk, rfl⟩
    · have hends : endings [e] = [] ∧ beginnings [e] = [e.spanId] := by simp [endings, beginnings, hk]
      rw [hends.1, hends.2]
      exact ih.trans List.perm_middle
    · have hends : endings [e] = [e.spanId] ∧ beginnings [e] = [] := by simp [endings, beginnings, hk]
      rw [hends.1, hends.2]
      exact (ih.cons e.spanId).trans List.perm_middle.symm
    · have hends : endings [e] = [] ∧ beginnings [e] = [] := by simp [endings, beginnings, hk]
      rw [hends.1, hends.2]
      exact ih

/-! ### Spans -/

/-- The spans that are open inside a span. -/
def Span.inside (s : Span) (opened : List Nat) : List Nat := if s.isInert then opened else s.id :: opened

@[simp] theorem Span.inside_withExtra (s : Span) (key value : Text) (opened : List Nat) :
    (s.withExtra key value).inside opened = s.inside opened := by
  unfold Span.withExtra
  split <;> rfl

end Trace

open Trace

/-- What is done in a span is done below the innermost open one. -/
theorem Context.span_below {ctx : Context} {caller : Nat} {opened : List Nat}
    (h : ctx.span = opened.headD caller) (s : Span) :
    (ctx.below s).span = (s.inside opened).headD caller := by
  unfold Context.below Span.inside
  split
  · exact h
  · rfl

namespace Journal
variable {j j₁ j' : Journal} {caller : Nat} {opened opened₁ opened' : List Nat}

/-- One journal goes on from another with events that take the open spans from some to others. The spans that begin among
    them have the next numbers. -/
def Leads (caller : Nat) (opened : List Nat) (j : Journal) (opened' : List Nat) (j' : Journal) : Prop :=
  ∃ es k, j'.events.toList = j.events.toList ++ es ∧ es.foldlM (Event.nest caller) opened = some opened' ∧
    beginnings es = List.range' (j.lastSpan + 1) k ∧ j'.lastSpan = j.lastSpan + k

/-- Nothing is handed on. -/
theorem Leads.of_same (he : j'.events = j.events) (hs : j'.lastSpan = j.lastSpan) : Leads caller opened j opened j' :=
  ⟨[], 0, by rw [he, List.append_nil], rfl, rfl, hs⟩

theorem Leads.trans (h : Leads caller opened j opened₁ j₁) (h' : Leads caller opened₁ j₁ opened' j') :
    Leads caller opened j opened' j' := by
  obtain ⟨es, k, hes, hnest, hbegin, hlast⟩ := h
  obtain ⟨fs, l, hfs, hnest', hbegin', hlast'⟩ := h'
  refine ⟨es ++ fs, k + l, ?_, ?_, ?_, ?_⟩
  · rw [hfs, hes, List.append_assoc]
  · rw [List.foldlM_append, hnest]
    exact hnest'
  · rw [beginnings_append, hbegin, hbegin', hlast, Nat.add_right_comm, List.range'_append_1]
  · rw [hlast', hlast, Nat.add_assoc]

/-- A span begins below the innermost open one. -/
theorem leads_start (j : Journal) (scale : Scale) (name : Text) {parent : Nat} (hp : parent = opened.headD caller) :
    Leads caller opened j ((j.start scale name parent).1.inside opened) (j.start scale name parent).2 := by
  unfold Journal.start Span.opened Span.inside
  cases j.level.traces scale.scope with
  | false => exact .of_same rfl rfl
  | true =>
    refine ⟨[Span.beginning ⟨j.lastSpan + 1, parent, scale.scope, name, []⟩ 0], 1, ?_, ?_, rfl, rfl⟩
    · simp [Journal.hand, Span.isInert]
    · simp [Event.nest, Span.beginning, Span.isInert, hp]

/-- The innermost open span ends. -/
theorem leads_finish (j : Journal) (s : Span) (detail : Text) :
    Leads caller (s.inside opened) j opened (j.finish s detail) := by
  unfold Journal.finish Span.inside
  split
  · exact .of_same rfl rfl
  · exact ⟨[s.ending 0 detail], 0, Array.toList_push, by simp [Event.nest, Span.ending], rfl, rfl⟩

theorem leads_point (j : Journal) {ctx : Context} (scale : Scale) (name detail : Text)
    (h : ctx.span = opened.headD caller) :
    Leads caller opened j opened (j.point ctx scale name detail) := by
  unfold Journal.point
  split
  · exact ⟨[Event.point 0 scale.scope name detail ctx.span], 0, Array.toList_push,
        by simp [Event.nest, Event.point, h], rfl, rfl⟩
  · exact .of_same rfl rfl

end Journal

/-! ### What work leaves -/

namespace Logged

/-- Where work stands: its context, and the spans that are open, innermost first. -/
structure Standing where
  context : Context
  opened : List Nat

/-- What is done in the context is done below the innermost open span. -/
def Standing.Fits (caller : Nat) (s : Standing) : Prop := s.context.span = s.opened.headD caller

variable {α β : Type} {caller : Nat} {before after failed mid midFailed : Standing} {j j₁ j' : Journal}

/-- What work leaves that comes to a result. -/
inductive Left (caller : Nat) (before after failed : Standing) (j : Journal) : Except Fault α → Journal → Prop
  | ok {a : α} {j' : Journal} : j'.context = after.context → j.Leads caller before.opened after.opened j' →
    Left caller before after failed j (.ok a) j'
  | error {f : Fault} {j' : Journal} : f ≠ .crash → j'.context = failed.context →
    j.Leads caller before.opened failed.opened j' → Left caller before after failed j (.error f) j'
  | crash {opened : List Nat} {j' : Journal} : j.Leads caller before.opened opened j' →
    Left caller before after failed j (.error .crash) j'

/-- Work stands as in `after` when it has succeeded and as in `failed` when it has failed. -/
def Leaves (caller : Nat) (x : Logged α) (before after failed : Standing) : Prop :=
  ∀ j, j.context = before.context → Left caller before after failed j (x j).1 (x j).2

/-- What comes first leads on. -/
theorem Left.behind {r : Except Fault α} (h : j.Leads caller before.opened mid.opened j₁)
    (hl : Left caller mid after failed j₁ r j') :
    Left caller before after failed j r j' := by
  cases hl with
  | ok hc hj => exact .ok hc (h.trans hj)
  | error hne hc hj => exact .error hne hc (h.trans hj)
  | crash hj => exact .crash (h.trans hj)

namespace Leaves

theorem pure (a : α) : Leaves caller (Pure.pure a) before before failed := fun _ hj => .ok hj (.of_same rfl rfl)

theorem fail {f : Fault} (hf : f ≠ .crash) : Leaves caller (Logged.fail f : Logged α) before after before :=
  fun _ hj => .error hf hj (.of_same rfl rfl)

theorem ofExcept (r : Except Fault α) : Leaves caller (Logged.ofExcept r) before before before := by
  intro j hj
  have same : j.Leads caller before.opened before.opened j := .of_same rfl rfl
  cases r with
  | ok a => exact .ok hj same
  | error f =>
    by_cases hf : f = .crash
    · subst hf
      exact .crash same
    · exact .error hf hj same

/-- What is written down without handing events on. -/
theorem note {f : Journal → Journal}
    (hf : ∀ j, (f j).events = j.events ∧ (f j).lastSpan = j.lastSpan ∧ (f j).context = j.context) :
    Leaves caller (Logged.note f) before before failed := fun j hj =>
  .ok ((hf j).2.2.trans hj) (.of_same (hf j).1 (hf j).2.1)

theorem setContext (ctx : Context) : Leaves caller (Logged.setContext ctx) before { before with context := ctx } failed :=
  fun _ _ => .ok rfl (.of_same rfl rfl)

theorem finish {s : Span} {opened : List Nat} (detail : Text) (h : before.opened = s.inside opened) :
    Leaves caller (Logged.finish s detail) before { before with opened } failed := by
  intro j hj
  refine .ok (a := ()) ?_ ?_
  · show (j.finish s detail).context = before.context
    unfold Journal.finish
    split <;> exact hj
  · rw [h]
    exact j.leads_finish s detail

theorem point {ctx : Context} (scale : Scale) (name detail : Text) (h : ctx.span = before.opened.headD caller) :
    Leaves caller (Logged.point ctx scale name detail) before before failed := by
  intro j hj
  refine .ok (a := ()) ?_ (j.leads_point scale name detail h)
  show (j.point ctx scale name detail).context = before.context
  unfold Journal.point
  split <;> exact hj

theorem bind {x : Logged α} {f : α → Logged β} (hx : Leaves caller x before mid failed)
    (hf : ∀ a, Leaves caller (f a) mid after failed) : Leaves caller (x >>= f) before after failed := by
  intro j hj
  have hleft := hx j hj
  rw [bind_run]
  generalize x j = p at hleft
  obtain ⟨r, j₁⟩ := p
  cases hleft with
  | ok hc hl => exact .behind hl (hf _ j₁ hc)
  | error hne hc hl => exact .error hne hc hl
  | crash hl => exact .crash hl

/-- Work that goes on with the outcome of other work; after a crash it does not go on. -/
theorem attempt {x : Logged α} {f : Except Fault α → Logged β} (hx : Leaves caller x before mid midFailed)
    (hok : ∀ a, Leaves caller (f (.ok a)) mid after failed)
    (herror : ∀ e, e ≠ .crash → Leaves caller (f (.error e)) midFailed after failed) :
    Leaves caller (Logged.attempt x >>= f) before after failed := by
  intro j hj
  have hleft := hx j hj
  rw [attempt_run]
  generalize x j = p at hleft
  obtain ⟨r, j₁⟩ := p
  cases hleft with
  | ok hc hl => exact .behind hl (hok _ j₁ hc)
  | crash hl => exact .crash hl
  | @error e _ hne hc hl =>
    have hrest := Left.behind hl (herror e hne j₁ hc)
    cases e with
    | crash => exact absurd rfl hne
    | _ => exact hrest

theorem context {f : Context → Logged β} (hf : Leaves caller (f before.context) before after failed) :
    Leaves caller (Logged.context >>= f) before after failed := fun j hj => by
  have hrun := hf j hj
  rw [← hj] at hrun
  exact hrun

/-- What is done in a span that begins below the innermost open one. -/
theorem start {scale : Scale} {name : Text} {parent : Nat} {f : Span → Logged β} (hp : parent = before.opened.headD caller)
    (hf : ∀ s : Span, Leaves caller (f s) { before with opened := s.inside before.opened } after failed) :
    Leaves caller (Logged.start scale name parent >>= f) before after failed := by
  intro j hj
  have hc : (j.start scale name parent).2.context = before.context := by
    unfold Journal.start
    dsimp only
    split <;> exact hj
  exact .behind (j.leads_start scale name hp) (hf _ _ hc)

theorem startIn {ctx : Context} {scale : Scale} {name : Text} {f : Span × Context → Logged β}
    (hctx : ctx.span = before.opened.headD caller)
    (hf : ∀ s : Span, (ctx.below s).span = (s.inside before.opened).headD caller →
      Leaves caller (f (s, ctx.below s)) { before with opened := s.inside before.opened } after failed) :
    Leaves caller (Logged.startIn ctx scale name >>= f) before after failed := by
  rw [Logged.startIn, bind_assoc]
  exact start hctx fun s => hf s (Context.span_below hctx s)

theorem startPhase (name : Text) : Leaves caller (Logged.startPhase name) before before failed :=
  fun _ hj => .ok hj (.of_same rfl rfl)

theorem isCanceled (canceled : Cancellation) : Leaves caller (Logged.isCanceled canceled) before before failed :=
  fun _ hj => .ok hj (.of_same rfl rfl)

theorem checkpoint (canceled : Cancellation) : Leaves caller (Logged.checkpoint canceled) before before before := by
  refine bind (isCanceled canceled) fun b => ?_
  cases b with
  | false => exact pure ()
  | true => exact fail (by decide)

end Leaves

/-- Work that leaves the open spans and its context as they were, wherever it is done. -/
def Steady (x : Logged α) : Prop := ∀ (caller : Nat) (s : Standing), s.Fits caller → Leaves caller x s s s

namespace Steady

theorem pure (a : α) : Steady (Pure.pure a) := fun _ _ _ => .pure a

theorem ofExcept (r : Except Fault α) : Steady (Logged.ofExcept r) := fun _ _ _ => .ofExcept r

theorem bind {x : Logged α} {f : α → Logged β} (hx : x.Steady) (hf : ∀ a, (f a).Steady) : (x >>= f).Steady :=
  fun caller s hs => .bind (hx caller s hs) fun a => hf a caller s hs

theorem foldlM {σ : Type} {f : σ → α → Logged σ} (hf : ∀ s a, (f s a).Steady) (l : List α) (s : σ) :
    (l.foldlM f s).Steady := by
  induction l generalizing s with
  | nil => exact .pure s
  | cons a l ih =>
    rw [List.foldlM_cons]
    exact (hf s a).bind ih

end Steady
end Logged

/-! ### Compilations -/

namespace Compilation

open Logged (Leaves Steady Standing)

/-! The spans of types and members are ended in each branch of their own. -/

theorem declareNext_steady (c : Compilation) (d : DeclaredType) : (c.declareNext d).Steady := by
  intro caller s hs
  refine .context (.start hs fun span => .attempt (.ofExcept _) (fun r => ?_) fun e he => ?_)
  · exact .bind (.finish .empty rfl) fun _ => .pure _
  · exact .bind (.finish "failed" rfl) fun _ => .fail he

theorem declareTypes_steady (c : Compilation) (ds : List DeclaredType) : (c.declareTypes ds).Steady := by
  induction ds generalizing c with
  | nil => exact .pure _
  | cons d ds ih => exact (declareNext_steady c d).bind fun r => (ih r.2).bind fun _ => .pure _

theorem declare_steady (p : Program) (c : Compilation) : (declare p c).Steady := by
  refine .bind (.ofExcept _) fun symbols => .bind (.ofExcept _) fun c => ?_
  exact (declareTypes_steady c c.types).bind fun _ => .ofExcept _

theorem describeDelegates_steady (c : Compilation) (ds : List DeclaredType) : (c.describeDelegates ds).Steady := by
  induction ds generalizing c with
  | nil => exact .pure _
  | cons d ds ih =>
    unfold describeDelegates
    split
    · exact ih c
    · refine .bind (.ofExcept _) fun symbols caller s hs => .context (.bind (.point _ _ _ hs) fun _ => ?_)
      exact ih _ caller s hs

theorem describe_steady (c : Compilation) : c.describe.Steady :=
  (describeDelegates_steady c c.types).bind fun _ => .bind (.ofExcept _) fun _ => .pure _

section Bodies
variable {caller : Nat} {s : Standing} {ctx : Context} (c : Compilation) (d : DeclaredType) (x : Member)

theorem lowerBody_leaves (h : ctx.span = s.opened.headD caller) : Leaves caller (c.lowerBody ctx d x) s s s := by
  refine .bind (.ofExcept _) fun (addReturn, w) => ?_
  dsimp only
  split
  · exact .bind (.point _ _ _ h) fun _ => .bind (.ofExcept _) fun _ => .pure _
  · exact .pure _

theorem generateMember_leaves (h : ctx.span = s.opened.headD caller) : Leaves caller (c.generateMember ctx d x) s s s := by
  refine .startIn h fun span hspan => .attempt (lowerBody_leaves c d x hspan) (fun w => ?_) fun e he => ?_
  · exact .bind (.finish .empty (Trace.Span.inside_withExtra _ _ _ _).symm) fun _ => .pure _
  · exact .bind (.finish "failed" rfl) fun _ => .fail he

/-- Where a member fails or the work is canceled, the span of the type ends; otherwise it is still open. -/
theorem generateMembers_leaves (canceled : Cancellation) {span : Trace.Span}
    (hopen : ctx.span = (span.inside s.opened).headD caller)
    (xs : List Member) :
    Leaves caller (generateMembers canceled span ctx d c xs) { s with opened := span.inside s.opened }
      { s with opened := span.inside s.opened } s := by
  induction xs generalizing c with
  | nil => exact .pure c
  | cons x xs ih =>
    refine .bind (.isCanceled canceled) fun b => ?_
    cases b with
    | true => exact .bind (.finish "canceled" rfl) fun _ => .fail (by decide)
    | false =>
      refine .attempt (generateMember_leaves c d x hopen) (fun c' => ih c') fun e he => ?_
      exact .bind (.finish "failed" rfl) fun _ => .fail nofun

end Bodies

variable (canceled : Cancellation)

theorem generateTypeUnder_steady (c : Compilation) (d : DeclaredType) : (c.generateTypeUnder canceled d).Steady := by
  intro caller s hs
  unfold generateTypeUnder
  split
  · exact .pure _
  · refine .context (.startIn hs fun span hspan => .bind (generateMembers_leaves c d canceled hspan _) fun c' => ?_)
    exact .bind (.finish .empty (Trace.Span.inside_withExtra _ _ _ _).symm) fun _ => .pure _

/-- A pass sets the context of the work and restores it. -/
theorem phase_steady {α : Type} {work : Logged α} (h : work.Steady) (name : Text) : (phase name work).Steady := by
  intro caller s hs
  refine .context (.startIn hs fun span hspan => .bind (.startPhase name) fun number => .bind (.setContext _) fun _ => ?_)
  have behind : ∀ (r : Except Fault α) (remark : Text), Leaves caller (do
      Logged.setContext s.context
      Logged.finishPhase number remark
      Logged.finish span remark
      Logged.ofExcept r) { context := s.context.below span, opened := span.inside s.opened } s s := fun r remark =>
    .bind (.setContext _) fun _ => .bind (.note fun _ => ⟨rfl, rfl, rfl⟩) fun _ =>
      .bind (.finish _ rfl) fun _ => .ofExcept r
  exact .attempt (h caller _ hspan) (fun a => behind (.ok a) _) fun e _ => behind (.error e) _

theorem pass_steady {α : Type} {work : Logged α} (h : work.Steady) (name : Text) : (pass canceled name work).Steady :=
  .bind (fun _ _ _ => .checkpoint canceled) fun _ => phase_steady h name

theorem passesUnder_steady (p : Program) (c : Compilation) : (passesUnder canceled p c).Steady := by
  refine .bind (pass_steady canceled (.ofExcept _) _) fun c => ?_
  refine .bind (pass_steady canceled (declare_steady p c) _) fun c => ?_
  refine .bind (pass_steady canceled (describe_steady c) _) fun c => ?_
  refine .bind (pass_steady canceled (.foldlM (generateTypeUnder_steady canceled) _ _) _) fun c => ?_
  exact pass_steady canceled (.ofExcept _) _

theorem runUnder_steady (m : Module) (p : Program) : (runUnder canceled m p).Steady := by
  intro caller s hs
  refine .context (.startIn hs fun span hspan => .bind (.setContext _) fun _ => ?_)
  refine .attempt (passesUnder_steady canceled p (start m) caller _ hspan) (fun c => ?_) fun e he => ?_
  · exact .bind (.finish "ok" (Trace.Span.inside_withExtra _ _ _ _).symm) fun _ => .bind (.setContext _) fun _ => .pure _
  · exact .bind (.finish "failed" rfl) fun _ => .bind (.setContext _) fun _ => .fail he

open Trace

/-- The events of a compilation are well nested below the span that is open where it is begun, for every program, backend
    and level, however it ends and whenever it is canceled: events are read by the rules of `Event.nest`, each span begins
    once, and the spans that have begun are those that have ended and those left open. Unless the compilation crashes no
    span is left open, and its context is the one it was begun in. -/
theorem traced_nested (p : Program) (backend : Backend) (name runtime : Text) (j : Journal) :
    ∃ es opened, (runUnder canceled (Module.new 0 backend name runtime) p j).2.events.toList = j.events.toList ++ es ∧
      es.foldlM (Event.nest j.context.span) [] = some opened ∧
      (beginnings es).Nodup ∧ (∀ n ∈ beginnings es, j.lastSpan < n) ∧ (endings es ++ opened).Perm (beginnings es) ∧
      ((runUnder canceled (Module.new 0 backend name runtime) p j).1 ≠ .error .crash →
        opened = [] ∧ (runUnder canceled (Module.new 0 backend name runtime) p j).2.context = j.context) := by
  have hleft := runUnder_steady canceled (Module.new 0 backend name runtime) p j.context.span ⟨j.context, []⟩ rfl j rfl
  generalize runUnder canceled (Module.new 0 backend name runtime) p j = run at hleft ⊢
  obtain ⟨r, j'⟩ := run
  have hevents : ∃ opened, j.Leads j.context.span [] opened j' ∧
      (r ≠ .error .crash → opened = [] ∧ j'.context = j.context) := by
    cases hleft with
    | ok hc hl => exact ⟨_, hl, fun _ => ⟨rfl, hc⟩⟩
    | error _ hc hl => exact ⟨_, hl, fun _ => ⟨rfl, hc⟩⟩
    | crash hl => exact ⟨_, hl, fun h => absurd rfl h⟩
  obtain ⟨opened, ⟨es, k, hes, hnest, hbegin, -⟩, hdone⟩ := hevents
  have hperm := endings_perm hnest
  rw [List.append_nil] at hperm
  refine ⟨es, opened, hes, hnest, ?_, fun n hn => ?_, hperm, hdone⟩
  · rw [hbegin]
    exact List.nodup_range'
  · rw [hbegin, List.mem_range'_1] at hn
    omega

/-- A crash in the body of a method leaves the spans of the method, its type, the pass and the compilation open. -/
theorem crash_leaves_spans :
    (compile bracketed .textual "Rows" .empty false { level := .debug }).2.events.toList.foldlM (Event.nest 0) [] =
      some [12, 10, 7, 1] := by
  decide +kernel

end Compilation
end CilCompiler
