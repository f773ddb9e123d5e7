import CilCompiler.Build
import CilCompiler.Proofs.Compilation.Outcomes
import CilCompiler.Proofs.Files

/-!
A unit of a build on its own: what becomes of it stage by stage on files that nobody else changes (`after`), what is
reported meanwhile (`history`) and what it writes (`written`). Three stages end a unit, with one of four histories
(`reports_history`), unless the compilation of its program crashes (`crashed_iff`); and a stage has the same outcome on all
files in which the input and the place of the listing are the same (`advance_congr`).
-/

namespace CilCompiler
namespace BuildUnit

/-- A unit behind a number of stages. -/
def after (u : BuildUnit) (runtime : Text) (fs : Files) : Nat → BuildUnit
  | 0 => u
  | n + 1 => ((u.after runtime fs n).advance runtime false fs).1

/-- The reports on a number of stages. -/
def history (u : BuildUnit) (runtime : Text) (fs : Files) : Nat → List BuildEvent
  | 0 => []
  | n + 1 => u.history runtime fs n ++ ((u.after runtime fs n).advance runtime false fs).2.1

/-- Whether there is no stage left. -/
def isOver (u : BuildUnit) : Bool :=
  match u.work with
  | .ended | .crashed => true
  | _ => false

/-- What a unit writes in its next stage, and where. -/
def writes (u : BuildUnit) (fs : Files) : Option (List Text × List UInt8) :=
  match u.work, fs.destination u.output with
  | .compiled listing, .ok place => some (place, listing.bytes)
  | _, _ => none

/-- What a unit has written in a number of stages, and where. -/
def written (u : BuildUnit) (runtime : Text) (fs : Files) : Nat → Option (List Text × List UInt8)
  | 0 => none
  | n + 1 => ((u.after runtime fs n).writes fs).or (u.written runtime fs n)

/-- The compilation of a unit's program crashes. -/
def Crashes (u : BuildUnit) (runtime : Text) (fs : Files) : Prop :=
  ∃ p, loadProgram fs u.input = .ok p ∧ (CilCompiler.compile p .textual u.module runtime false).Runs (.error .crash)

variable {u v : BuildUnit} {runtime : Text} {fs fs' : Files} {events : List BuildEvent}

/-! ### One stage -/

/-- What no stage changes. -/
structure Same (u v : BuildUnit) : Prop where
  input : v.input = u.input
  display : v.display = u.display
  output : v.output = u.output
  module : v.module = u.module

theorem Same.refl (u : BuildUnit) : Same u u := ⟨rfl, rfl, rfl, rfl⟩

theorem Same.trans {w : BuildUnit} (h : Same u v) (h' : Same v w) : Same u w :=
  ⟨h'.input.trans h.input, h'.display.trans h.display, h'.output.trans h.output, h'.module.trans h.module⟩

/-- All that a stage can make of a unit, with the reports on it and the files behind it. -/
inductive Advances (u : BuildUnit) (runtime : Text) (fs : Files) : BuildUnit → List BuildEvent → Files → Prop
  | notLoaded {v : BuildUnit} (f : Fault) (hwaiting : u.work = .waiting) (hsame : Same u v) (hwork : v.work = .ended)
      (hfailure : v.failure = some f) :
    Advances u runtime fs v [u.report .load .working none, u.report .load .error (some f)] fs
  | loaded {v : BuildUnit} (p : Program) (hwaiting : u.work = .waiting) (hsame : Same u v) (hwork : v.work = .loaded p)
      (hfailure : v.failure = u.failure) (hload : loadProgram fs u.input = .ok p) :
    Advances u runtime fs v [u.report .load .working none] fs
  | notCompiled {v : BuildUnit} (p : Program) (f : Fault) (hloaded : u.work = .loaded p) (hsame : Same u v)
      (hwork : v.work = .ended) (hfailure : v.failure = some f)
      (hcalm : ¬(CilCompiler.compile p .textual u.module runtime false).Runs (.error .crash)) :
    Advances u runtime fs v [u.report .compile .working none, u.report .compile .error (some f)] fs
  | compiled {v : BuildUnit} (p : Program) (listing : Text) (hloaded : u.work = .loaded p) (hsame : Same u v)
      (hwork : v.work = .compiled listing) (hfailure : v.failure = u.failure)
      (hcalm : ¬(CilCompiler.compile p .textual u.module runtime false).Runs (.error .crash)) :
    Advances u runtime fs v [u.report .compile .working none] fs
  | crashed {v : BuildUnit} (p : Program) (hloaded : u.work = .loaded p) (hsame : Same u v) (hwork : v.work = .crashed)
      (hfailure : v.failure = u.failure)
      (hcrash : (CilCompiler.compile p .textual u.module runtime false).Runs (.error .crash)) :
    Advances u runtime fs v [u.report .compile .working none] fs
  | notWritten {v : BuildUnit} (listing : Text) (f : Fault) (e : FileError) (hcompiled : u.work = .compiled listing)
      (hsame : Same u v) (hwork : v.work = .ended) (hfailure : v.failure = some f)
      (hdestination : fs.destination u.output = .error e) :
    Advances u runtime fs v [u.report .emit .working none, u.report .emit .error (some f)] fs
  | written {v : BuildUnit} (listing : Text) (place : List Text) (hcompiled : u.work = .compiled listing)
      (hsame : Same u v) (hwork : v.work = .ended) (hfailure : v.failure = u.failure)
      (hdestination : fs.destination u.output = .ok place) :
    Advances u runtime fs v [u.report .emit .working none, u.report .emit .done none] (fs.put place (.file listing.bytes))
  | idle (hover : u.isOver = true) : Advances u runtime fs u [] fs

theorem load_advances (runtime : Text) (fs : Files) (h : u.work = .waiting) :
    Advances u runtime fs (u.load fs).1 (u.load fs).2 fs := by
  unfold load
  dsimp only
  split
  · rename_i p hload
    exact .loaded p h ⟨rfl, rfl, rfl, rfl⟩ rfl rfl hload
  · rename_i f _
    exact .notLoaded f h ⟨rfl, rfl, rfl, rfl⟩ rfl rfl

theorem compile_advances (runtime : Text) (fs : Files) {p : Program} (h : u.work = .loaded p) :
    Advances u runtime fs (u.compile runtime false p).1 (u.compile runtime false p).2 fs := by
  have hruns := Compilation.run_runs (Module.new 0 .textual u.module runtime) p
  have hresult : (CilCompiler.compile p .textual u.module runtime false u.journal).1 = _ := hruns u.journal
  unfold compile
  generalize CilCompiler.compile p .textual u.module runtime false u.journal = out at hresult
  obtain ⟨result, journal⟩ := out
  -- A program has one outcome, whatever has been noted before.
  have calm : result ≠ .error .crash → ¬(CilCompiler.compile p .textual u.module runtime false).Runs (.error .crash) :=
    fun hne hcrash => hne (hresult.trans ((hruns {}).symm.trans (hcrash {})))
  cases result with
  | ok c => exact .compiled p c.module.listing h ⟨rfl, rfl, rfl, rfl⟩ rfl rfl (calm nofun)
  | error f =>
    by_cases hf : f = .crash
    · subst hf
      have hcrash : Compilation.outcome (Module.new 0 .textual u.module runtime) p = .error .crash := hresult.symm
      rw [hcrash] at hruns
      exact .crashed p h ⟨rfl, rfl, rfl, rfl⟩ rfl rfl hruns
    · have hcalm := calm fun he => hf (Except.error.inj he)
      cases f with
      | crash => exact absurd rfl hf
      | _ => exact .notCompiled p _ h ⟨rfl, rfl, rfl, rfl⟩ rfl rfl hcalm

theorem emit_advances {listing : Text} (h : u.work = .compiled listing) :
    Advances u runtime fs (u.emit listing fs).1 (u.emit listing fs).2.1 (u.emit listing fs).2.2 := by
  unfold emit
  dsimp only [through]
  rw [Files.write_eq]
  cases hd : fs.destination u.output with
  | ok place => exact .written listing place h ⟨rfl, rfl, rfl, rfl⟩ rfl rfl hd
  | error e => exact .notWritten listing _ e h ⟨rfl, rfl, rfl, rfl⟩ rfl rfl hd

theorem advance_advances (u : BuildUnit) (runtime : Text) (fs : Files) :
    Advances u runtime fs (u.advance runtime false fs).1 (u.advance runtime false fs).2.1
      (u.advance runtime false fs).2.2 := by
  unfold advance
  cases h : u.work with
  | waiting =>
    have hload := load_advances runtime fs h
    generalize u.load fs = outcome at hload ⊢
    exact hload
  | loaded p =>
    have hcompile := compile_advances runtime fs h
    dsimp only
    generalize u.compile runtime false p = outcome at hcompile ⊢
    exact hcompile
  | compiled listing => exact emit_advances h
  | ended | crashed => exact .idle (by rw [isOver, h])

theorem Advances.same (h : Advances u runtime fs v events fs') : Same u v := by
  cases h with
  | idle => exact .refl u
  | _ => assumption

theorem writes_some {place : List Text} {content : List UInt8} (h : u.writes fs = some (place, content)) :
    fs.destination u.output = .ok place ∧ u.isOver = false := by
  unfold writes at h
  split at h
  · rename_i hwork hdestination
    cases h
    exact ⟨hdestination, by rw [isOver, hwork]⟩
  · cases h

/-- A stage changes the files by what the unit writes, and ends the work with it. -/
theorem Advances.files (h : Advances u runtime fs v events fs') :
    match u.writes fs with
    | some (place, content) => v.isOver = true ∧ fs' = fs.put place (.file content)
    | none => fs' = fs := by
  unfold writes
  cases h with
  | notLoaded f hwork | loaded p hwork | notCompiled p f hwork | compiled p listing hwork | crashed p hwork => rw [hwork]
  | idle hover =>
    unfold isOver at hover
    split at hover
    · rename_i hwork
      rw [hwork]
    · rename_i hwork
      rw [hwork]
    · cases hover
  | notWritten listing f e hwork _ _ _ hd => rw [hwork, hd]
  | written listing place hwork _ hended _ hd =>
    rw [hwork, hd]
    exact ⟨by rw [isOver, hended], rfl⟩

/-- A stage has the same outcome on all files in which its input and the place of its listing are the same. -/
theorem advance_congr (hload : u.work = .waiting → loadProgram fs' u.input = loadProgram fs u.input)
    (hdestination : fs'.destination u.output = fs.destination u.output) :
    (u.advance runtime false fs').1 = (u.advance runtime false fs).1 ∧
      (u.advance runtime false fs').2.1 = (u.advance runtime false fs).2.1 := by
  unfold advance
  split
  · have hload := hload ‹_›
    have hbegun : loadProgram fs' u.begin.input = loadProgram fs u.begin.input := hload
    unfold load
    dsimp only [through]
    rw [hbegun]
    exact ⟨rfl, rfl⟩
  · exact ⟨rfl, rfl⟩
  · unfold emit
    dsimp only [through]
    rw [Files.write_eq, Files.write_eq, hdestination]
    cases fs.destination u.output <;> exact ⟨rfl, rfl⟩
  · exact ⟨rfl, rfl⟩
  · exact ⟨rfl, rfl⟩

theorem advance_over (h : u.isOver = true) : u.advance runtime false fs = (u, [], fs) := by
  unfold isOver at h
  unfold advance
  split at h
  · rename_i hwork
    rw [hwork]
  · rename_i hwork
    rw [hwork]
  · cases h

theorem writes_over (h : u.isOver = true) : u.writes fs = none := by
  cases hw : u.writes fs with
  | none => rfl
  | some pair =>
    rw [(writes_some hw).2] at h
    cases h

/-! ### Several stages -/

theorem after_same (u : BuildUnit) (runtime : Text) (fs : Files) (n : Nat) : Same u (u.after runtime fs n) := by
  induction n with
  | zero => exact .refl u
  | succ n ih => exact ih.trans (advance_advances (u.after runtime fs n) runtime fs).same

/-- Nothing becomes of a unit whose work is over. -/
theorem over_succ {n : Nat} (h : (u.after runtime fs n).isOver = true) :
    u.after runtime fs (n + 1) = u.after runtime fs n ∧ u.history runtime fs (n + 1) = u.history runtime fs n ∧
      u.written runtime fs (n + 1) = u.written runtime fs n := by
  have hadvance : (u.after runtime fs n).advance runtime false fs = (u.after runtime fs n, [], fs) := advance_over h
  refine ⟨?_, ?_, ?_⟩
  · rw [after, hadvance]
  · rw [history, hadvance, List.append_nil]
  · rw [written, writes_over h]
    rfl

theorem over_later {n m : Nat} (h : (u.after runtime fs n).isOver = true) (hm : n ≤ m) :
    u.after runtime fs m = u.after runtime fs n ∧ u.history runtime fs m = u.history runtime fs n ∧
      u.written runtime fs m = u.written runtime fs n := by
  induction hm with
  | refl => exact ⟨rfl, rfl, rfl⟩
  | @step m _ ih =>
    have hover : (u.after runtime fs m).isOver = true := by rw [ih.1]; exact h
    have hstep := over_succ hover
    exact ⟨hstep.1.trans ih.1, hstep.2.1.trans ih.2.1, hstep.2.2.trans ih.2.2⟩

/-- A unit writes at the place of its listing, in its last stage. -/
theorem written_some {n : Nat} {place : List Text} {content : List UInt8}
    (h : u.written runtime fs n = some (place, content)) :
    fs.destination u.output = .ok place ∧ (u.after runtime fs n).isOver = true := by
  induction n with
  | zero => cases h
  | succ n ih =>
    have hfiles := (advance_advances (u.after runtime fs n) runtime fs).files
    rw [written] at h
    cases hw : (u.after runtime fs n).writes fs with
    | none =>
      rw [hw] at h
      obtain ⟨hd, hover⟩ := ih h
      exact ⟨hd, by rw [(over_succ hover).1]; exact hover⟩
    | some pair =>
      rw [hw] at h hfiles
      cases h
      have hdestination := (writes_some hw).1
      rw [(after_same u runtime fs n).output] at hdestination
      exact ⟨hdestination, hfiles.1⟩

/-- The reports on a unit from the time it is planned until its work has ended, with the fault it ends with: the stages
    it has gone through, and the one that fails. -/
inductive Reports (u : BuildUnit) : Option Fault → List BuildEvent → Prop
  | notLoaded (f : Fault) : Reports u (some f) [u.queued, u.report .load .working none, u.report .load .error (some f)]
  | notCompiled (f : Fault) : Reports u (some f)
      [u.queued, u.report .load .working none, u.report .compile .working none, u.report .compile .error (some f)]
  | notWritten (f : Fault) : Reports u (some f)
      [u.queued, u.report .load .working none, u.report .compile .working none, u.report .emit .working none,
        u.report .emit .error (some f)]
  | written : Reports u none
      [u.queued, u.report .load .working none, u.report .compile .working none, u.report .emit .working none,
        u.report .emit .done none]

/-- The reports on a unit so far, with how far the work on it is. -/
inductive ReportsSoFar (u : BuildUnit) : UnitWork → Option Fault → List BuildEvent → Prop
  | waiting : ReportsSoFar u .waiting none [u.queued]
  | loaded (p : Program) : ReportsSoFar u (.loaded p) none [u.queued, u.report .load .working none]
  | compiled (listing : Text) : ReportsSoFar u (.compiled listing) none
      [u.queued, u.report .load .working none, u.report .compile .working none]
  | crashed : ReportsSoFar u .crashed none [u.queued, u.report .load .working none, u.report .compile .working none]
  | ended {f : Option Fault} {events : List BuildEvent} (h : Reports u f events) : ReportsSoFar u .ended f events

theorem Same.report (h : Same u v) (stage : Stage) (status : Status) (f : Option Fault) :
    v.report stage status f = u.report stage status f := by
  unfold BuildUnit.report
  rw [h.display]

theorem ReportsSoFar.advance {w : BuildUnit} {later : List BuildEvent} (h : ReportsSoFar u v.work v.failure events)
    (hsame : Same u v) (hadvance : Advances v runtime fs w later fs') :
    ReportsSoFar u w.work w.failure (events ++ later) := by
  generalize hv : v.work = work at h
  generalize hf : v.failure = failure at h
  cases hadvance with
  | notLoaded f hwork _ hended hfailure =>
    rw [hsame.report, hsame.report, hended, hfailure]
    cases hv.symm.trans hwork
    cases h
    exact .ended (.notLoaded f)
  | loaded p hwork _ hloaded hfailure =>
    rw [hsame.report, hloaded, hfailure, hf]
    cases hv.symm.trans hwork
    cases h
    exact .loaded p
  | notCompiled p f hwork _ hended hfailure =>
    rw [hsame.report, hsame.report, hended, hfailure]
    cases hv.symm.trans hwork
    cases h
    exact .ended (.notCompiled f)
  | compiled p listing hwork _ hcompiled hfailure =>
    rw [hsame.report, hcompiled, hfailure, hf]
    cases hv.symm.trans hwork
    cases h
    exact .compiled listing
  | crashed p hwork _ hcrashed hfailure =>
    rw [hsame.report, hcrashed, hfailure, hf]
    cases hv.symm.trans hwork
    cases h
    exact .crashed
  | notWritten listing f e hwork _ hended hfailure =>
    rw [hsame.report, hsame.report, hended, hfailure]
    cases hv.symm.trans hwork
    cases h
    exact .ended (.notWritten f)
  | written listing place hwork _ hended hfailure =>
    rw [hsame.report, hsame.report, hended, hfailure, hf]
    cases hv.symm.trans hwork
    cases h
    exact .ended .written
  | idle _ =>
    rw [hv, hf, List.append_nil]
    exact h

theorem reportsSoFar (hwork : u.work = .waiting) (hfailure : u.failure = none) (runtime : Text) (fs : Files) (n : Nat) :
    ReportsSoFar u (u.after runtime fs n).work (u.after runtime fs n).failure (u.queued :: u.history runtime fs n) := by
  induction n with
  | zero =>
    rw [after, hwork, hfailure]
    exact .waiting
  | succ n ih => exact ih.advance (after_same u runtime fs n) (advance_advances _ runtime fs)

/-- How many stages there are left. -/
def stagesLeft (u : BuildUnit) : Nat :=
  match u.work with
  | .waiting => 3
  | .loaded _ => 2
  | .compiled _ => 1
  | .ended | .crashed => 0

theorem isOver_iff : u.isOver = true ↔ u.stagesLeft = 0 := by
  unfold isOver stagesLeft
  cases u.work <;> simp

theorem Advances.stagesLeft (h : Advances u runtime fs v events fs') : v.stagesLeft ≤ u.stagesLeft - 1 := by
  cases h with
  | idle hover => exact Nat.le_of_eq (by rw [isOver_iff.mp hover])
  | _ => simp [BuildUnit.stagesLeft, *]

theorem over_of_three (u : BuildUnit) (runtime : Text) (fs : Files) : (u.after runtime fs 3).isOver = true := by
  have hstep := fun n => (advance_advances (u.after runtime fs n) runtime fs).stagesLeft
  have hmost : u.stagesLeft ≤ 3 := by
    unfold BuildUnit.stagesLeft
    split <;> decide
  have h₀ : (u.after runtime fs 1).stagesLeft ≤ u.stagesLeft - 1 := hstep 0
  have h₁ : (u.after runtime fs 2).stagesLeft ≤ (u.after runtime fs 1).stagesLeft - 1 := hstep 1
  have h₂ : (u.after runtime fs 3).stagesLeft ≤ (u.after runtime fs 2).stagesLeft - 1 := hstep 2
  rw [isOver_iff]
  omega

/-! ### Crashes -/

/-- A unit that has been loaded holds the program of its input. -/
theorem loaded_program (hwork : u.work = .waiting) {n : Nat} {p : Program} (h : (u.after runtime fs n).work = .loaded p) :
    loadProgram fs u.input = .ok p := by
  induction n generalizing p with
  | zero =>
    rw [after, hwork] at h
    cases h
  | succ n ih =>
    have hadvance := advance_advances (u.after runtime fs n) runtime fs
    rw [after] at h
    generalize (u.after runtime fs n).advance runtime false fs = out at h hadvance
    obtain ⟨v, events, fs'⟩ := out
    dsimp only at h hadvance
    cases hadvance with
    | loaded p' _ _ hloaded _ hload =>
      cases h.symm.trans hloaded
      rw [← (after_same u runtime fs n).input]
      exact hload
    | idle _ => exact ih h
    | notLoaded f _ _ hw | notCompiled p f _ _ hw | compiled p l _ _ hw | crashed p _ _ hw | notWritten l f e _ _ hw
      | written l place _ _ hw =>
      cases h.symm.trans hw

theorem crashes_of_crashed (hwork : u.work = .waiting) {n : Nat} (h : (u.after runtime fs n).work = .crashed) :
    u.Crashes runtime fs := by
  induction n with
  | zero =>
    rw [after, hwork] at h
    cases h
  | succ n ih =>
    have hsame := after_same u runtime fs n
    have hadvance := advance_advances (u.after runtime fs n) runtime fs
    rw [after] at h
    generalize (u.after runtime fs n).advance runtime false fs = out at h hadvance
    obtain ⟨v, events, fs'⟩ := out
    dsimp only at h hadvance
    cases hadvance with
    | crashed p hloaded _ _ _ hcrash =>
      rw [hsame.module] at hcrash
      exact ⟨p, loaded_program hwork hloaded, hcrash⟩
    | idle _ => exact ih h
    | notLoaded f _ _ hw | loaded p _ _ hw | notCompiled p f _ _ hw | compiled p l _ _ hw | notWritten l f e _ _ hw
      | written l place _ _ hw =>
      cases h.symm.trans hw

theorem Advances.crashed_of_loaded (h : Advances u runtime fs v events fs') {p : Program} (hloaded : u.work = .loaded p)
    (hcrash : (CilCompiler.compile p .textual u.module runtime false).Runs (.error .crash)) : v.work = .crashed := by
  cases h with
  | crashed p' _ _ hw => exact hw
  | notCompiled p' f hwork _ _ _ hcalm | compiled p' l hwork _ _ _ hcalm =>
    cases hloaded.symm.trans hwork
    exact absurd hcrash hcalm
  | notLoaded f hwork | loaded p' hwork | notWritten l f e hwork | written l place hwork => cases hloaded.symm.trans hwork
  | idle hover =>
    rw [isOver, hloaded] at hover
    cases hover

/-- A unit crashes if and only if the compilation of its program does. -/
theorem crashed_iff (hwork : u.work = .waiting) : (u.after runtime fs 3).hasCrashed = true ↔ u.Crashes runtime fs := by
  constructor
  · intro h
    unfold hasCrashed at h
    split at h
    · exact crashes_of_crashed hwork ‹_›
    · cases h
  · rintro ⟨p, hload, hcrash⟩
    have hone : (u.after runtime fs 1).work = .loaded p := by
      have hload : loadProgram fs u.begin.input = .ok p := hload
      show (u.advance runtime false fs).1.work = _
      rw [advance, hwork]
      dsimp only [load, through]
      rw [hload]
      rfl
    have htwo : (u.after runtime fs 2).work = .crashed := by
      rw [← (after_same u runtime fs 1).module] at hcrash
      exact (advance_advances _ runtime fs).crashed_of_loaded hone hcrash
    rw [(over_succ (by rw [isOver, htwo])).1, hasCrashed, htwo]

/-- The reports on a unit whose work begins are in order, unless it crashes. -/
theorem reports_history (hwork : u.work = .waiting) (hfailure : u.failure = none)
    (hcalm : (u.after runtime fs 3).hasCrashed = false) :
    Reports u (u.after runtime fs 3).failure (u.queued :: u.history runtime fs 3) := by
  have h := reportsSoFar hwork hfailure runtime fs 3
  have hover := over_of_three u runtime fs
  unfold isOver at hover
  unfold hasCrashed at hcalm
  generalize (u.after runtime fs 3).work = work at h hover hcalm
  generalize (u.after runtime fs 3).failure = failure at h ⊢
  generalize u.queued :: u.history runtime fs 3 = events at h ⊢
  cases h with
  | ended h => exact h
  | crashed => cases hcalm
  | _ => cases hover

end BuildUnit
end CilCompiler
