import Mathlib.Data.List.Count
import Mathlib.Data.List.Induction
import CilCompiler.Proofs.Build.Units

/-!
Schedules of a build. Units that stay apart in the files (`Apart`) do not notice each other: behind any schedule, each of
them is where it would be alone behind as many stages of its own (`reached`), as long as no unit has crashed. A build whose
units do all of their stages crashes if and only if one of them would crash alone (`hasCrashed_iff`); and if none does, all
such schedules end in the same results, the same files and the same faults.
-/

namespace CilCompiler

/-- What a unit writes is neither on the way of another unit's paths nor where they lead. -/
structure BuildUnit.Apart (fs : Files) (u v : BuildUnit) : Prop where
  input : InputForm.ofPath? u.input ≠ none → ∀ place, fs.destination v.output = .ok place →
    place ∉ fs.wayOf u.input ∧ fs.place u.input ≠ .ok place
  output : ∀ place, fs.destination v.output = .ok place →
    place ∉ fs.wayOf (Files.withoutSlashes u.output) ∧ fs.place (Files.withoutSlashes u.output) ≠ .ok place

theorem loadProgram_congr {fs fs' : Files} {path : Text}
    (h : InputForm.ofPath? path ≠ none → fs'.status path = fs.status path) :
      loadProgram fs' path = loadProgram fs path := by
  unfold loadProgram
  cases hform : InputForm.ofPath? path with
  | none => rfl
  | some form =>
    rw [hform] at h
    rw [h (by simp)]

namespace Build

/-- No unit's compilation crashes. -/
def Calm (b : Build) : Prop := ∀ u ∈ b.units, ¬u.Crashes b.runtime b.files

/-- A build that begins and is not canceled, with units that stay apart from each other. -/
structure Independent (b : Build) : Prop where
  notCanceled : b.isCanceled = false
  notStopped : b.stopped = none
  waiting : ∀ u ∈ b.units, u.work = .waiting
  apart : ∀ (i j : Nat) (u v : BuildUnit), i ≠ j → b.units[i]? = some u → b.units[j]? = some v →
    BuildUnit.Apart b.files u v

/-! ### Steps -/

/-- What is reported when the unit of a number does its next stage. -/
def stepReports (b : Build) (i : Nat) : List BuildEvent :=
  if b.hasCrashed then []
  else
    match b.units[i]? with
    | none => []
    | some u => (u.advance b.runtime b.isCanceled b.files).2.1

/-- The reports while a schedule is followed, each with the number of the unit that does the stage. -/
def reported (b : Build) : List Nat → List (Nat × BuildEvent)
  | [] => []
  | i :: rest => (b.stepReports i).map (i, ·) ++ (b.step i).reported rest

variable {b c : Build} {schedule : List Nat} {i : Nat}

theorem step_none (h : b.units[i]? = none) : b.step i = b := by
  rw [step, h]
  exact ite_self b

theorem step_crashed (h : b.hasCrashed = true) (i : Nat) : b.step i = b := if_pos h

theorem stepReports_some {u : BuildUnit} (hc : b.hasCrashed = false) (h : b.units[i]? = some u) :
    b.stepReports i = (u.advance b.runtime b.isCanceled b.files).2.1 := by
  rw [stepReports, hc, h]
  rfl

/-- A stage of a unit, failed or not, cancels no build. -/
theorem step_some {u : BuildUnit} (hc : b.hasCrashed = false) (hcanceled : b.isCanceled = false)
    (hstopped : b.stopped = none)
    (h : b.units[i]? = some u) :
    b.step i = { b with
      units := b.units.set i (u.advance b.runtime false b.files).1
      events := b.events ++ (u.advance b.runtime false b.files).2.1
      files := (u.advance b.runtime false b.files).2.2 } := by
  rw [step, hc, h]
  simp only [Bool.false_eq_true, if_false, hcanceled, hstopped, BuildUnit.givesBack, Bool.and_false, Bool.false_eq_true,
      if_false, Option.or_none,
    Option.isSome_none, Bool.or_false]

theorem follow_append_one (b : Build) (schedule : List Nat) (i : Nat) :
    b.follow (schedule ++ [i]) = (b.follow schedule).step i := by
  simp only [follow, List.foldl_append, List.foldl_cons, List.foldl_nil]

theorem reported_append_one (b : Build) (schedule : List Nat) (i : Nat) :
    b.reported (schedule ++ [i]) = b.reported schedule ++ ((b.follow schedule).stepReports i).map (i, ·) := by
  induction schedule generalizing b with
  | nil => simp [reported, follow]
  | cons j schedule ih =>
    simp only [List.cons_append, reported, ih, List.append_assoc]
    rfl

theorem step_events (b : Build) (i : Nat) : (b.step i).events = b.events ++ b.stepReports i := by
  rw [step, stepReports]
  split
  · exact (List.append_nil _).symm
  · cases b.units[i]? with
    | none => exact (List.append_nil _).symm
    | some u => rfl

/-- A build that has not crashed had not crashed before. -/
theorem notCrashed_of_append (h : (b.follow (schedule ++ [i])).hasCrashed = false) :
    (b.follow schedule).hasCrashed = false := by
  by_contra hc
  rw [follow_append_one, step_crashed (by simpa using hc)] at h
  exact hc h

/-- The reports of a schedule are what is reported, in order. -/
theorem follow_events (b : Build) (schedule : List Nat) :
    (b.follow schedule).events = b.events ++ (b.reported schedule).map Prod.snd := by
  induction schedule generalizing b with
  | nil => simp [reported, follow]
  | cons i schedule ih =>
    have hfollow : b.follow (i :: schedule) = (b.step i).follow schedule := rfl
    rw [hfollow, ih, step_events, reported]
    simp [Function.comp_def]

/-! ### What a schedule leads to -/

/-- Behind a schedule, some unit has written a content at a place. -/
def Wrote (b : Build) (schedule : List Nat) (place : List Text) (content : List UInt8) : Prop :=
  ∃ (i : Nat) (u : BuildUnit), b.units[i]? = some u ∧ u.written b.runtime b.files (schedule.count i) = some (place, content)

/-- Where a schedule leads: every unit is behind as many stages of its own as the schedule gives it. -/
structure Reached (b : Build) (schedule : List Nat) (c : Build) : Prop where
  runtime : c.runtime = b.runtime
  notCanceled : c.isCanceled = false
  notStopped : c.stopped = none
  unit : ∀ i : Nat, c.units[i]? = b.units[i]?.map fun u => u.after b.runtime b.files (schedule.count i)
  untouched : Files.SameBut (fun place => ∃ content, b.Wrote schedule place content) b.files c.files
  wrote : ∀ place content, b.Wrote schedule place content → c.files.entry? place = some (.file content)

theorem Reached.begin (hb : b.Independent) : Reached b [] b where
  runtime := rfl
  notCanceled := hb.notCanceled
  notStopped := hb.notStopped
  unit i := by
    cases b.units[i]? <;> rfl
  untouched := ⟨rfl, fun _ _ => rfl⟩
  wrote := by
    rintro place content ⟨i, u, _, hwritten⟩
    cases hwritten

/-- Places that others have written at are apart from a unit whose work is not over. -/
theorem apart_of_wrote {u : BuildUnit} (hb : b.Independent) (hu : b.units[i]? = some u)
    (hwork : (u.after b.runtime b.files (schedule.count i)).isOver = false) (place : List Text)
    (h : ∃ content, b.Wrote schedule place content) :
    ∃ v, BuildUnit.Apart b.files u v ∧ b.files.destination v.output = .ok place := by
  obtain ⟨content, j, v, hv, hwritten⟩ := h
  obtain ⟨hdestination, hover⟩ := BuildUnit.written_some hwritten
  have hne : i ≠ j := by
    rintro rfl
    cases hu.symm.trans hv
    rw [hwork] at hover
    cases hover
  exact ⟨v, hb.apart i j u v hne hu hv, hdestination⟩

/-- A unit does a stage as if nobody else had done any. -/
theorem Reached.advance {u v : BuildUnit} (h : Reached b schedule c) (hb : b.Independent) (hu : b.units[i]? = some u)
    (hv : u.after b.runtime b.files (schedule.count i) = v) :
    (v.advance c.runtime false c.files).1 = (v.advance b.runtime false b.files).1 ∧
      (v.advance c.runtime false c.files).2.1 = (v.advance b.runtime false b.files).2.1 ∧
        v.writes c.files = v.writes b.files := by
  rw [h.runtime]
  have hsame : BuildUnit.Same u v := hv ▸ BuildUnit.after_same u b.runtime b.files _
  by_cases hover : v.isOver = true
  · rw [BuildUnit.advance_over hover, BuildUnit.advance_over hover, BuildUnit.writes_over hover,
        BuildUnit.writes_over hover]
    exact ⟨rfl, rfl, rfl⟩
  have hwaits : (u.after b.runtime b.files (schedule.count i)).isOver = false := by
    rw [hv]
    simpa using hover
  have hothers := apart_of_wrote hb hu hwaits
  have hload : v.work = .waiting → loadProgram c.files v.input = loadProgram b.files v.input := by
    rw [hsame.input]
    refine fun _ => loadProgram_congr fun hform => h.untouched.status (fun w hw hwrote => ?_) (fun w hw hwrote => ?_)
    · obtain ⟨other, hother, hplace⟩ := hothers w hwrote
      exact (hother.input hform w hplace).1 hw
    · obtain ⟨other, hother, hplace⟩ := hothers w hwrote
      exact (hother.input hform w hplace).2 hw
  have hdestination : c.files.destination v.output = b.files.destination v.output := by
    rw [hsame.output]
    refine h.untouched.destination (fun w hw hwrote => ?_) (fun w hw hwrote => ?_)
    · obtain ⟨other, hother, hplace⟩ := hothers w hwrote
      exact (hother.output w hplace).1 hw
    · obtain ⟨other, hother, hplace⟩ := hothers w hwrote
      exact (hother.output w hplace).2 hw
  obtain ⟨hunit, hevents⟩ := BuildUnit.advance_congr hload hdestination
  refine ⟨hunit, hevents, ?_⟩
  rw [BuildUnit.writes, BuildUnit.writes, hdestination]

theorem count_append_one (schedule : List Nat) (i j : Nat) :
    (schedule ++ [i]).count j = if i = j then schedule.count j + 1 else schedule.count j := by
  rw [List.count_append, List.count_singleton]
  by_cases h : i = j <;> simp [h]

/-- What is written behind one stage more: what was written before, and what the unit writes in the stage. -/
theorem wrote_append_one (schedule : List Nat) {u : BuildUnit} (hu : b.units[i]? = some u) (place : List Text)
    (content : List UInt8) :
    b.Wrote (schedule ++ [i]) place content ↔ b.Wrote schedule place content ∨
      (u.after b.runtime b.files (schedule.count i)).writes b.files = some (place, content) := by
  constructor
  · rintro ⟨j, v, hv, hwritten⟩
    rw [count_append_one] at hwritten
    split at hwritten
    · rename_i hij
      subst hij
      cases hu.symm.trans hv
      rw [BuildUnit.written] at hwritten
      cases hw : (u.after b.runtime b.files (schedule.count i)).writes b.files with
      | none =>
        rw [hw] at hwritten
        exact Or.inl ⟨i, u, hu, hwritten⟩
      | some pair =>
        rw [hw] at hwritten
        exact Or.inr hwritten
    · exact Or.inl ⟨j, v, hv, hwritten⟩
  · rintro (⟨j, v, hv, hwritten⟩ | hwrites)
    · refine ⟨j, v, hv, ?_⟩
      rw [count_append_one]
      split
      · rw [(BuildUnit.over_succ (BuildUnit.written_some hwritten).2).2.2, hwritten]
      · exact hwritten
    · refine ⟨i, u, hu, ?_⟩
      rw [count_append_one, if_pos rfl, BuildUnit.written, hwrites]
      rfl

theorem wrote_append_none (hi : b.units[i]? = none) (place : List Text) (content : List UInt8) :
    b.Wrote (schedule ++ [i]) place content ↔ b.Wrote schedule place content := by
  have hcount {j : Nat} {u : BuildUnit} (hu : b.units[j]? = some u) : (schedule ++ [i]).count j = schedule.count j := by
    refine (count_append_one schedule i j).trans (if_neg ?_)
    rintro rfl
    cases hi.symm.trans hu
  constructor
  · rintro ⟨j, u, hu, hwritten⟩
    exact ⟨j, u, hu, hcount hu ▸ hwritten⟩
  · rintro ⟨j, u, hu, hwritten⟩
    exact ⟨j, u, hu, (hcount hu).symm ▸ hwritten⟩

/-- The files behind a stage in which a unit writes. -/
theorem Reached.files {u v w : BuildUnit} {events : List BuildEvent} {fs : Files} (h : Reached b schedule c)
    (hb : b.Independent) (hu : b.units[i]? = some u) (hv : u.after b.runtime b.files (schedule.count i) = v)
    (hwrites : v.writes c.files = v.writes b.files) (hadvance : BuildUnit.Advances v c.runtime c.files w events fs) :
    Files.SameBut (fun place => ∃ content, b.Wrote (schedule ++ [i]) place content) b.files fs ∧
      ∀ place content, b.Wrote (schedule ++ [i]) place content → fs.entry? place = some (.file content) := by
  have hfiles := hadvance.files
  have hbefore := wrote_append_one schedule hu
  rw [hv, ← hwrites] at hbefore
  cases hw : v.writes c.files with
  | none =>
    rw [hw] at hfiles hbefore
    dsimp only at hfiles
    simp only [hbefore, hfiles, reduceCtorEq, or_false]
    exact ⟨h.untouched, h.wrote⟩
  | some pair =>
    obtain ⟨place, content⟩ := pair
    rw [hw] at hfiles hbefore
    rw [hfiles.2]
    have hsame : BuildUnit.Same u v := hv ▸ BuildUnit.after_same u b.runtime b.files _
    obtain ⟨hdestination, hwork⟩ := BuildUnit.writes_some (hwrites ▸ hw)
    rw [hsame.output] at hdestination
    have hroot := Files.destination_ne_root hdestination
    refine ⟨⟨by rw [Files.current_put, h.untouched.current], fun w hw => ?_⟩, fun place' content' hwrote => ?_⟩
    · have hne : w ≠ place := fun he => hw ⟨content, (hbefore w content).mpr (Or.inr (by rw [he]))⟩
      rw [Files.entry?_put _ hroot, if_neg hne]
      exact h.untouched.entry w fun ⟨content', hwrote⟩ => hw ⟨content', (hbefore w content').mpr (Or.inl hwrote)⟩
    · rw [Files.entry?_put _ hroot]
      rcases (hbefore place' content').mp hwrote with hwrote | heq
      · -- Nobody else writes at the place of this unit's listing.
        obtain ⟨other, hother, hplace⟩ := apart_of_wrote hb hu (hv.symm ▸ hwork) place' ⟨content', hwrote⟩
        have hne : place' ≠ place := fun he =>
          (hother.output place' hplace).2 (he ▸ (Files.destination_ok hdestination).1)
        rw [if_neg hne]
        exact h.wrote place' content' hwrote
      · cases heq
        rw [if_pos rfl]

/-- One stage more of a unit leads to where the longer schedule leads. -/
theorem Reached.step (h : Reached b schedule c) (hb : b.Independent) (hc : c.hasCrashed = false) (i : Nat) :
    Reached b (schedule ++ [i]) (c.step i) := by
  have hunit := h.unit i
  cases hu : b.units[i]? with
  | none =>
    rw [hu] at hunit
    rw [step_none hunit]
    refine ⟨h.runtime, h.notCanceled, h.notStopped, fun j => ?_, ?_, ?_⟩
    · rw [h.unit, count_append_one]
      split
      · rename_i hij
        rw [← hij, hu]
        rfl
      · rfl
    · simpa only [wrote_append_none hu] using h.untouched
    · simpa only [wrote_append_none hu] using h.wrote
  | some u =>
    rw [hu] at hunit
    rw [step_some hc h.notCanceled h.notStopped hunit]
    obtain ⟨hnext, _, hwrites⟩ := h.advance hb hu rfl
    obtain ⟨huntouched, hwrote⟩ := h.files hb hu rfl hwrites (BuildUnit.advance_advances _ c.runtime c.files)
    refine ⟨h.runtime, h.notCanceled, h.notStopped, fun j => ?_, huntouched, hwrote⟩
    show (c.units.set i _)[j]? = _
    rw [List.getElem?_set, count_append_one, h.unit j, hnext]
    by_cases hij : i = j
    · subst hij
      have hlength : i < c.units.length := (List.getElem?_eq_some_iff.mp hunit).1
      rw [if_pos rfl, if_pos hlength, if_pos rfl, hu]
      rfl
    · rw [if_neg hij, if_neg hij]

/-- Units that stay apart are where they would be alone, as long as the build has not crashed. -/
theorem reached (hb : b.Independent) (hc : (b.follow schedule).hasCrashed = false) :
    Reached b schedule (b.follow schedule) := by
  induction schedule using List.reverseRecOn with
  | nil => exact Reached.begin hb
  | append_singleton schedule i ih =>
    have hbefore := notCrashed_of_append hc
    rw [follow_append_one]
    exact (ih hbefore).step hb hbefore i

/-- A build without a unit that crashes alone does not crash. -/
theorem Calm.follow (h : b.Calm) (hb : b.Independent) (schedule : List Nat) : (b.follow schedule).hasCrashed = false := by
  induction schedule using List.reverseRecOn with
  | nil =>
    refine List.any_eq_false.mpr fun u hu => ?_
    rw [BuildUnit.hasCrashed, hb.waiting u hu]
    exact Bool.false_ne_true
  | append_singleton schedule i ih =>
    rw [follow_append_one]
    have hnext := (reached hb ih).step hb ih i
    refine List.any_eq_false.mpr fun v hv => ?_
    obtain ⟨j, hj⟩ := List.mem_iff_getElem?.mp hv
    rw [hnext.unit] at hj
    obtain ⟨u, hu, rfl⟩ := Option.map_eq_some_iff.mp hj
    have hmem := List.mem_of_getElem? hu
    intro hcrashed
    unfold BuildUnit.hasCrashed at hcrashed
    split at hcrashed
    · exact h u hmem (BuildUnit.crashes_of_crashed (hb.waiting u hmem) ‹_›)
    · cases hcrashed

/-- The reports on a unit are those on it alone. -/
theorem reported_on (hb : b.Independent) {u : BuildUnit} (hu : b.units[i]? = some u)
    (hc : (b.follow schedule).hasCrashed = false) :
    ((b.reported schedule).filter fun x => x.1 = i).map Prod.snd = u.history b.runtime b.files (schedule.count i) := by
  induction schedule using List.reverseRecOn with
  | nil => rfl
  | append_singleton schedule j ih =>
    have hbefore := notCrashed_of_append hc
    rw [reported_append_one, List.filter_append, List.map_append, ih hbefore, count_append_one]
    split
    · rename_i hji
      subst hji
      have hreached := reached hb hbefore
      have hunit := hreached.unit j
      rw [hu] at hunit
      rw [stepReports_some hbefore hunit, BuildUnit.history, ← (hreached.advance hb hu rfl).2.1, hreached.notCanceled]
      simp [Function.comp_def, List.filter_eq_self.mpr]
    · rename_i hji
      simp [hji]

/-! ### Schedules with all stages -/

/-- A schedule lets every unit do all of its stages. -/
def Complete (b : Build) (schedule : List Nat) : Prop := ∀ i < b.units.length, 3 ≤ schedule.count i

theorem count_oneByOne {count i : Nat} (h : i < count) : (oneByOne count).count i = 3 := by
  unfold oneByOne
  induction count with
  | zero => omega
  | succ n ih =>
    have hflat : (List.range (n + 1)).flatMap (List.replicate 3) = (List.range n).flatMap (List.replicate 3) ++
        List.replicate 3 n := by
      simp [List.range_succ]
    rw [hflat, List.count_append, List.count_replicate]
    by_cases hi : i = n
    · subst hi
      have hnone : ((List.range i).flatMap (List.replicate 3)).count i = 0 := by
        simp [List.count_eq_zero, List.mem_flatMap]
      simp [hnone]
    · have hne : ¬(n == i) = true := by simpa using Ne.symm hi
      rw [ih (by omega), if_neg hne]

theorem oneByOne_complete (b : Build) : b.Complete (oneByOne b.units.length) :=
  fun _ hi => Nat.le_of_eq (count_oneByOne hi).symm

theorem Complete.units (hs : b.Complete schedule) (hb : b.Independent) (hc : (b.follow schedule).hasCrashed = false) :
    (b.follow schedule).units = b.units.map fun u => u.after b.runtime b.files 3 := by
  refine List.ext_getElem? fun i => ?_
  rw [(reached hb hc).unit, List.getElem?_map]
  cases hu : b.units[i]? with
  | none => rfl
  | some u =>
    have hcount := hs i (List.getElem?_eq_some_iff.mp hu).1
    have hlater := BuildUnit.over_later (BuildUnit.over_of_three u b.runtime b.files) hcount
    exact congrArg some hlater.1

/-- A build whose units do all of their stages crashes if and only if one of them crashes alone. -/
theorem hasCrashed_iff (hs : b.Complete schedule) (hb : b.Independent) :
    (b.follow schedule).hasCrashed = true ↔ ∃ u ∈ b.units, u.Crashes b.runtime b.files := by
  constructor
  · intro h
    by_contra hnone
    rw [Calm.follow (fun u hu hcrash => hnone ⟨u, hu, hcrash⟩) hb schedule] at h
    cases h
  · rintro ⟨u, hu, hcrash⟩
    by_contra hc
    have hc : (b.follow schedule).hasCrashed = false := by simpa using hc
    have hunit : u.after b.runtime b.files 3 ∈ (b.follow schedule).units := by
      rw [hs.units hb hc]
      exact List.mem_map_of_mem hu
    exact List.any_eq_false.mp hc _ hunit ((BuildUnit.crashed_iff (hb.waiting u hu)).mpr hcrash)

/-- Where all stages have been done and the build has not crashed, no unit crashes alone. -/
theorem calm_of_follow (hs : b.Complete schedule) (hb : b.Independent) (hc : (b.follow schedule).hasCrashed = false) :
    b.Calm := by
  intro u hu hcrash
  rw [(hasCrashed_iff hs hb).mpr ⟨u, hu, hcrash⟩] at hc
  cases hc

theorem Complete.wrote (hs : b.Complete schedule) (place : List Text) (content : List UInt8) :
    b.Wrote schedule place content ↔ ∃ u ∈ b.units, u.written b.runtime b.files 3 = some (place, content) := by
  have hlater {i : Nat} {u : BuildUnit} (hu : b.units[i]? = some u) :
      u.written b.runtime b.files (schedule.count i) = u.written b.runtime b.files 3 :=
    (BuildUnit.over_later (BuildUnit.over_of_three u b.runtime b.files) (hs i (List.getElem?_eq_some_iff.mp hu).1)).2.2
  constructor
  · rintro ⟨i, u, hu, hwritten⟩
    exact ⟨u, List.mem_of_getElem? hu, hlater hu ▸ hwritten⟩
  · rintro ⟨u, hu, hwritten⟩
    obtain ⟨i, hi⟩ := List.mem_iff_getElem?.mp hu
    exact ⟨i, u, hi, (hlater hi).symm ▸ hwritten⟩

/-- All schedules with all stages leave the same at every place. -/
theorem Complete.entries {schedule' : List Nat} (hs : b.Complete schedule) (hs' : b.Complete schedule') (hb : b.Independent)
    (hcalm : b.Calm) (place : List Text) :
    Files.entry? (b.follow schedule).files place = Files.entry? (b.follow schedule').files place := by
  have h := reached hb (hcalm.follow hb schedule)
  have h' := reached hb (hcalm.follow hb schedule')
  have hsame (content : List UInt8) : b.Wrote schedule place content ↔ b.Wrote schedule' place content :=
    (hs.wrote place content).trans (hs'.wrote place content).symm
  by_cases hwrote : ∃ content, b.Wrote schedule place content
  · obtain ⟨content, hwrote⟩ := hwrote
    rw [h.wrote place content hwrote, h'.wrote place content ((hsame content).mp hwrote)]
  · have hwrote' : ¬∃ content, b.Wrote schedule' place content :=
      fun ⟨content, hc⟩ => hwrote ⟨content, (hsame content).mpr hc⟩
    rw [h.untouched.entry place hwrote, h'.untouched.entry place hwrote']

/-- The fault of a build that is not canceled is that of its units. -/
theorem fault?_follow (hb : b.Independent) (hc : (b.follow schedule).hasCrashed = false) :
    (b.follow schedule).fault? = Fault.joined? ((b.follow schedule).units.filterMap BuildUnit.failure) := by
  rw [fault?, (reached hb hc).notStopped, Option.none_or]

theorem Complete.reports (hs : b.Complete schedule) (hb : b.Independent) (hcalm : b.Calm) {u : BuildUnit}
    (hu : b.units[i]? = some u) (hfailure : u.failure = none) :
    u.Reports (u.after b.runtime b.files 3).failure
      (u.queued :: ((b.reported schedule).filter fun x => x.1 = i).map Prod.snd) := by
  have hmem := List.mem_of_getElem? hu
  have hcount := hs i (List.getElem?_eq_some_iff.mp hu).1
  have hlater := BuildUnit.over_later (BuildUnit.over_of_three u b.runtime b.files) hcount
  have hcalmly : (u.after b.runtime b.files 3).hasCrashed = false := by
    simpa using mt (BuildUnit.crashed_iff (hb.waiting u hmem)).mp (hcalm u hmem)
  rw [reported_on hb hu (hcalm.follow hb schedule), hlater.2.1]
  exact BuildUnit.reports_history (hb.waiting u hmem) hfailure hcalmly

/-- What becomes of a unit alone. -/
theorem alone (hb : b.Independent) (hcalm : b.Calm) {u : BuildUnit} (hu : u ∈ b.units) :
    (({ b with units := [u] } : Build).follow (oneByOne 1)).units = [u.after b.runtime b.files 3] := by
  have hone : ({ b with units := [u] } : Build).Independent := by
    refine ⟨hb.notCanceled, hb.notStopped, fun v hv => ?_, fun i j v w hij hv hw => ?_⟩
    · rw [List.mem_singleton.mp hv]
      exact hb.waiting u hu
    have hi := (List.getElem?_eq_some_iff.mp hv).1
    have hj := (List.getElem?_eq_some_iff.mp hw).1
    simp only [List.length_singleton] at hi hj
    omega
  have hcalm : ({ b with units := [u] } : Build).Calm := fun v hv => List.mem_singleton.mp hv ▸ hcalm u hu
  exact (oneByOne_complete { b with units := [u] }).units hone (hcalm.follow hone _)

end Build
end CilCompiler
