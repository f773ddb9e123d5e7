import Mathlib.Data.List.Basic
import Mathlib.Data.List.Nodup
import Mathlib.Data.List.TakeDrop
import Mathlib.Data.List.TakeWhile
import CilCompiler.Proofs.Build.Requests
import CilCompiler.BuildView

/-!
How inputs are shown. A path below a directory is shown without the directory's name, and any other path as it is; either
way the last name stays, unless the path is the directory itself (`behindSlash_displayName`). The listing of an input is
named for that last name, so inputs of one build that are shown alike would write the same listing, and planning refuses
them: the displays of a build's units are distinct (`BuildRequest.Begins.displays`).

What the view of a build counts. A view whose files are distinct gives each of its rows the events of its file, in
order, and no others (`BuildView.rows_foldl`), so how the events of different files are mixed does not matter. In a
build that is not canceled and does not crash the reports on every unit end with how the unit ends (`Build.Underway`).
So behind all reports of such a build, in whatever order that keeps the order on each unit, the view counts the units
that were built and the units that failed (`BuildRequest.Begins.view_counts`). -/

namespace CilCompiler

namespace Path

/-! ### Last names -/

theorem names_last {p name : Text} {init : List Text} (h : p.splitOn '/' = init ++ [name]) (hname : IsOrdinary name) :
    ∃ ns, names p = ns ++ [name] := by
  unfold names
  rw [h, List.foldl_append, List.foldl_cons, List.foldl_nil, push_ordinary hname, List.reverse_cons]
  exact ⟨_, rfl⟩

/-- The last of the names of a path that leads to something in a directory. -/
theorem names_behindSlash {p : Text} (h : IsOrdinary (behindSlash p)) : ∃ ns, names p = ns ++ [behindSlash p] :=
  names_last (splitOn_behindSlash p).choose_spec h

theorem behindSlash_clean {p : Text} (h : IsOrdinary (behindSlash p)) : behindSlash (clean p) = behindSlash p := by
  obtain ⟨ns, hns⟩ := names_behindSlash h
  have hsplit := splitOn_clean (p := p) (by simp [hns])
  rw [hns, ← List.append_assoc] at hsplit
  exact behindSlash_of_splitOn hsplit

theorem behindSlash_below (a p : Text) : behindSlash (Text.join [a, slash, p]) = behindSlash p := by
  obtain ⟨init, hinit⟩ := splitOn_behindSlash p
  have hsplit : (Text.join [a, slash, p]).splitOn '/' = (a.splitOn '/' ++ init) ++ [behindSlash p] := by
    rw [splitOn_below, hinit, List.append_assoc]
  exact behindSlash_of_splitOn hsplit

theorem behindSlash_absolute {p : Text} (h : IsOrdinary (behindSlash p)) (current : Text) :
    behindSlash (absolute current p) = behindSlash p := by
  unfold absolute join
  split
  · exact behindSlash_clean h
  · split
    · split
      · rename_i hp
        rw [show p = .empty from congrArg Text.mk (List.isEmpty_iff.mp hp)]
      · exact behindSlash_clean h
    · rw [behindSlash_clean (by rwa [behindSlash_below]), behindSlash_below]

/-- The last name of a path that leads to something in a directory is the text behind its last slash. -/
theorem base_ordinary {p : Text} (h : IsOrdinary (behindSlash p)) : base p = behindSlash p := by
  have hp : p.isEmpty = false := by
    cases hp : p.isEmpty with
    | false => rfl
    | true =>
      have hordinary := h.notEmpty
      rw [show p = .empty from congrArg Text.mk (List.isEmpty_iff.mp hp)] at hordinary
      exact absurd hordinary (by decide)
  unfold base
  simp [dropWhile_slash h.notEmpty, hp]

theorem stem_of_behindSlash {p q : Text} (hp : IsOrdinary (behindSlash p)) (hq : IsOrdinary (behindSlash q))
    (h : behindSlash p = behindSlash q) : stem p = stem q := by
  unfold stem
  rw [base_ordinary hp, base_ordinary hq, h]

/-! ### Paths from a directory -/

theorem dropCommon_append (as bs : List Text) :
    ∃ common, as = common ++ (dropCommon as bs).1 ∧ bs = common ++ (dropCommon as bs).2 := by
  induction as generalizing bs with
  | nil => exact ⟨[], rfl, rfl⟩
  | cons a as ih =>
    cases bs with
    | nil => exact ⟨[], rfl, rfl⟩
    | cons b bs =>
      rw [dropCommon]
      split
      · rename_i hab
        subst hab
        obtain ⟨common, has, hbs⟩ := ih bs
        exact ⟨a :: common, congrArg _ has, congrArg _ hbs⟩
      · exact ⟨[], rfl, rfl⟩

theorem leadsOut_up (ns : List Text) : leadsOut (Text.sepBy slash (up :: ns)) = true := by
  cases ns with
  | nil => decide
  | cons n ns =>
    have hbytes : (up ++ slash).bytes = [46, 46, 47] := by decide
    have hup : up.bytes = [46, 46] := by decide
    unfold leadsOut Text.startsWith
    rw [sepBy_cons, bytes_below, hbytes, hup]
    simp [List.isPrefixOf]

/-- A path that does not lead out of the directory it starts from ends in the last name of where it leads. -/
theorem behindSlash_relative? {origin target r : Text} (h : IsOrdinary (behindSlash target))
    (hr : relative? origin target = some r) (hin : leadsOut r = false) :
    (r = here ∧ clean origin = clean target) ∨ behindSlash r = behindSlash target := by
  unfold relative? at hr
  split at hr
  · rename_i hsame
    exact .inl ⟨(Option.some.inj hr).symm, hsame⟩
  · rename_i hdiffer
    split at hr
    · cases hr
    · rename_i habsolute
      right
      have hclean : clean target ≠ here := by
        intro hhere
        have hlast := behindSlash_clean h
        rw [hhere] at hlast
        exact h.notHere (hlast.symm.trans (by decide))
      rw [if_neg hclean] at hr
      dsimp only at hr
      obtain ⟨common, horigin, htarget⟩ := dropCommon_append (names origin) (names target)
      generalize dropCommon (names origin) (names target) = rests at hr horigin htarget
      obtain ⟨os, ts⟩ := rests
      cases os with
      | cons o os =>
        -- The path goes up first, and so leads out.
        cases ts with
        | cons t ts =>
          dsimp only at hr
          split at hr
          · cases hr
          · cases hr
            rw [List.map_cons, List.cons_append, leadsOut_up] at hin
            cases hin
        | nil =>
          cases hr
          rw [List.map_cons, List.cons_append, leadsOut_up] at hin
          cases hin
      | nil =>
        cases hr
        rw [List.map_nil, List.nil_append]
        have hts : ts ≠ [] := by
          rintro rfl
          refine hdiffer ?_
          unfold clean
          rw [show isAbsolute origin = isAbsolute target by simpa using habsolute, horigin, htarget]
        obtain ⟨ns, hns⟩ := names_behindSlash h
        have hsplit :=
          splitOn_sepBy hts fun n hn => (stacked_names target n (by rw [htarget]; exact List.mem_append_right _ hn)).1
        have hlast : ts.getLast? = some (behindSlash target) := by
          rw [← List.getLast?_append_of_ne_nil common hts, ← htarget, hns, List.getLast?_concat]
        obtain ⟨init, hinit⟩ := List.getLast?_eq_some_iff.mp hlast
        rw [hinit] at hsplit ⊢
        exact behindSlash_of_splitOn hsplit

/-- A path as it is shown. -/
def displayName (current directory p : Text) : Text :=
  if directory.trim.isEmpty then p
  else
    match relative? (absolute current directory.trim) (absolute current p) with
    | some r => if leadsOut r then p else r
    | none => p

theorem displayNames_eq_map (current directory : Text) (ps : List Text) :
    displayNames current directory ps = ps.map (displayName current directory) := by
  unfold displayNames displayName
  dsimp only
  split
  · exact (List.map_id _).symm
  · rfl

/-- What a path is shown as ends in the last name of the path, but for the path of the directory itself. -/
theorem behindSlash_displayName (current directory : Text) {p : Text} (h : IsOrdinary (behindSlash p)) :
    (displayName current directory p = here ∧ behindSlash p = behindSlash (clean (absolute current directory.trim))) ∨
      behindSlash (displayName current directory p) = behindSlash p := by
  unfold displayName
  have habsolute := behindSlash_absolute h current
  split
  · exact .inr rfl
  · split
    · rename_i r hr
      split
      · exact .inr rfl
      · rename_i hin
        rcases behindSlash_relative? (by rwa [habsolute]) hr (by simpa using hin) with ⟨hhere, hsame⟩ | hlast
        · refine .inl ⟨hhere, ?_⟩
          rw [hsame, behindSlash_clean (by rwa [habsolute]), habsolute]
        · exact .inr (hlast.trans habsolute)
    · exact .inr rfl

/-- Paths that are shown alike have the same last name. -/
theorem behindSlash_of_displayName {current directory p q : Text} (hp : IsOrdinary (behindSlash p))
    (hq : IsOrdinary (behindSlash q)) (h : displayName current directory p = displayName current directory q) :
    behindSlash p = behindSlash q := by
  have hhere : behindSlash here = here := by decide
  rcases behindSlash_displayName current directory hp with ⟨hdp, hlp⟩ | hlp <;>
    rcases behindSlash_displayName current directory hq with ⟨hdq, hlq⟩ | hlq
  · exact hlp.trans hlq.symm
  · rw [← h, hdp, hhere] at hlq
    exact absurd hlq.symm hq.notHere
  · rw [h, hdq, hhere] at hlp
    exact absurd hlp.symm hp.notHere
  · rw [← hlp, ← hlq, h]

end Path

namespace BuildRequest.Begins
variable {r : BuildRequest} {fs : Files} {b : Build}

theorem units_eq (h : r.Begins fs b) :
    b.units = r.inputs.map fun p => r.unitOf p (Path.displayName fs.currentPath r.baseDir p) := by
  rw [h.units, Path.displayNames_eq_map, ← List.map_prod_left_eq_zip, List.map_map]
  rfl

theorem displays_eq (h : r.Begins fs b) :
    b.units.map BuildUnit.display = Path.displayNames fs.currentPath r.baseDir r.inputs := by
  rw [h.units_eq, List.map_map, Path.displayNames_eq_map]
  rfl

/-- The units of a build are shown apart. -/
theorem displays (h : r.Begins fs b) (hinputs : ∀ p ∈ r.inputs, Path.IsOrdinary (Path.behindSlash p)) :
    (b.units.map BuildUnit.display).Nodup := by
  have houtputs := h.outputs
  rw [h.units_eq] at houtputs ⊢
  rw [List.pairwise_map] at houtputs
  rw [List.map_map, List.nodup_iff_pairwise_ne, List.pairwise_map]
  refine houtputs.imp_of_mem fun {p q} hp hq hne hdisplay => hne ?_
  have hstem := Path.stem_of_behindSlash (hinputs p hp) (hinputs q hq)
    (Path.behindSlash_of_displayName (hinputs p hp) (hinputs q hq) hdisplay)
  simp only [unitOf, hstem]

end BuildRequest.Begins

/-! ### Rows -/

namespace ViewRow

/-- Takes events over, one after the other. -/
def applyAll (r : ViewRow) (events : List BuildEvent) : ViewRow := events.foldl apply r

end ViewRow

namespace BuildView

/-- The row of a file is changed where there is one such row. -/
theorem modifyLast_eq_map {rows : List ViewRow} (h : (rows.map ViewRow.file).Nodup) (file : Text) (f : ViewRow → ViewRow) :
    modifyLast file f rows = rows.map fun r => if r.file = file then f r else r := by
  unfold modifyLast
  rw [List.span_eq_takeWhile_dropWhile]
  have hrows := List.takeWhile_append_dropWhile (p := fun r : ViewRow => decide (r.file ≠ file)) (l := rows.reverse)
  have hbehind : ∀ r ∈ rows.reverse.takeWhile fun r => decide (r.file ≠ file), r.file ≠ file := fun r hr => by
    simpa using List.mem_takeWhile_imp hr
  have hhead := List.head?_dropWhile_not (fun r : ViewRow => decide (r.file ≠ file)) rows.reverse
  generalize rows.reverse.takeWhile (fun r => decide (r.file ≠ file)) = behind at hrows hbehind
  generalize rows.reverse.dropWhile (fun r => decide (r.file ≠ file)) = rest at hrows hhead
  have hsame {rs : List ViewRow} (hrs : ∀ r ∈ rs, r.file ≠ file) :
      rs.map (fun r => if r.file = file then f r else r) = rs := by
    refine (List.map_congr_left fun r hr => if_neg (hrs r hr)).trans (List.map_id rs)
  have hforth := congrArg List.reverse hrows
  rw [List.reverse_reverse, List.reverse_append] at hforth
  cases rest with
  | nil =>
    rw [← hforth]
    simpa using (hsame fun r hr => hbehind r (List.mem_reverse.mp hr)).symm
  | cons r before =>
    have hr : r.file = file := by simpa using hhead
    -- The row is the only one of the file.
    have hbefore : ∀ x ∈ before, x.file ≠ file := by
      intro x hx hfile
      rw [← hforth] at h
      simp only [List.reverse_cons, List.append_assoc, List.map_append, List.map_cons, List.map_nil, List.nodup_append] at h
      refine h.2.2 x.file ?_ r.file ?_ (hfile.trans hr.symm)
      · exact List.mem_map_of_mem (List.mem_reverse.mpr hx)
      · simp
    rw [← hforth]
    simp only [List.reverse_append, List.reverse_cons, List.append_assoc, List.map_append, List.map_cons,
        List.map_nil, hr, if_true]
    rw [hsame fun x hx => hbefore x (List.mem_reverse.mp hx), hsame fun x hx => hbehind x (List.mem_reverse.mp hx)]

/-- Every row takes the events of its file. -/
theorem rows_foldl {v : BuildView} (h : (v.rows.map ViewRow.file).Nodup) (events : List BuildEvent) :
    (events.foldl apply v).rows = v.rows.map fun r => r.applyAll (events.filter fun e => e.file = r.file) := by
  induction events generalizing v with
  | nil => exact (List.map_id _).symm
  | cons e events ih =>
    have hrows : (v.apply e).rows = v.rows.map fun r => if r.file = e.file then r.apply e else r := modifyLast_eq_map h _ _
    have hfiles : (v.apply e).rows.map ViewRow.file = v.rows.map ViewRow.file := by
      rw [hrows, List.map_map]
      refine List.map_congr_left fun r _ => ?_
      show (if r.file = e.file then r.apply e else r).file = r.file
      split <;> rfl
    rw [List.foldl_cons, ih (by rwa [hfiles]), hrows, List.map_map]
    refine List.map_congr_left fun r _ => ?_
    dsimp only [Function.comp_apply]
    by_cases hr : r.file = e.file
    · rw [if_pos hr, List.filter_cons_of_pos (by simpa using hr.symm)]
      rfl
    · rw [if_neg hr, List.filter_cons_of_neg (by simpa using Ne.symm hr)]

end BuildView

/-! ### Reports on units -/

namespace BuildUnit
variable {u v : BuildUnit} {f : Option Fault} {events : List BuildEvent}

/-- The reports on a unit are of its file, and the last one says how the unit ends. -/
theorem Reports.row (h : Reports u f events) (r : ViewRow) :
    (∀ e ∈ events, e.file = u.display) ∧ (r.applyAll events).status = if f.isSome then .error else .done := by
  cases h <;> refine ⟨fun e he => ?_, rfl⟩ <;> simp only [List.mem_cons, List.not_mem_nil, or_false] at he
  · rcases he with rfl | rfl | rfl <;> rfl
  · rcases he with rfl | rfl | rfl | rfl <;> rfl
  · rcases he with rfl | rfl | rfl | rfl | rfl <;> rfl
  · rcases he with rfl | rfl | rfl | rfl | rfl <;> rfl

end BuildUnit

namespace Build
variable {b c : Build} {schedule : List Nat}

/-- Where a schedule leads a build: a unit is behind some stages, the reports on it are in order, and a stage less is left
    with each that it has done. -/
structure Underway (b : Build) (schedule : List Nat) (c : Build) : Prop where
  notCanceled : c.isCanceled = false
  notStopped : c.stopped = none
  length : c.units.length = b.units.length
  unit : ∀ (i : Nat) (u v : BuildUnit), b.units[i]? = some u → c.units[i]? = some v →
    BuildUnit.Same u v ∧ v.stagesLeft ≤ 3 - schedule.count i ∧
      BuildUnit.ReportsSoFar u v.work v.failure (u.queued :: ((b.reported schedule).filter fun x => x.1 = i).map Prod.snd)

/-- A build that begins. -/
structure Fresh (b : Build) : Prop where
  notCanceled : b.isCanceled = false
  notStopped : b.stopped = none
  waiting : ∀ u ∈ b.units, u.work = .waiting ∧ u.failure = none

theorem Underway.begin (h : b.Fresh) : Underway b [] b where
  notCanceled := h.notCanceled
  notStopped := h.notStopped
  length := rfl
  unit i u v hu hv := by
    cases hu.symm.trans hv
    obtain ⟨hwork, hfailure⟩ := h.waiting u (List.mem_of_getElem? hu)
    refine ⟨.refl u, ?_, ?_⟩
    · unfold BuildUnit.stagesLeft
      rw [hwork]
      exact Nat.le_refl 3
    · rw [hwork, hfailure]
      exact .waiting

theorem reported_other {i j : Nat} (h : i ≠ j) (events : List BuildEvent) :
    (events.map (i, ·)).filter (fun x => x.1 = j) = [] := by
  simp [h]

theorem reported_own (i : Nat) (events : List BuildEvent) :
    ((events.map (i, ·)).filter (fun x => x.1 = i)).map Prod.snd = events := by
  simp [List.filter_eq_self.mpr, Function.comp_def]

/-- One stage more of a unit. -/
theorem Underway.step (hfollow : c = b.follow schedule) (h : Underway b schedule c) (hc : c.hasCrashed = false) (i : Nat) :
    Underway b (schedule ++ [i]) (c.step i) := by
  cases hi : c.units[i]? with
  | none =>
    have hnone : b.units[i]? = none := by
      rw [List.getElem?_eq_none_iff] at hi ⊢
      rwa [← h.length]
    rw [step_none hi]
    refine ⟨h.notCanceled, h.notStopped, h.length, fun j u v hu hv => ?_⟩
    have hij : i ≠ j := by
      rintro rfl
      cases hnone.symm.trans hu
    rw [count_append_one, if_neg hij, reported_append_one, List.filter_append, reported_other hij, List.append_nil]
    exact h.unit j u v hu hv
  | some w =>
    have hreports : (b.follow schedule).stepReports i = (w.advance c.runtime false c.files).2.1 := by
      rw [← hfollow, stepReports_some hc hi, h.notCanceled]
    rw [step_some hc h.notCanceled h.notStopped hi]
    refine ⟨h.notCanceled, h.notStopped, (List.length_set ..).trans h.length, fun j u v hu hv => ?_⟩
    dsimp only at hv
    rw [count_append_one, reported_append_one, List.filter_append, List.map_append, hreports]
    by_cases hij : i = j
    · subst hij
      rw [List.getElem?_set_self (List.getElem?_eq_some_iff.mp hi).1] at hv
      obtain ⟨hsame, hleft, hso⟩ := h.unit i u w hu hi
      have hadvances := w.advance_advances c.runtime c.files
      rw [Option.some.inj hv] at hadvances
      have hfewer := hadvances.stagesLeft
      rw [if_pos rfl, reported_own, ← List.cons_append]
      exact ⟨hsame.trans hadvances.same, by omega, hso.advance hsame hadvances⟩
    · rw [List.getElem?_set_ne hij] at hv
      rw [if_neg hij, reported_other hij, List.map_nil, List.append_nil]
      exact h.unit j u v hu hv

theorem underway (h : b.Fresh) (hc : (b.follow schedule).hasCrashed = false) : Underway b schedule (b.follow schedule) := by
  induction schedule using List.reverseRecOn with
  | nil => exact Underway.begin h
  | append_singleton schedule i ih =>
    have hbefore := notCrashed_of_append hc
    rw [follow_append_one]
    exact (ih hbefore).step rfl hbefore i

/-- An order of all reports of a build, with the numbers of the units they are on, that keeps the order on each unit:
    what is reported when it is planned comes first, then what a schedule of the stages reports. -/
structure Interleaves (b : Build) (schedule : List Nat) (reports : List (Nat × BuildEvent)) : Prop where
  numbered : ∀ x ∈ reports, x.1 < b.units.length
  own : ∀ (i : Nat) (u : BuildUnit), b.units[i]? = some u →
    (reports.filter fun x => x.1 = i).map Prod.snd =
      u.queued :: ((b.reported schedule).filter fun x => x.1 = i).map Prod.snd

theorem step_length (b : Build) (i : Nat) : (b.step i).units.length = b.units.length := by
  unfold step
  split
  · rfl
  · split
    · rfl
    · exact List.length_set ..

theorem reported_numbered (b : Build) (schedule : List Nat) : ∀ x ∈ b.reported schedule, x.1 < b.units.length := by
  induction schedule generalizing b with
  | nil => exact fun _ hx => (List.not_mem_nil hx).elim
  | cons i schedule ih =>
    intro x hx
    rcases List.mem_append.mp hx with hx | hx
    · obtain ⟨e, he, rfl⟩ := List.mem_map.mp hx
      cases hi : b.units[i]? with
      | none =>
        rw [stepReports, hi] at he
        exact (List.not_mem_nil (ite_self (c := b.hasCrashed = true) ([] : List BuildEvent) ▸ he)).elim
      | some u => exact (List.getElem?_eq_some_iff.mp hi).1
    · rw [← step_length b i]
      exact ih _ x hx

/-- What is reported when units are planned, with their numbers. -/
def planned (units : List BuildUnit) : List (Nat × BuildEvent) := units.zipIdx.map fun (u, i) => (i, u.queued)

theorem planned_own {units : List BuildUnit} {i : Nat} {u : BuildUnit} (h : units[i]? = some u) :
    ((planned units).filter fun x => x.1 = i).map Prod.snd = [u.queued] := by
  induction units using List.reverseRecOn with
  | nil => cases h
  | append_singleton units w ih =>
    have hplanned : planned (units ++ [w]) = planned units ++ [(units.length, w.queued)] := by
      simp [planned, List.zipIdx_append]
    have hbelow : ∀ x ∈ planned units, x.1 < units.length := by
      intro x hx
      obtain ⟨⟨v, j⟩, hv, rfl⟩ := List.mem_map.mp hx
      exact List.snd_lt_of_mem_zipIdx hv
    rw [hplanned, List.filter_append, List.map_append]
    by_cases hi : i = units.length
    · subst hi
      rw [List.getElem?_append_right (Nat.le_refl _), Nat.sub_self, List.getElem?_cons_zero] at h
      cases h
      have hnone : (planned units).filter (fun x => x.1 = units.length) = [] :=
        List.filter_eq_nil_iff.mpr fun x hx => by simpa using Nat.ne_of_lt (hbelow x hx)
      simp [hnone]
    · have hlt : i < units.length := by
        have := (List.getElem?_eq_some_iff.mp h).1
        rw [List.length_append, List.length_singleton] at this
        omega
      rw [List.getElem?_append_left hlt] at h
      rw [ih h]
      simp [Ne.symm hi]

/-- The reports of a build as they come while it follows a schedule. -/
theorem interleaves_reported (b : Build) (schedule : List Nat) :
    b.Interleaves schedule (planned b.units ++ b.reported schedule) where
  numbered x hx := by
    rcases List.mem_append.mp hx with hx | hx
    · obtain ⟨⟨u, i⟩, hu, rfl⟩ := List.mem_map.mp hx
      exact List.snd_lt_of_mem_zipIdx hu
    · exact reported_numbered b schedule x hx
  own i u hu := by
    rw [List.filter_append, List.map_append, planned_own hu]
    rfl

/-- The reports on a unit that has done all of its stages are in order. -/
theorem Interleaves.reports {reports : List (Nat × BuildEvent)} (h : b.Interleaves schedule reports) (hb : b.Fresh)
    (hs : b.Complete schedule) (hc : (b.follow schedule).hasCrashed = false) {i : Nat} {u v : BuildUnit}
    (hu : b.units[i]? = some u) (hv : (b.follow schedule).units[i]? = some v) :
    BuildUnit.Reports u v.failure ((reports.filter fun x => x.1 = i).map Prod.snd) := by
  obtain ⟨-, hleft, hso⟩ := (underway hb hc).unit i u v hu hv
  have hcount := hs i (List.getElem?_eq_some_iff.mp hu).1
  rw [← h.own i u hu] at hso
  generalize (reports.filter fun x => x.1 = i).map Prod.snd = events at hso ⊢
  unfold BuildUnit.stagesLeft at hleft
  cases hwork : v.work with
  | ended =>
    rw [hwork] at hso
    cases hso
    assumption
  | crashed =>
    have hcrashed := List.any_eq_false.mp hc v (List.mem_of_getElem? hv)
    rw [BuildUnit.hasCrashed, hwork] at hcrashed
    exact absurd rfl hcrashed
  | _ =>
    simp only [hwork] at hleft
    omega

/-- With distinct displays, the reports on a unit are those of its file. -/
theorem Interleaves.filter_file {reports : List (Nat × BuildEvent)} (h : b.Interleaves schedule reports) (hb : b.Fresh)
    (hs : b.Complete schedule) (hc : (b.follow schedule).hasCrashed = false)
    (hdisplays : (b.units.map BuildUnit.display).Nodup) {i : Nat} {u : BuildUnit} (hu : b.units[i]? = some u) :
    (reports.map Prod.snd).filter (fun e => e.file = u.display) = (reports.filter fun x => x.1 = i).map Prod.snd := by
  rw [List.filter_map]
  refine congrArg (List.map Prod.snd) (List.filter_congr fun x hx => ?_)
  obtain ⟨j, e⟩ := x
  have hj : j < b.units.length := h.numbered _ hx
  have hw : b.units[j]? = some b.units[j] := List.getElem?_eq_getElem hj
  obtain ⟨v, hv⟩ : ∃ v, (b.follow schedule).units[j]? = some v := by
    rw [← (underway hb hc).length] at hj
    exact ⟨_, List.getElem?_eq_getElem hj⟩
  have hfile : e.file = b.units[j].display :=
    ((h.reports hb hs hc hw hv).row default).1 e (List.mem_map.mpr ⟨(j, e), List.mem_filter.mpr ⟨hx, by simp⟩, rfl⟩)
  have hi := (List.getElem?_eq_some_iff.mp hu).1
  show decide (e.file = u.display) = decide (j = i)
  rw [hfile, decide_eq_decide]
  constructor
  · intro hsame
    have hget : ∀ {k : Nat} {w : BuildUnit}, b.units[k]? = some w → (b.units.map BuildUnit.display)[k]? = some w.display :=
      fun hk => by rw [List.getElem?_map, hk, Option.map_some]
    have hlt : j < (b.units.map BuildUnit.display).length := by rwa [List.length_map]
    exact (List.getElem?_inj hlt hdisplays).mp ((hget hw).trans ((congrArg some hsame).trans (hget hu).symm))
  · rintro rfl
    rw [← (List.getElem?_eq_some_iff.mp hu).2]

end Build

namespace BuildRequest
variable {r : BuildRequest} {fs : Files} {b : Build}

theorem Begins.fresh (h : r.Begins fs b) : b.Fresh where
  notCanceled := by rw [h.begun]
  notStopped := by rw [h.begun]
  waiting _ := h.waiting

/-- Behind all reports of a build that is accepted, not canceled and does not crash, in any order that keeps the order
    on each unit, the view of the build counts as built the units that ended without a fault, and as failed those that
    ended with one. -/
theorem Begins.view_counts (h : r.Begins fs b) (hinputs : ∀ p ∈ r.inputs, Path.IsOrdinary (Path.behindSlash p))
    {schedule : List Nat} (hs : b.Complete schedule) (hc : (b.follow schedule).hasCrashed = false)
    {reports : List (Nat × BuildEvent)} (hreports : b.Interleaves schedule reports) (title : Text) :
    let v := (reports.map Prod.snd).foldl BuildView.apply
      (BuildView.new title (Path.displayNames fs.currentPath r.baseDir r.inputs))
    v.built = (b.follow schedule).units.countP (fun u => u.failure.isNone) ∧
      v.failed = (b.follow schedule).units.countP (fun u => u.failure.isSome) := by
  intro v
  have hdisplays := h.displays hinputs
  have hnew : (BuildView.new title (Path.displayNames fs.currentPath r.baseDir r.inputs)).rows =
      b.units.map fun u => { file := u.display } := by
    rw [BuildView.new, ← h.displays_eq, List.map_map]
    rfl
  have hrows : v.rows = b.units.map fun u =>
      ({ file := u.display } : ViewRow).applyAll ((reports.map Prod.snd).filter fun e => e.file = u.display) := by
    have hfiles :
        ((BuildView.new title (Path.displayNames fs.currentPath r.baseDir r.inputs)).rows.map ViewRow.file).Nodup := by
      rw [hnew, List.map_map]
      exact hdisplays
    rw [BuildView.rows_foldl hfiles, hnew, List.map_map]
    rfl
  have hstatus : v.rows.map ViewRow.status =
      (b.follow schedule).units.map fun u => if u.failure.isSome then Status.error else .done := by
    rw [hrows, List.map_map]
    refine List.ext_getElem? fun i => ?_
    rw [List.getElem?_map, List.getElem?_map]
    have hlength := (Build.underway h.fresh hc).length
    cases hu : b.units[i]? with
    | none =>
      have hnone : (b.follow schedule).units[i]? = none := by
        rw [List.getElem?_eq_none_iff] at hu ⊢
        rwa [hlength]
      rw [hnone]
      rfl
    | some u =>
      have hi : i < (b.follow schedule).units.length := hlength ▸ (List.getElem?_eq_some_iff.mp hu).1
      have hv := List.getElem?_eq_getElem hi
      rw [hv, Option.map_some, Option.map_some, Function.comp_apply, hreports.filter_file h.fresh hs hc hdisplays hu]
      exact congrArg some ((hreports.reports h.fresh hs hc hu hv).row _).2
  have hcount (s : Status) : v.rows.countP (fun r => r.status = s) =
      (b.follow schedule).units.countP fun u => (if u.failure.isSome then Status.error else .done) = s := by
    have hmap := congrArg (List.countP fun x => decide (x = s)) hstatus
    rwa [List.countP_map, List.countP_map] at hmap
  refine ⟨(hcount .done).trans (List.countP_congr fun u _ => ?_), (hcount .error).trans (List.countP_congr fun u _ => ?_)⟩
  · cases u.failure <;> simp
  · cases u.failure <;> simp

/-- Two inputs, of which only the first is there, with a program without types. -/
def pair : BuildRequest := { inputs := ["src/a.json", "src/b.ilt"], baseDir := "src" }

def pairFiles : Files :=
  { entries := [(["src"], .directory), (["src", "a.json"], .file (Text.bytes "\x7b\"schema\":1\x7d"))] }

/-- The input that is there is built, and the other one fails. -/
theorem view_counts_pair :
    let reports := Build.planned (pair.begun pairFiles).units ++ (pair.begun pairFiles).reported [1, 0, 1, 0, 1, 0]
    let v := (reports.map Prod.snd).foldl BuildView.apply
      (BuildView.new .empty (Path.displayNames pairFiles.currentPath pair.baseDir pair.inputs))
    pair.Begins pairFiles (pair.begun pairFiles) ∧ (∀ p ∈ pair.inputs, Path.IsOrdinary (Path.behindSlash p)) ∧
      (pair.begun pairFiles).Complete [1, 0, 1, 0, 1, 0] ∧
      ((pair.begun pairFiles).follow [1, 0, 1, 0, 1, 0]).hasCrashed = false ∧
      (pair.begun pairFiles).Interleaves [1, 0, 1, 0, 1, 0] reports ∧ v.built = 1 ∧ v.failed = 1 := by
  have hbegins : pair.Begins pairFiles (pair.begun pairFiles) := ⟨by decide, rfl, rfl, by decide, rfl⟩
  have hinputs : ∀ p ∈ pair.inputs, Path.IsOrdinary (Path.behindSlash p) := by
    intro p hp
    simp only [pair, List.mem_cons, List.not_mem_nil, or_false] at hp
    rcases hp with rfl | rfl <;> exact ⟨by unfold Path.IsName; decide, by decide, by decide, by decide⟩
  have hcomplete : (pair.begun pairFiles).Complete [1, 0, 1, 0, 1, 0] := by
    show ∀ i < 2, _
    decide
  have hcalm : ((pair.begun pairFiles).follow [1, 0, 1, 0, 1, 0]).hasCrashed = false := by decide +kernel
  have hreports := Build.interleaves_reported (pair.begun pairFiles) [1, 0, 1, 0, 1, 0]
  obtain ⟨hbuilt, hfailed⟩ := hbegins.view_counts hinputs hcomplete hcalm hreports .empty
  exact ⟨hbegins, hinputs, hcomplete, hcalm, hreports, hbuilt.trans (by decide +kernel), hfailed.trans (by decide +kernel)⟩

/-- Where the compilation of the first input crashes, the view of two inputs that are built one after the other shows
    neither of them as built or failed, in the end as little as before. -/
theorem crash_leaves_view_waiting :
    let b := crashing.begun crashingFiles
    let reports := Build.planned b.units ++ b.reported (Build.oneByOne 2)
    let v := (reports.map Prod.snd).foldl BuildView.apply
      (BuildView.new .empty (Path.displayNames crashingFiles.currentPath crashing.baseDir crashing.inputs))
    crashing.Begins crashingFiles b ∧ b.Complete (Build.oneByOne 2) ∧ v.built = 0 ∧ v.failed = 0 ∧
      (b.follow (Build.oneByOne 2)).units.countP (fun u => u.failure.isNone) = 2 := by
  have hbegins : crashing.Begins crashingFiles (crashing.begun crashingFiles) := ⟨by decide, rfl, rfl, by decide, rfl⟩
  refine ⟨hbegins, Build.oneByOne_complete _, by decide +kernel, by decide +kernel, by decide +kernel⟩

end BuildRequest
end CilCompiler
