import CilCompiler.Proofs.Build.Schedules
import CilCompiler.Proofs.Compilation.Crashes

/-! Requests for builds. The listings of a request are files of different names in one directory, with an ending that
    no input has (`IsListing.splitOn`, `input_last`): so the units of a request stay apart, and a build in which no
    compilation crashes has the outcome of building one input after the other, whatever order its units do their
    stages in (`scheduling_irrelevant`). A unit that crashes takes the build with it, and how far the others are by
    then does depend on the order. -/

namespace CilCompiler

namespace Path

theorem behindSlash_of_splitOn {p name : Text} {init : List Text} (h : p.splitOn '/' = init ++ [name]) :
    behindSlash p = name := by
  obtain ⟨init', h'⟩ := splitOn_behindSlash p
  exact (List.append_inj_right' (h'.symm.trans h) rfl |> List.cons.inj).1

/-- A path with a name behind its last slash has no slash at its end. -/
theorem dropWhile_slash {p : Text} (h : (behindSlash p).isEmpty = false) :
    p.bytes.reverse.dropWhile (fun b => b = 47) = p.bytes.reverse := by
  unfold behindSlash at h
  cases hp : p.bytes.reverse with
  | nil => rfl
  | cons b bs =>
    have hb : b ≠ 47 := by
      rintro rfl
      simp [hp, Text.isEmpty] at h
    rw [List.dropWhile_cons_of_neg (by simpa using hb)]

end Path

theorem Files.withoutSlashes_eq {p : Text} (h : (Path.behindSlash p).isEmpty = false) : withoutSlashes p = p := by
  unfold withoutSlashes
  simp [Path.dropWhile_slash h]

/-- Files as a map from paths to contents: no path of an input leads through the place of another unit's listing, where
    it would matter whether the listing is there. -/
def Build.Flat (b : Build) : Prop :=
  ∀ u ∈ b.units, ∀ v ∈ b.units, u.output ≠ v.output → ∀ place, b.files.destination v.output = .ok place →
    place ∉ b.files.wayOf u.input

namespace BuildRequest

theorem target_notEmpty (r : BuildRequest) : r.target.isEmpty = false := by
  unfold target
  split
  · decide
  · rename_i h
    simpa using h

/-! ### The places of listings -/

/-- The name of a listing: it leads to something in a directory, and has the ending of listings. -/
structure IsListingName (t : Text) : Prop extends Path.IsOrdinary t where
  ending : Path.extension t = Build.listingEnding

theorem isListingName_append {t : Text} (h : Path.IsName t) : IsListingName (t ++ Build.listingEnding) := by
  have hending : Build.listingEnding.bytes = 46 :: [105, 108] := by decide
  have hbytes : (t ++ Build.listingEnding).bytes = t.bytes ++ [46, 105, 108] := congrArg (t.bytes ++ ·) hending
  have hname : Path.IsName (t ++ Build.listingEnding) := by
    unfold Path.IsName at *
    rw [hbytes]
    simpa using h
  have hne {other : Text} (hlast : other.bytes.getLast? ≠ some 108) : t ++ Build.listingEnding ≠ other := by
    rintro rfl
    rw [hbytes] at hlast
    simp at hlast
  refine ⟨⟨hname, ?_, hne (by decide), hne (by decide)⟩, Path.extension_append hname hending (by decide)⟩
  simp [Text.isEmpty, hbytes]

/-- What follows a directory in the path of a listing. -/
theorem listing_cases (input : Text) : ∃ t, IsListingName t ∧
    ((Path.stem input ++ Build.listingEnding).splitOn '/' = [t] ∨
      (Path.stem input ++ Build.listingEnding).splitOn '/' = [.empty, t]) := by
  rcases Path.stem_cases input with h | h
  · have hname := isListingName_append h
    exact ⟨_, hname, Or.inl (Path.splitOn_name hname.name)⟩
  · rw [h]
    have hname : IsListingName (.empty ++ Build.listingEnding) := isListingName_append (by unfold Path.IsName; decide)
    exact ⟨_, hname, Or.inr (by decide)⟩

/-- A path that leads to a listing in the directory at another path. -/
structure IsListing (target output t : Text) : Prop where
  listingName : IsListingName t
  path : ∃ q, output = Path.clean q ∧ Path.names q = Path.names target ++ [t] ∧ Path.isAbsolute q = Path.isAbsolute target

theorem isListing_join {target : Text} (ht : target.isEmpty = false) (input : Text) :
    ∃ t, IsListing target (Path.join target (Path.stem input ++ Build.listingEnding)) t := by
  obtain ⟨t, hname, hsplit⟩ := listing_cases input
  refine ⟨t, hname, Text.join [target, Path.slash, Path.stem input ++ Build.listingEnding], ?_, ?_, ?_⟩
  · rw [Path.join, ht]
    rfl
  · exact Path.names_below ht hname.toIsOrdinary hsplit
  · exact Path.isAbsolute_below ht _

namespace IsListing

variable {target output t : Text} {fs : Files}

theorem unique {output' : Text} (h : IsListing target output t) (h' : IsListing target output' t) : output = output' := by
  obtain ⟨_, q, rfl, hq, ha⟩ := h
  obtain ⟨_, q', rfl, hq', ha'⟩ := h'
  unfold Path.clean
  rw [hq, ha, hq', ha']

theorem splitOn (h : IsListing target output t) :
    output.splitOn '/' = Path.root (Path.isAbsolute target) ++ Path.names target ++ [t] := by
  obtain ⟨_, q, rfl, hq, ha⟩ := h
  rw [Path.splitOn_clean (by simp [hq]), hq, ha, List.append_assoc]

theorem origin (h : IsListing target output t) (fs : Files) : fs.origin output = fs.origin target := by
  obtain ⟨_, q, rfl, hq, ha⟩ := h
  unfold Files.origin
  rw [Path.isAbsolute_clean (by simp [hq]), ha]

theorem withoutSlashes (h : IsListing target output t) : Files.withoutSlashes output = output := by
  refine Files.withoutSlashes_eq ?_
  rw [Path.behindSlash_of_splitOn h.splitOn]
  exact h.listingName.notEmpty

/-- The place of a listing is in the directory of the target. -/
theorem place {p : List Text} (h : IsListing target output t) (hp : fs.place output = .ok p) :
    ∃ d, fs.follow (fs.origin target) (Path.root (Path.isAbsolute target) ++ Path.names target) = .ok d ∧ p = d ++ [t] := by
  have hfollow := Files.follow_of_place hp
  rw [h.origin, h.splitOn] at hfollow
  obtain ⟨d, hd, _, hp⟩ := Files.follow_last h.listingName.toIsOrdinary hfollow
  exact ⟨d, hd, hp⟩

/-- The place of one listing is not on the way to another, and not where it leads. -/
theorem apart {output' t' : Text} (h : IsListing target output t) (h' : IsListing target output' t')
    (hne : output ≠ output')
    {p : List Text} (hp : fs.destination output' = .ok p) : p ∉ fs.wayOf output ∧ fs.place output ≠ .ok p := by
  obtain ⟨hplace, hdirectory⟩ := Files.destination_ok hp
  rw [h'.withoutSlashes] at hplace
  obtain ⟨d, hd, rfl⟩ := h'.place hplace
  constructor
  · intro hway
    unfold Files.wayOf at hway
    rw [h.origin, h.splitOn] at hway
    rcases Files.mem_way_append hway with hway | ⟨d', hd', hlast⟩
    · exact hdirectory (Files.directory_of_follow hd _ hway)
    · cases hd.symm.trans hd'
      have hmem : d ++ [t'] = d := by
        rw [Files.way] at hlast
        rcases List.mem_cons.mp hlast with hmem | hmem
        · exact hmem
        · split at hmem <;> cases hmem
      simp at hmem
  · intro hsame
    obtain ⟨d', hd', heq⟩ := h.place hsame
    cases hd.symm.trans hd'
    have ht : t' = t := by simpa using heq
    exact hne (h.unique (ht ▸ h'))

end IsListing

/-! ### The places of inputs -/

theorem toLower_listingEnding : Build.listingEnding.toLower = Build.listingEnding := by decide

/-- The last name of an input of a known form leads to something in a directory, and is no listing's name. -/
theorem input_last {path : Text} (h : InputForm.ofPath? path ≠ none) :
    Path.IsOrdinary (Path.behindSlash path) ∧ ¬IsListingName (Path.behindSlash path) := by
  obtain ⟨form, hform⟩ := Option.ne_none_iff_exists'.mp h
  have hending : form.ending = (Path.extension path).toLower := by
    simpa using List.find?_some hform
  rw [← Path.extension_behindSlash] at hending
  have hne {other : Text} (hother : ∀ form : InputForm, form.ending ≠ (Path.extension other).toLower) :
      Path.behindSlash path ≠ other := fun heq => hother form (heq ▸ hending)
  refine ⟨⟨Path.isName_behindSlash path, ?_, hne ?_, hne ?_⟩, fun hlisting => ?_⟩
  · have hempty : Path.behindSlash path ≠ .empty := hne (by rintro ⟨⟩ <;> decide)
    cases hb : (Path.behindSlash path).isEmpty with
    | false => rfl
    | true => exact absurd (congrArg Text.mk (List.isEmpty_iff.mp hb)) hempty
  · rintro ⟨⟩ <;> decide
  · rintro ⟨⟩ <;> decide
  · rw [hlisting.ending, toLower_listingEnding] at hending
    cases form <;> revert hending <;> decide

/-- An input of a known form is not at the place of a listing. -/
theorem input_place {target output t path : Text} {fs : Files} (h : IsListing target output t)
    (hform : InputForm.ofPath? path ≠ none) {p : List Text} (hp : fs.destination output = .ok p) :
      fs.place path ≠ .ok p := by
  intro hpath
  obtain ⟨hplace, _⟩ := Files.destination_ok hp
  rw [h.withoutSlashes] at hplace
  obtain ⟨d, _, rfl⟩ := h.place hplace
  obtain ⟨hordinary, hlisting⟩ := input_last hform
  obtain ⟨init, hsplit⟩ := Path.splitOn_behindSlash path
  have hfollow := Files.follow_of_place hpath
  rw [hsplit] at hfollow
  obtain ⟨d', _, _, heq⟩ := Files.follow_last hordinary hfollow
  have ht : t = Path.behindSlash path := by simpa using congrArg List.getLast? heq
  exact hlisting (ht ▸ h.listingName)

/-! ### Plans -/

theorem planFrom_ok {planned units out : List BuildUnit} (h : planFrom planned units = (out, none)) :
    out = planned ++ units ∧
      (planned.Pairwise (fun u v => u.output ≠ v.output) → out.Pairwise fun u v => u.output ≠ v.output) := by
  induction units generalizing planned with
  | nil =>
    cases h
    exact ⟨(List.append_nil _).symm, id⟩
  | cons u units ih =>
    rw [planFrom] at h
    split at h
    · cases h
    · rename_i hnone
      obtain ⟨hout, hapart⟩ := ih h
      refine ⟨hout.trans (List.append_assoc ..), fun hplanned => hapart ?_⟩
      refine List.pairwise_append.mpr ⟨hplanned, List.pairwise_singleton _ _, fun v hv w hw => ?_⟩
      cases List.mem_singleton.mp hw
      simpa using List.find?_eq_none.mp hnone v hv

/-- A request that is accepted and not canceled, and the build it begins with. -/
structure Begins (r : BuildRequest) (fs : Files) (b : Build) : Prop where
  accepted : r.refusal? = none
  notCanceled : r.isCanceled = false
  planned : r.plan fs.currentPath = (b.units, none)
  directory : fs.makeDirectories r.target = .ok b.files
  begun : b = { runtime := r.runtime, units := b.units, files := b.files, events := b.units.map BuildUnit.queued }

namespace Begins

variable {r : BuildRequest} {fs : Files} {b : Build}

theorem units (h : r.Begins fs b) : b.units = (r.inputs.zip (Path.displayNames fs.currentPath r.baseDir r.inputs)).map
    fun (input, display) => r.unitOf input display := (planFrom_ok h.planned).1

theorem inputs (h : r.Begins fs b) : b.units.map BuildUnit.input = r.inputs := by
  have hlength : (Path.displayNames fs.currentPath r.baseDir r.inputs).length = r.inputs.length := by
    unfold Path.displayNames
    dsimp only
    split
    · rfl
    · exact List.length_map _
  rw [h.units, List.map_map]
  exact List.map_fst_zip (Nat.le_of_eq hlength.symm)

theorem outputs (h : r.Begins fs b) : b.units.Pairwise fun u v => u.output ≠ v.output :=
  (planFrom_ok h.planned).2 List.Pairwise.nil

theorem waiting (h : r.Begins fs b) {u : BuildUnit} (hu : u ∈ b.units) : u.work = .waiting ∧ u.failure = none := by
  rw [h.units] at hu
  obtain ⟨⟨input, display⟩, _, rfl⟩ := List.mem_map.mp hu
  exact ⟨rfl, rfl⟩

/-- The outputs of a build of several inputs are listings in one directory. -/
theorem isListing (h : r.Begins fs b) (hseveral : 1 < b.units.length) {u : BuildUnit} (hu : u ∈ b.units) :
    ∃ t, IsListing r.target u.output t := by
  have hname : r.name.isEmpty = true := by
    have haccepted := h.accepted
    unfold refusal? at haccepted
    have hinputs : 1 < r.inputs.length := by
      rw [h.units, List.length_map, List.length_zip] at hseveral
      omega
    by_contra hname
    rw [if_neg (by simpa using List.ne_nil_of_length_pos (by omega)), if_pos ⟨by simpa using hname, hinputs⟩] at haccepted
    cases haccepted
  rw [h.units] at hu
  obtain ⟨⟨input, display⟩, _, rfl⟩ := List.mem_map.mp hu
  have houtput : (r.unitOf input display).output = Path.join r.target (Path.stem input ++ Build.listingEnding) := by
    unfold unitOf
    rw [if_pos hname]
  rw [houtput]
  exact isListing_join r.target_notEmpty input

/-- The units of a request stay apart. -/
theorem independent (h : r.Begins fs b) (hflat : b.Flat) : b.Independent := by
  refine ⟨by rw [h.begun], by rw [h.begun], fun u hu => (h.waiting hu).1, fun i j u v hij hu hv => ?_⟩
  have hi := (List.getElem?_eq_some_iff.mp hu).1
  have hj := (List.getElem?_eq_some_iff.mp hv).1
  have hseveral : 1 < b.units.length := by omega
  have hne : u.output ≠ v.output := by
    have hpairwise := List.pairwise_iff_getElem.mp h.outputs
    rw [← (List.getElem?_eq_some_iff.mp hu).2, ← (List.getElem?_eq_some_iff.mp hv).2]
    rcases Nat.lt_or_gt_of_ne hij with hlt | hlt
    · exact hpairwise i j hi hj hlt
    · exact (hpairwise j i hj hi hlt).symm
  obtain ⟨t, ht⟩ := h.isListing hseveral (List.mem_of_getElem? hu)
  obtain ⟨t', ht'⟩ := h.isListing hseveral (List.mem_of_getElem? hv)
  refine ⟨fun hform place hplace => ⟨?_, input_place ht' hform hplace⟩, fun place hplace => ?_⟩
  · exact hflat u (List.mem_of_getElem? hu) v (List.mem_of_getElem? hv) hne place hplace
  · rw [ht.withoutSlashes]
    exact ht.apart ht' hne hplace

/-- A build lets one unit after the other do its stages. -/
theorem run_eq (h : r.Begins fs b) : r.run fs = (b.follow (Build.oneByOne b.units.length)).conclude := by
  have hbegun := h.begun
  unfold run
  rw [h.accepted, h.planned, h.directory, h.notCanceled]
  dsimp only
  rw [← hbegun]

/-- A build in which no unit crashes alone answers. -/
theorem run_calm (h : r.Begins fs b) (hb : b.Independent) (hcalm : b.Calm) :
    r.run fs = .answered
      { units := (b.follow (Build.oneByOne b.units.length)).units
        events := (b.follow (Build.oneByOne b.units.length)).events
        files := (b.follow (Build.oneByOne b.units.length)).files
        fault := (b.follow (Build.oneByOne b.units.length)).fault? } := by
  rw [h.run_eq, Build.conclude, hcalm.follow hb, if_neg Bool.false_ne_true]

end Begins

/-- A build of a request that is accepted, and in which no compilation crashes, answers and has one outcome, whatever order
    its units do their stages in: the units, what is at every place and the faults in the order of the inputs are those of
    building the inputs one after the other, each unit is what becomes of it alone, and the reports on it are in order. -/
theorem scheduling_irrelevant {r : BuildRequest} {fs : Files} {b : Build} (h : r.Begins fs b) (hflat : b.Flat)
    (hcalm : b.Calm) {schedule : List Nat} (hs : b.Complete schedule) :
    ∃ o, r.run fs = .answered o ∧ (b.follow schedule).hasCrashed = false ∧
      (b.follow schedule).units = o.units ∧
      (b.follow schedule).fault? = o.fault ∧
      (∀ place, Files.entry? (b.follow schedule).files place = Files.entry? o.files place) ∧
      o.fault = Fault.joined? ((b.follow schedule).units.filterMap BuildUnit.failure) ∧
      (b.follow schedule).units.map BuildUnit.input = r.inputs ∧
      (∀ (i : Nat) (u : BuildUnit), b.units[i]? = some u →
        ∃ v, (b.follow schedule).units[i]? = some v ∧
          (({ b with units := [u] } : Build).follow (Build.oneByOne 1)).units = [v] ∧
          u.Reports v.failure (u.queued :: ((b.reported schedule).filter fun x => x.1 = i).map Prod.snd)) ∧
      (b.follow schedule).events = b.units.map BuildUnit.queued ++ (b.reported schedule).map Prod.snd := by
  have hb := h.independent hflat
  have hone := Build.oneByOne_complete b
  have hquiet := hcalm.follow hb schedule
  have hquietly := hcalm.follow hb (Build.oneByOne b.units.length)
  have hsame : (b.follow schedule).units = (b.follow (Build.oneByOne b.units.length)).units :=
    (hs.units hb hquiet).trans (hone.units hb hquietly).symm
  refine ⟨_, h.run_calm hb hcalm, hquiet, hsame, ?_, ?_, ?_, ?_, ?_, ?_⟩
  · rw [Build.fault?_follow hb hquiet, Build.fault?_follow hb hquietly, hsame]
  · exact hs.entries hone hb hcalm
  · rw [Build.fault?_follow hb hquietly, hsame]
  · rw [hs.units hb hquiet, List.map_map, ← h.inputs]
    exact List.map_congr_left fun u _ => (BuildUnit.after_same u b.runtime b.files 3).input
  · intro i u hu
    have hmem := List.mem_of_getElem? hu
    refine ⟨u.after b.runtime b.files 3, ?_, Build.alone hb hcalm hmem, hs.reports hb hcalm hu (h.waiting hmem).2⟩
    rw [hs.units hb hquiet, List.getElem?_map, hu]
    rfl
  · rw [Build.follow_events, h.begun]

/-- The build that a request begins with, on files in which its directory is there already. -/
def begun (r : BuildRequest) (fs : Files) : Build :=
  { runtime := r.runtime, units := (r.plan fs.currentPath).1, files := fs
    events := (r.plan fs.currentPath).1.map BuildUnit.queued }

/-- Two inputs, of which only the first is there, with a program without types. -/
def sample : BuildRequest := { inputs := ["a.json", "b.ilt"] }

def sampleFiles : Files := { entries := [(["a.json"], .file (Text.bytes "\x7b\"schema\":1\x7d"))] }

theorem scheduling_irrelevant_alternating : sample.Begins sampleFiles (sample.begun sampleFiles) ∧
    (sample.begun sampleFiles).Flat ∧ (sample.begun sampleFiles).Calm ∧
    (sample.begun sampleFiles).Complete [1, 0, 1, 0, 1, 0] ∧
    ∃ o, sample.run sampleFiles = .answered o ∧ ((sample.begun sampleFiles).follow [1, 0, 1, 0, 1, 0]).units = o.units := by
  have hbegins : sample.Begins sampleFiles (sample.begun sampleFiles) := ⟨by decide, rfl, rfl, by decide, rfl⟩
  have hflat : (sample.begun sampleFiles).Flat := by
    intro u hu v _ _ place hplace hway
    have hroot : (sample.begun sampleFiles).files.wayOf u.input = [[]] := by
      have hinput := List.mem_map_of_mem (f := BuildUnit.input) hu
      rw [hbegins.inputs] at hinput
      simp only [sample, List.mem_cons, List.not_mem_nil, or_false] at hinput
      rcases hinput with h | h <;> rw [h] <;> decide
    rw [hroot] at hway
    exact Files.destination_ne_root hplace (List.mem_singleton.mp hway)
  have hcomplete : (sample.begun sampleFiles).Complete [1, 0, 1, 0, 1, 0] := by
    show ∀ i < 2, _
    decide
  have hcalm : (sample.begun sampleFiles).Calm :=
    Build.calm_of_follow hcomplete (hbegins.independent hflat) (by decide +kernel)
  obtain ⟨o, hrun, -, hunits, -⟩ := scheduling_irrelevant hbegins hflat hcalm hcomplete
  exact ⟨hbegins, hflat, hcalm, hcomplete, o, hrun, hunits⟩

/-- Two inputs that are there, of which the compilation of the first crashes. -/
def crashing : BuildRequest := { inputs := ["a.ilt", "b.json"] }

def crashingFiles : Files :=
  { entries := [(["a.ilt"], .file Compilation.bracketed.toMsgpack),
    (["b.json"], .file (Text.bytes "\x7b\"schema\":1\x7d"))] }

/-- A unit that crashes takes the build with it: the other input is built if it comes first, and not if it comes last, and
    building one after the other does not answer. -/
theorem crash_stops_other_units :
    crashing.Begins crashingFiles (crashing.begun crashingFiles) ∧
      (crashing.begun crashingFiles).Complete [1, 1, 1, 0, 0, 0] ∧
        (crashing.begun crashingFiles).Complete [0, 0, 0, 1, 1, 1] ∧
      (∀ o, crashing.run crashingFiles ≠ .answered o) ∧
      (((crashing.begun crashingFiles).follow [1, 1, 1, 0, 0, 0]).files.entry? ["b.il"]).isSome = true ∧
      (((crashing.begun crashingFiles).follow [0, 0, 0, 1, 1, 1]).files.entry? ["b.il"]).isSome = false := by
  have hbegins : crashing.Begins crashingFiles (crashing.begun crashingFiles) := ⟨by decide, rfl, rfl, by decide, rfl⟩
  have hcrashed : ((crashing.begun crashingFiles).follow (Build.oneByOne 2)).hasCrashed = true := by decide +kernel
  refine ⟨hbegins, by show ∀ i < 2, _; decide, by show ∀ i < 2, _; decide, fun o => ?_, by decide +kernel,
      by decide +kernel⟩
  rw [hbegins.run_eq, show (crashing.begun crashingFiles).units.length = 2 from rfl, Build.conclude, if_pos hcrashed]
  exact nofun

end BuildRequest
end CilCompiler
