import CilCompiler.Path
import CilCompiler.Files

/-!
Clean paths. A path is cut into names at its slashes, and a clean path is cut into the names it was put together from
(`splitOn_clean`). So a path below a directory is cut into the names of the directory and its own (`splitOn_join`), and a
name without its ending tells what the ending of a path is.

Following paths. The places that a path leads through are its way; files that agree on the way of a path agree on where
the path leads (`place_congr`), and what is written at one place is seen at that place only (`entry?_put`).
-/

namespace CilCompiler

namespace Text

theorem splitBytes_ne_nil (sep : UInt8) (bs : List UInt8) : splitBytes sep bs ≠ [] := by
  cases bs with
  | nil => simp [splitBytes]
  | cons b rest =>
    rw [splitBytes]
    split
    · simp
    · split <;> simp

theorem splitBytes_append (sep : UInt8) (xs ys : List UInt8) :
    splitBytes sep (xs ++ sep :: ys) = splitBytes sep xs ++ splitBytes sep ys := by
  induction xs with
  | nil => simp [splitBytes]
  | cons b xs ih =>
    rw [List.cons_append, splitBytes, splitBytes, ih]
    split
    · rfl
    · cases hs : splitBytes sep xs with
      | nil => exact absurd hs (splitBytes_ne_nil sep xs)
      | cons part parts => rfl

theorem splitBytes_of_not_mem {sep : UInt8} {xs : List UInt8} (h : sep ∉ xs) : splitBytes sep xs = [xs] := by
  induction xs with
  | nil => rfl
  | cons b xs ih =>
    have hb : b ≠ sep := fun hb => h (by simp [hb])
    rw [splitBytes, if_neg hb, ih fun hx => h (List.mem_cons_of_mem b hx)]

theorem not_mem_of_mem_splitBytes {sep : UInt8} {xs part : List UInt8} (h : part ∈ splitBytes sep xs) : sep ∉ part := by
  induction xs generalizing part with
  | nil =>
    cases List.mem_singleton.mp h
    exact List.not_mem_nil
  | cons b xs ih =>
    rw [splitBytes] at h
    split at h
    · rcases List.mem_cons.mp h with rfl | h
      · exact List.not_mem_nil
      · exact ih h
    · rename_i hb
      split at h
      · cases List.mem_singleton.mp h
        simpa using fun hs : sep = b => hb hs.symm
      · rename_i head parts hs
        rcases List.mem_cons.mp h with rfl | h
        · have hhead : sep ∉ head := ih (by rw [hs]; exact List.mem_cons_self)
          simp only [List.mem_cons, not_or]
          exact ⟨fun hs => hb hs.symm, hhead⟩
        · exact ih (by rw [hs]; exact List.mem_cons_of_mem _ h)

end Text

namespace Path

/-! ### Names between slashes -/

/-- A text that can stand between slashes. -/
def IsName (t : Text) : Prop := 47 ∉ t.bytes

/-- A name that leads from a directory to something in it. -/
structure IsOrdinary (t : Text) : Prop where
  name : IsName t
  notEmpty : t.isEmpty = false
  notHere : t ≠ here
  notUp : t ≠ up

theorem bytes_below (a b : Text) : (Text.join [a, slash, b]).bytes = a.bytes ++ 47 :: b.bytes := by
  have hslash : slash.bytes = [47] := by decide
  simp [Text.join, hslash]

theorem splitOn_below (a b : Text) : (Text.join [a, slash, b]).splitOn '/' = a.splitOn '/' ++ b.splitOn '/' := by
  unfold Text.splitOn
  rw [bytes_below, ← List.map_append]
  exact congrArg _ (Text.splitBytes_append 47 a.bytes b.bytes)

theorem splitOn_name {t : Text} (h : IsName t) : t.splitOn '/' = [t] :=
  congrArg (List.map Text.mk) (Text.splitBytes_of_not_mem h)

theorem isName_of_mem_splitOn {t p : Text} (h : t ∈ p.splitOn '/') : IsName t := by
  obtain ⟨part, hpart, rfl⟩ := List.mem_map.mp h
  exact Text.not_mem_of_mem_splitBytes hpart

theorem sepBy_cons (n m : Text) (ns : List Text) :
    Text.sepBy slash (n :: m :: ns) = Text.join [n, slash, Text.sepBy slash (m :: ns)] := by
  simp [Text.sepBy, Text.join]

theorem splitOn_sepBy {ns : List Text} (hne : ns ≠ []) (h : ∀ n ∈ ns, IsName n) :
    (Text.sepBy slash ns).splitOn '/' = ns := by
  induction ns with
  | nil => exact absurd rfl hne
  | cons n ns ih =>
    have hn := splitOn_name (h n List.mem_cons_self)
    cases ns with
    | nil => simpa [Text.sepBy, Text.join] using hn
    | cons m ns =>
      rw [sepBy_cons, splitOn_below, hn, ih (by simp) fun x hx => h x (List.mem_cons_of_mem _ hx)]
      rfl

/-! ### Clean paths -/

theorem isAbsolute_iff (p : Text) : isAbsolute p = (p.bytes.head? == some 47) := by
  have hslash : slash.bytes = [47] := by decide
  unfold isAbsolute Text.startsWith
  rw [hslash]
  cases p.bytes with
  | nil => rfl
  | cons b bs => simp [List.isPrefixOf, BEq.comm]

theorem isAbsolute_below {a : Text} (ha : a.isEmpty = false) (b : Text) :
    isAbsolute (Text.join [a, slash, b]) = isAbsolute a := by
  rw [isAbsolute_iff, isAbsolute_iff, bytes_below]
  cases h : a.bytes with
  | nil => simp [Text.isEmpty, h] at ha
  | cons x xs => rfl

/-- Names of a stack are names, and not empty. -/
def Stacked (stack : List Text) : Prop := ∀ n ∈ stack, IsName n ∧ n.isEmpty = false

theorem Stacked.push {stack : List Text} (h : Stacked stack) (isRooted : Bool) {name : Text} (hn : IsName name) :
    Stacked (push isRooted stack name) := by
  have hup : IsName up ∧ up.isEmpty = false := by
    unfold IsName
    decide
  unfold Path.push
  split
  · exact h
  · rename_i hname
    split
    · split
      · split
        · exact fun n hn => (List.not_mem_nil hn).elim
        · intro n hn
          cases List.mem_singleton.mp hn
          exact hup
      · rename_i top rest
        split
        · intro n hn
          rcases List.mem_cons.mp hn with rfl | hn
          · exact hup
          · exact h n hn
        · exact fun n hn => h n (List.mem_cons_of_mem _ hn)
    · intro n hmem
      rcases List.mem_cons.mp hmem with rfl | hmem
      · exact ⟨hn, by simpa using fun he => hname (Or.inl he)⟩
      · exact h n hmem

theorem stacked_foldl (isRooted : Bool) {ns stack : List Text} (hns : ∀ n ∈ ns, IsName n) (h : Stacked stack) :
    Stacked (ns.foldl (push isRooted) stack) := by
  induction ns generalizing stack with
  | nil => exact h
  | cons n ns ih =>
    exact ih (fun x hx => hns x (List.mem_cons_of_mem _ hx)) (h.push isRooted (hns n List.mem_cons_self))

theorem stacked_names (p : Text) : Stacked (names p) := by
  intro n hn
  have hnone : Stacked [] := fun x hx => (List.not_mem_nil hx).elim
  exact stacked_foldl (isAbsolute p) (fun x hx => isName_of_mem_splitOn hx) hnone n (List.mem_reverse.mp hn)

theorem push_ordinary {name : Text} (h : IsOrdinary name) (isRooted : Bool) (stack : List Text) :
    push isRooted stack name = name :: stack := by
  unfold push
  rw [if_neg (by simp [h.notEmpty, h.notHere]), if_neg h.notUp]

theorem push_empty (isRooted : Bool) (stack : List Text) : push isRooted stack .empty = stack :=
  if_pos (Or.inl rfl)

/-- The names of a path that goes on below another with one ordinary name. -/
theorem names_below {a b name : Text} (ha : a.isEmpty = false) (hname : IsOrdinary name)
    (hb : b.splitOn '/' = [name] ∨ b.splitOn '/' = [.empty, name]) :
    names (Text.join [a, slash, b]) = names a ++ [name] := by
  unfold names
  rw [splitOn_below, isAbsolute_below ha, List.foldl_append]
  rcases hb with hb | hb
  · rw [hb, List.foldl_cons, List.foldl_nil, push_ordinary hname, List.reverse_cons]
  · rw [hb, List.foldl_cons, push_empty, List.foldl_cons, List.foldl_nil, push_ordinary hname, List.reverse_cons]

theorem bytes_ofNames (ns : List Text) : (ofNames ns).bytes = 47 :: (Text.sepBy slash ns).bytes := by
  have hslash : slash.bytes = [47] := by decide
  show slash.bytes ++ (Text.sepBy slash ns).bytes = _
  rw [hslash]
  rfl

/-- What the names of a clean path follow: nothing, or the empty name in front of the root. -/
def root (isRooted : Bool) : List Text := if isRooted then [.empty] else []

/-- A clean path is cut into its names. -/
theorem splitOn_clean {p : Text} (h : names p ≠ []) : (clean p).splitOn '/' = root (isAbsolute p) ++ names p := by
  have hsplit := splitOn_sepBy h fun n hn => (stacked_names p n hn).1
  unfold clean root
  split
  · have hempty := Text.splitBytes_append 47 [] (Text.sepBy slash (names p)).bytes
    unfold Text.splitOn at hsplit ⊢
    rw [bytes_ofNames]
    rw [List.nil_append] at hempty
    show List.map Text.mk (Text.splitBytes 47 _) = _
    rw [hempty, List.map_append]
    exact congrArg _ hsplit
  · rw [if_neg (by simpa using h)]
    exact hsplit

theorem isAbsolute_clean {p : Text} (h : names p ≠ []) : isAbsolute (clean p) = isAbsolute p := by
  unfold clean
  split
  · rename_i ha
    rw [ha, isAbsolute_iff, bytes_ofNames]
    rfl
  · rename_i ha
    rw [if_neg (by simpa using h), Bool.eq_false_iff.mpr ha, isAbsolute_iff]
    -- The first name is not empty and has no slash.
    cases hns : names p with
    | nil => exact absurd hns h
    | cons n ns =>
      obtain ⟨hname, hempty⟩ := stacked_names p n (by rw [hns]; exact List.mem_cons_self)
      have hfirst : ∃ b bs, n.bytes = b :: bs ∧ b ≠ 47 := by
        cases hb : n.bytes with
        | nil => simp [Text.isEmpty, hb] at hempty
        | cons b bs => exact ⟨b, bs, rfl, fun he => hname (by rw [hb, he]; exact List.mem_cons_self)⟩
      obtain ⟨b, bs, hb, hne⟩ := hfirst
      have hhead : (Text.sepBy slash (n :: ns)).bytes.head? = some b := by
        cases ns with
        | nil => simp [Text.sepBy, Text.join, hb]
        | cons m ns => rw [sepBy_cons, bytes_below, hb]; rfl
      rw [hhead]
      simpa using hne

/-! ### Last names and endings -/

theorem bytes_cases (bs : List UInt8) : 47 ∉ bs ∨ ∃ xs ys, bs = xs ++ 47 :: ys ∧ 47 ∉ ys := by
  induction bs with
  | nil => exact Or.inl List.not_mem_nil
  | cons b bs ih =>
    rcases ih with h | ⟨xs, ys, rfl, h⟩
    · by_cases hb : b = 47
      · exact Or.inr ⟨[], bs, by simp [hb], h⟩
      · exact Or.inl (by simp [h, Ne.symm hb])
    · exact Or.inr ⟨b :: xs, ys, rfl, h⟩

theorem takeWhile_without {sep : UInt8} {bs : List UInt8} (h : sep ∉ bs) (rest : List UInt8) :
    (bs ++ rest).takeWhile (fun b => b ≠ sep) = bs ++ rest.takeWhile (fun b => b ≠ sep) := by
  refine List.takeWhile_append_of_pos fun b hb => ?_
  simpa using fun he : b = sep => h (he ▸ hb)

/-- The last name of a path is the last of the names it is cut into. -/
theorem splitOn_behindSlash (p : Text) : ∃ init, p.splitOn '/' = init ++ [behindSlash p] := by
  unfold behindSlash
  rcases bytes_cases p.bytes with h | ⟨xs, ys, hp, h⟩
  · have hall := takeWhile_without (mt List.mem_reverse.mp h) []
    rw [List.append_nil, List.takeWhile_nil, List.append_nil] at hall
    rw [hall, List.reverse_reverse]
    exact ⟨[], splitOn_name h⟩
  · have hlast : p.bytes.reverse.takeWhile (fun b => b ≠ 47) = ys.reverse := by
      rw [hp, List.reverse_append, List.reverse_cons, List.append_assoc, takeWhile_without (mt List.mem_reverse.mp h)]
      simp
    rw [hlast, List.reverse_reverse]
    refine ⟨(Text.splitBytes 47 xs).map Text.mk, ?_⟩
    unfold Text.splitOn
    rw [hp]
    exact (congrArg (List.map Text.mk) (Text.splitBytes_append 47 xs ys)).trans
      (by rw [List.map_append, Text.splitBytes_of_not_mem h]; rfl)

theorem isName_behindSlash (p : Text) : IsName (behindSlash p) := by
  obtain ⟨init, hinit⟩ := splitOn_behindSlash p
  exact isName_of_mem_splitOn (p := p) (by rw [hinit]; simp)

theorem behindSlash_name {t : Text} (h : IsName t) : behindSlash t = t := by
  obtain ⟨init, hinit⟩ := splitOn_behindSlash t
  rw [splitOn_name h] at hinit
  cases init with
  | nil => exact (List.cons.inj hinit).1.symm
  | cons x xs =>
    have := congrArg List.length hinit
    simp at this

theorem extension_behindSlash (p : Text) : extension (behindSlash p) = extension p := by
  unfold extension
  rw [behindSlash_name (isName_behindSlash p)]

/-- A name with a point and no further point has the ending from the point on. -/
theorem extension_append {t e : Text} (ht : IsName (t ++ e)) {bs : List UInt8} (he : e.bytes = 46 :: bs) (hbs : 46 ∉ bs) :
    extension (t ++ e) = e := by
  have hbytes : (t ++ e).bytes = t.bytes ++ 46 :: bs := by
    show t.bytes ++ e.bytes = _
    rw [he]
  unfold extension
  rw [behindSlash_name ht, hbytes]
  have htake : (t.bytes ++ 46 :: bs).reverse.takeWhile (fun b => b ≠ 46) = bs.reverse := by
    rw [List.reverse_append, List.reverse_cons, List.append_assoc, takeWhile_without (mt List.mem_reverse.mp hbs)]
    simp
  simp only [htake, List.reverse_reverse]
  rw [if_pos (by simp)]
  exact congrArg Text.mk he.symm

/-- The name of a module is one name, or a slash for the root. -/
theorem stem_cases (p : Text) : IsName (stem p) ∨ stem p = slash := by
  have hbase : IsName (base p) ∨ base p = slash := by
    unfold base
    split
    · exact Or.inl (by unfold IsName; decide)
    · dsimp only
      split
      · exact Or.inr rfl
      · exact Or.inl (isName_behindSlash _)
  unfold stem
  rcases hbase with h | h
  · left
    unfold Text.dropEnd Text.beforeEnd?
    split
    · exact fun hm => h (List.mem_of_mem_take hm)
    · exact h
  · right
    rw [h]
    decide

end Path

namespace Files

/-! ### What is at a place -/

theorem lookup_replace (entries : List (List Text × FileEntry)) (place q : List Text) (e : FileEntry) :
    (entries.map fun x => if x.1 = place then (place, e) else x).lookup q =
      if q = place ∧ (entries.any fun x => x.1 = place) = true then some e else entries.lookup q := by
  induction entries with
  | nil => simp
  | cons x entries ih =>
    obtain ⟨k, v⟩ := x
    simp only [List.map_cons, List.any_cons]
    by_cases hk : k = place
    · by_cases hq : q = place
      · simp [hk, hq]
      · have hne : (q == place) = false := by simpa using hq
        simp only [hk, if_true, List.lookup_cons, hne, ih, hq, false_and, if_false]
    · by_cases hq : q = k
      · simp [hk, hq]
      · have hne : (q == k) = false := by simpa using hq
        simp only [hk, if_false, List.lookup_cons, hne, ih, decide_false, Bool.false_or]

/-- What is put at a place below the root is there, and nothing else changes. -/
theorem entry?_put (fs : Files) {place : List Text} (hp : place ≠ []) (e : FileEntry) (q : List Text) :
    Files.entry? (fs.put place e) q = if q = place then some e else fs.entry? q := by
  by_cases hq : q = []
  · subst hq
    rw [if_neg (Ne.symm hp)]
    rfl
  · have hempty : q.isEmpty = false := by simpa using hq
    simp only [ entry?, put, hempty, Bool.false_eq_true, if_false]
    by_cases hany : (fs.entries.any fun x => x.1 = place) = true
    · simp only [hany, if_true, lookup_replace, and_true]
    · simp only [if_neg hany, List.lookup_append, List.lookup_cons, List.lookup_nil]
      by_cases hqp : q = place
      · have hnone : fs.entries.lookup place = none := by
          rw [List.lookup_eq_none_iff]
          intro x hx
          simp only [List.any_eq_true, decide_eq_true_eq, not_exists, not_and] at hany
          simpa using fun he => hany x hx he.symm
        simp [hqp, hnone]
      · have hne : (q == place) = false := by simpa using hqp
        simp [hqp, hne]

@[simp] theorem current_put (fs : Files) (place : List Text) (e : FileEntry) : (fs.put place e).current = fs.current := by
  unfold put
  split <;> rfl

/-! ### The way of a path -/

/-- Where a name leads from a directory; a name can be too long to lead anywhere. -/
def turn (place : List Text) (name : Text) : Option (List Text) :=
  if name.isEmpty ∨ name = Path.here then some place
  else if name = Path.up then some place.dropLast
  else if maxName < name.size then none
  else some (place ++ [name])

theorem follow_cons (fs : Files) (place : List Text) (name : Text) (names : List Text) :
    fs.follow place (name :: names) = match fs.entry? place with
      | none => .error .missing
      | some (.file _) => .error .notDirectory
      | some .directory =>
        match turn place name with
        | some p => fs.follow p names
        | none => .error .nameTooLong := by
  rw [follow]
  cases fs.entry? place with
  | none => rfl
  | some e =>
    cases e with
    | file content => rfl
    | directory =>
      simp only [turn]
      split
      · rfl
      · split
        · rfl
        · split <;> rfl

/-- The places that names lead through: all must be directories for the names to lead on. -/
def way (fs : Files) (place : List Text) : List Text → List (List Text)
  | [] => []
  | name :: names =>
    place :: match fs.entry? place, turn place name with
      | some .directory, some p => way fs p names
      | _, _ => []

theorem follow_congr {fs fs' : Files} {place names : List Text} (h : ∀ w ∈ fs.way place names, fs'.entry? w = fs.entry? w) :
    fs'.follow place names = fs.follow place names := by
  induction names generalizing place with
  | nil => rfl
  | cons name names ih =>
    simp only [way, List.mem_cons, forall_eq_or_imp] at h
    rw [follow_cons, follow_cons, h.1]
    split
    · rfl
    · rfl
    · rename_i hdir
      cases hturn : turn place name with
      | none => rfl
      | some p =>
        refine ih fun w hw => h.2 w ?_
        rw [hdir, hturn]
        exact hw

/-- Where names lead, the places on the way are directories. -/
theorem directory_of_follow {fs : Files} {place names p : List Text} (h : fs.follow place names = .ok p) :
    ∀ w ∈ fs.way place names, fs.entry? w = some .directory := by
  induction names generalizing place with
  | nil => exact fun w hw => (List.not_mem_nil hw).elim
  | cons name names ih =>
    intro w hw
    rw [follow_cons] at h
    split at h
    · cases h
    · cases h
    · rename_i hdir
      cases hturn : turn place name with
      | none =>
        rw [hturn] at h
        cases h
      | some q =>
        rw [hturn] at h
        rw [way, hdir, hturn] at hw
        rcases List.mem_cons.mp hw with rfl | hw
        · exact hdir
        · exact ih h w hw

theorem follow_append (fs : Files) (place xs ys : List Text) :
    fs.follow place (xs ++ ys) = fs.follow place xs >>= fun p => fs.follow p ys := by
  induction xs generalizing place with
  | nil => rfl
  | cons x xs ih =>
    rw [List.cons_append, follow_cons, follow_cons]
    split
    · rfl
    · rfl
    · split
      · exact ih _
      · rfl

theorem mem_way_append {fs : Files} {place xs ys w : List Text} (h : w ∈ fs.way place (xs ++ ys)) :
    w ∈ fs.way place xs ∨ ∃ p, fs.follow place xs = .ok p ∧ w ∈ fs.way p ys := by
  induction xs generalizing place with
  | nil => exact Or.inr ⟨place, rfl, h⟩
  | cons x xs ih =>
    rw [List.cons_append, way] at h
    rw [way, follow_cons]
    rcases List.mem_cons.mp h with rfl | h
    · exact Or.inl List.mem_cons_self
    split at h
    · rename_i hdir hturn
      rw [hdir, hturn]
      exact (ih h).imp_left (List.mem_cons_of_mem _)
    · cases h

/-- Where a path with an ordinary last name leads. -/
theorem follow_last {fs : Files} {place names p : List Text} {name : Text} (hname : Path.IsOrdinary name)
    (h : fs.follow place (names ++ [name]) = .ok p) :
    ∃ d, fs.follow place names = .ok d ∧ fs.entry? d = some .directory ∧ p = d ++ [name] := by
  rw [follow_append] at h
  cases hd : fs.follow place names with
  | error e =>
    rw [hd] at h
    cases h
  | ok d =>
    rw [hd] at h
    have h : fs.follow d [name] = .ok p := h
    rw [follow_cons] at h
    split at h
    · cases h
    · cases h
    · rename_i hdir
      rw [turn, if_neg (by simp [hname.notEmpty, hname.notHere]), if_neg hname.notUp] at h
      split at h
      · rename_i hturn
        cases h
        split at hturn
        · cases hturn
        · cases hturn
          exact ⟨d, rfl, hdir, rfl⟩
      · cases h

/-! ### Paths -/

/-- Where a path is followed from. -/
def origin (fs : Files) (path : Text) : List Text := if Path.isAbsolute path then [] else fs.current

/-- The places that a path leads through. -/
def wayOf (fs : Files) (path : Text) : List (List Text) := fs.way (fs.origin path) (path.splitOn '/')

theorem follow_of_place {fs : Files} {path : Text} {p : List Text} (h : fs.place path = .ok p) :
    fs.follow (fs.origin path) (path.splitOn '/') = .ok p := by
  unfold place at h
  split at h
  · cases h
  · split at h
    · cases h
    · split at h
      · cases h
      · exact h

/-- Files that are the same but for what is at some places. -/
structure SameBut (written : List Text → Prop) (fs fs' : Files) : Prop where
  current : fs'.current = fs.current
  entry : ∀ w, ¬written w → fs'.entry? w = fs.entry? w

variable {written : List Text → Prop} {fs fs' : Files} {path : Text}

theorem SameBut.place (h : SameBut written fs fs') (hway : ∀ w ∈ fs.wayOf path, ¬written w) :
    fs'.place path = fs.place path := by
  have hfollow := follow_congr fun w hw => h.entry w (hway w hw)
  unfold Files.place
  unfold origin at hfollow
  rw [h.current, hfollow]

theorem SameBut.status (h : SameBut written fs fs') (hway : ∀ w ∈ fs.wayOf path, ¬written w)
    (hplace : ∀ w, fs.place path = .ok w → ¬written w) : fs'.status path = fs.status path := by
  unfold Files.status
  rw [h.place hway]
  cases hp : fs.place path with
  | error e => rfl
  | ok w =>
    simp only [bind, Except.bind, h.entry w (hplace w hp)]

/-- Where a file at a path is written. -/
def destination (fs : Files) (path : Text) : Except FileError (List Text) := do
  let place ← fs.place (withoutSlashes path)
  if path.endsWith Path.slash ∨ fs.entry? place = some .directory then .error .isDirectory else .ok place

theorem write_eq (fs : Files) (path : Text) (content : List UInt8) :
    fs.write path content = (fs.destination path).map fun place => fs.put place (.file content) := by
  unfold write destination
  cases fs.place (withoutSlashes path) with
  | error e => rfl
  | ok place =>
    show (if _ then _ else _) = Except.map _ (if _ then _ else _)
    split <;> rfl

theorem destination_ok {place : List Text} (h : fs.destination path = .ok place) :
    fs.place (withoutSlashes path) = .ok place ∧ fs.entry? place ≠ some .directory := by
  unfold destination at h
  cases hp : fs.place (withoutSlashes path) with
  | error e =>
    rw [hp] at h
    cases h
  | ok p =>
    rw [hp] at h
    have h : (if path.endsWith Path.slash ∨ fs.entry? p = some .directory then .error .isDirectory else .ok p :
        Except FileError (List Text)) = .ok place := h
    split at h
    · cases h
    · rename_i hdir
      cases h
      exact ⟨rfl, fun hd => hdir (Or.inr hd)⟩

theorem destination_ne_root {place : List Text} (h : fs.destination path = .ok place) : place ≠ [] := by
  rintro rfl
  exact (destination_ok h).2 rfl

theorem SameBut.destination (h : SameBut written fs fs') (hway : ∀ w ∈ fs.wayOf (withoutSlashes path), ¬written w)
    (hplace : ∀ w, fs.place (withoutSlashes path) = .ok w → ¬written w) : fs'.destination path = fs.destination path := by
  unfold Files.destination
  rw [h.place hway]
  cases hp : fs.place (withoutSlashes path) with
  | error e => rfl
  | ok w =>
    show (if _ ∨ fs'.entry? w = _ then _ else _) = (if _ ∨ fs.entry? w = _ then _ else _)
    rw [h.entry w (hplace w hp)]

end Files
end CilCompiler
