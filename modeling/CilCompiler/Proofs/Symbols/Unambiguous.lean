import CilCompiler.Proofs.Symbols.History

/-! Members that can be told apart. If the types of the catalog have no two members of one signature, no type ever
    has, so a query matches one member at most and it does not matter in which order members were entered:
    declarations that are all accepted are accepted in every order, and every query is answered in the same way after
    them (`members_unambiguous`). -/

namespace CilCompiler
namespace Symbols

/-! ### Members that clash with no other -/

/-- No two of the members have one signature. -/
def Distinct (l : List Entry) : Prop := l.Pairwise fun x y => x.clashes y = false

theorem clashes_comm (x y : Entry) : x.clashes y = y.clashes x := by
  have same : ∀ ps qs : List (Option Ty), Ty.sameList ps qs = Ty.sameList qs ps := fun ps qs =>
    Bool.eq_iff_iff.mpr (Ty.sameList_iff.trans (eq_comm.trans Ty.sameList_iff.symm))
  cases x <;> cases y <;> simp only [Entry.clashes]
  · simp only [eq_comm]
  · rw [same, decide_eq_decide.mpr eq_comm, Bool.beq_comm]
  · exact same _ _

theorem Distinct.perm {l l' : List Entry} (hp : l.Perm l') : Distinct l ↔ Distinct l' :=
  hp.pairwise_iff fun {x y} h => by rwa [clashes_comm]

theorem distinct_append_singleton {l : List Entry} {x : Entry} :
    Distinct (l ++ [x]) ↔ Distinct l ∧ ∀ y ∈ l, y.clashes x = false := by
  simp [Distinct, List.pairwise_append]

/-! ### Queries -/

def Query.type : Query → Ty
  | .field t _ => t
  | .method t _ _ _ => t
  | .ctor t _ => t

/-- Whether a member is what a query looks for. -/
def Query.matches : Query → Entry → Bool
  | .field _ name, .field f => f.name = name
  | .method _ name args isStatic, .method m => m.name = name && (m.isStatic == isStatic && Ty.sameList m.params args)
  | .ctor _ args, .ctor c => Ty.sameList c.params args
  | _, _ => false

/-- Whether a member could be what a query looks for if it had other parameters. -/
def Query.concerns : Query → Entry → Bool
  | .method _ name _ _, .method m => m.name = name
  | .ctor _ _, .ctor _ => true
  | _, _ => false

/-- Why nothing is found, where there are members with other parameters and where there are none. -/
def Query.missing : Query → Bool → LookupCause
  | .field t name, _ => .missingField t.name name
  | .method t name args isStatic, true => .noMethodOverload isStatic t.name (signature name args)
  | .method t name _ _, false => .missingMethod t.name name
  | .ctor t args, true => .noConstructorOverload t.name (signature Method.ctorName args)
  | .ctor t _, false => .noConstructors t.name

theorem find?_members (s : Symbols) (q : Query) : (s.members q.type).find? q.matches =
    match q with
    | .field t name => ((s.fieldsOf t).find? fun f => f.name = name).map .field
    | .method t name args isStatic =>
      ((s.methodsOf t name).find? fun m => m.isStatic == isStatic && Ty.sameList m.params args).map .method
    | .ctor t args => ((s.ctorsOf t).find? fun c => Ty.sameList c.params args).map .ctor := by
  have nothing : ∀ {α : Type} (l : List α), l.find? (fun _ => false) = none := fun l => List.find?_eq_none.mpr (by simp)
  cases q with
  | field t name =>
    show ((s.members t).find? _) = _
    simp [members, entries, List.find?_map, Function.comp_def, Query.matches, nothing]
  | method t name args isStatic =>
    show ((s.members t).find? _) = _
    simp [members, entries, methodsOf, List.find?_map, Function.comp_def, Query.matches, nothing, List.find?_filter,
        Bool.beq_eq_decide_eq]
  | ctor t args =>
    show ((s.members t).find? _) = _
    simp [members, entries, List.find?_map, Function.comp_def, Query.matches, nothing]

theorem any_members (s : Symbols) (q : Query) : (s.members q.type).any q.concerns =
    match q with
    | .field _ _ => false
    | .method t name _ _ => !(s.methodsOf t name).isEmpty
    | .ctor t _ => !(s.ctorsOf t).isEmpty := by
  cases q with
  | field t name =>
    show (s.members t).any _ = _
    simp [members, entries, Function.comp_def, Query.concerns]
  | method t name args isStatic =>
    show (s.members t).any _ = _
    rw [Bool.eq_iff_iff]
    simp [members, entries, methodsOf, Function.comp_def, Query.concerns]
  | ctor t args =>
    show (s.members t).any _ = _
    cases h : s.ctorsOf t <;> simp [members, entries, Function.comp_def, Query.concerns, h]

/-- A query finds the first member that matches it. -/
theorem ask_eq (s : Symbols) (q : Query) : s.ask q =
    match (s.members q.type).find? q.matches with
    | some x => .ok x
    | none => .error (.lookup (q.missing ((s.members q.type).any q.concerns))) := by
  rw [find?_members, any_members]
  cases q with
  | field t name =>
    simp only [ask, findField]
    cases (s.fieldsOf t).find? fun f => f.name = name <;> rfl
  | method t name args isStatic =>
    simp only [ask, findMethod]
    cases s.methodsOf t name with
    | nil => rfl
    | cons m rest =>
      dsimp only
      cases (m :: rest).find? fun m => m.isStatic == isStatic && Ty.sameList m.params args <;> rfl
  | ctor t args =>
    simp only [ask, findConstructor]
    cases s.ctorsOf t with
    | nil => rfl
    | cons c rest =>
      dsimp only
      cases (c :: rest).find? fun c => Ty.sameList c.params args <;> rfl

/-- Members that match one query have one signature. -/
theorem clashes_of_matches {q : Query} {x y : Entry} (hx : q.matches x = true) (hy : q.matches y = true) :
    x.clashes y = true := by
  have same : ∀ {ps qs args : List (Option Ty)}, Ty.sameList ps args = true → Ty.sameList qs args = true →
      Ty.sameList ps qs = true :=
    fun h h' => Ty.sameList_iff.mpr ((Ty.sameList_iff.mp h).trans (Ty.sameList_iff.mp h').symm)
  cases q <;> cases x <;> cases y <;> simp only [Query.matches, Bool.false_eq_true, decide_eq_true_eq, Bool.and_eq_true,
      beq_iff_eq] at hx hy
  · simp [Entry.clashes, hx, hy]
  · simp [Entry.clashes, hx.1, hy.1, hx.2.1, hy.2.1, same hx.2.2 hy.2.2]
  · exact same hx hy

theorem Distinct.matches_le_one {l : List Entry} (h : Distinct l) (q : Query) : (l.filter q.matches).length ≤ 1 := by
  have hnone : (l.filter q.matches).Pairwise fun _ _ => False := by
    refine (List.Pairwise.filter _ h).imp_of_mem fun {x y} hx hy hxy => ?_
    rw [clashes_of_matches (List.mem_filter.mp hx).2 (List.mem_filter.mp hy).2] at hxy
    cases hxy
  cases hl : l.filter q.matches with
  | nil => exact Nat.zero_le 1
  | cons x rest =>
    cases rest with
    | nil => exact Nat.le_refl 1
    | cons y rest =>
      rw [hl] at hnone
      exact ((List.pairwise_cons.mp hnone).1 y List.mem_cons_self).elim

/-- What a query finds is the one member that matches it. -/
theorem Distinct.ask_ok_iff {s : Symbols} {q : Query} (h : Distinct (s.members q.type)) {x : Entry} :
    s.ask q = .ok x ↔ (s.members q.type).filter q.matches = [x] := by
  rw [ask_eq, ← List.head?_filter]
  have hle := h.matches_le_one q
  rcases hl : (s.members q.type).filter q.matches with _ | ⟨y, _ | ⟨z, rest⟩⟩
  · simp
  · simp
  · rw [hl] at hle
    exact absurd hle (by simp)

/-- In which order members were entered makes no difference to a query that matches one at most. -/
theorem ask_congr {s s' : Symbols} {q : Query} (hp : (s.members q.type).Perm (s'.members q.type))
    (hd : Distinct (s.members q.type)) :
    s.ask q = s'.ask q := by
  have hfind : (s.members q.type).find? q.matches = (s'.members q.type).find? q.matches := by
    rw [← List.head?_filter, ← List.head?_filter]
    have hperm := hp.filter q.matches
    rcases hl : (s.members q.type).filter q.matches with _ | ⟨x, _ | ⟨y, rest⟩⟩
    · rw [hl] at hperm
      rw [hperm.nil_eq]
    · rw [hl] at hperm
      rw [hperm.singleton_eq]
    · have hle := hd.matches_le_one q
      rw [hl] at hle
      simp at hle
  rw [ask_eq, ask_eq, hfind, hp.any_eq]

/-! ### Members over time -/

/-- Whether a member is entered for a type. -/
def Entry.isOf (t : Ty) (x : Entry) : Bool := key x.owner.name = key t.name

def Operation.entry? : Operation → Option Entry
  | .register x => some x
  | _ => none

/-- The members that are entered for a type among some operations. -/
def entriesOf (t : Ty) (ops : List Operation) : List Entry := (ops.filterMap Operation.entry?).filter (Entry.isOf t)

/-- Whether every member among the operations is accepted when its turn comes. -/
def accepts (s : Symbols) : List Operation → Bool
  | [] => true
  | op :: ops => (op.entry?.isNone || (s.perform op).1.isOk) && (s.perform op).2.accepts ops

theorem members_enterMembers (s : Symbols) (x : TypeMembers) (t : Ty) : (s.enterMembers x).members t =
    if key x.type.name = key t.name then entries x.fields x.methods x.ctors else s.members t := by
  simp only [members, fieldsOf, allMethods, ctorsOf, enterMembers, Table.get?_put]
  split <;> rfl

theorem members_withEntry (s : Symbols) (x : Entry) (t : Ty) :
    ((s.withEntry x).members t).Perm (s.members t ++ [x].filter (Entry.isOf t)) := by
  by_cases hk : key x.owner.name = key t.name
  · rw [List.filter_cons_of_pos (show Entry.isOf t x = true from decide_eq_true hk), List.filter_nil]
    cases x with
    | field f =>
      have he : (s.withEntry (.field f)).members t =
          (s.fieldsOf t).map .field ++ ([.field f] ++ ((s.allMethods t).map .method ++ (s.ctorsOf t).map .ctor)) := by
        have hk : key f.owner.name = key t.name := hk
        simp [members, entries, withEntry, fieldsOf, allMethods, ctorsOf, Table.get?_put, hk]
      rw [he]
      exact (List.perm_append_comm.append_left _).trans (.of_eq (by simp [members, entries]))
    | method m =>
      have he : (s.withEntry (.method m)).members t =
          (s.fieldsOf t).map .field ++ (s.allMethods t).map .method ++ ([.method m] ++ (s.ctorsOf t).map .ctor) := by
        have hk : key m.owner.name = key t.name := hk
        simp [members, entries, withEntry, fieldsOf, allMethods, ctorsOf, Table.get?_put, hk]
      rw [he]
      exact (List.perm_append_comm.append_left _).trans (.of_eq (by simp [members, entries]))
    | ctor c =>
      have hk : key c.owner.name = key t.name := hk
      exact .of_eq (by simp [members, entries, withEntry, fieldsOf, allMethods, ctorsOf, Table.get?_put, hk])
  · rw [List.filter_cons_of_neg (by simpa [Entry.isOf] using hk), List.filter_nil, List.append_nil]
    cases x with
    | field f =>
      have hk : key f.owner.name ≠ key t.name := hk
      exact .of_eq (by simp [members, withEntry, fieldsOf, allMethods, ctorsOf, Table.get?_put, hk])
    | method m =>
      have hk : key m.owner.name ≠ key t.name := hk
      exact .of_eq (by simp [members, withEntry, fieldsOf, allMethods, ctorsOf, Table.get?_put, hk])
    | ctor c =>
      have hk : key c.owner.name ≠ key t.name := hk
      exact .of_eq (by simp [members, withEntry, fieldsOf, allMethods, ctorsOf, Table.get?_put, hk])

theorem withEntry_phase (s : Symbols) (x : Entry) : (s.withEntry x).phase = s.phase := by cases x <;> rfl

/-- A member that clashes with none of its owner's is accepted. -/
theorem perform_register {s : Symbols} {x : Entry} (hp : s.phase = .declare)
    (hx : ∀ y ∈ s.members x.owner, y.clashes x = false) :
    s.perform (.register x) = (.ok none, s.withEntry x) := by
  show s.entering (s.register x) = _
  rw [register_ok_iff.mpr ⟨hp, hx, rfl⟩]
  rfl

theorem free_of_accepted {s : Symbols} {x : Entry} (h : (s.perform (.register x)).1.isOk = true) :
    ∀ y ∈ s.members x.owner, y.clashes x = false := by
  change (s.entering (s.register x)).1.isOk = true at h
  cases hr : s.register x with
  | ok s' => exact (register_ok_iff.mp hr).2.1
  | error f =>
    rw [hr] at h
    cases h

/-- Members come from the catalog, or are entered one by one. -/
theorem Written.members {s s' : Symbols} {op : Operation} (h : s.Written op s') (hb : ∀ xs, op ≠ .registerBuiltins xs)
    (hr : ∀ x, op ≠ .register x) (t : Ty) : s'.members t = s.members t := by
  cases h with
  | registerBuiltins => exact absurd rfl (hb _)
  | register => exact absurd rfl (hr _)
  | lookup h =>
    have hx := lookup_extends h
    rw [Symbols.members, hx.fieldsOf, hx.allMethods, hx.ctorsOf]
    rfl
  | _ => rfl

theorem perform_members {s : Symbols} {op : Operation} (hs : s.phase ≠ .builtins) (hr : ∀ x, op ≠ .register x) (t : Ty) :
    (s.perform op).2.members t = s.members t := by
  rcases s.perform_cases op with h | h
  · rw [h]
  · refine h.members (fun xs hop => ?_) hr t
    subst hop
    generalize (s.perform _).2 = s' at h
    cases h
    exact hs ‹_›

theorem distinct_withEntry {s : Symbols} {x : Entry} (hx : ∀ y ∈ s.members x.owner, y.clashes x = false)
    (hd : ∀ t, Distinct (s.members t)) (t : Ty) : Distinct ((s.withEntry x).members t) := by
  rw [Distinct.perm (members_withEntry s x t)]
  by_cases ht : Entry.isOf t x = true
  · rw [List.filter_cons_of_pos ht]
    refine distinct_append_singleton.mpr ⟨hd t, ?_⟩
    have hsame : s.members t = s.members x.owner := by
      rw [Entry.isOf, decide_eq_true_eq] at ht
      simp only [members, fieldsOf, allMethods, ctorsOf, ht]
    rw [hsame]
    exact hx
  · rw [List.filter_cons_of_neg ht, List.filter_nil, List.append_nil]
    exact hd t

/-- What keeps members apart is kept, whatever is done. -/
theorem perform_distinct {s : Symbols} {op : Operation} (hi : ∀ xs, op = .registerBuiltins xs → ∀ x, some x ∈ xs →
    Distinct (entries x.fields x.methods x.ctors)) (hd :
      ∀ t, Distinct (s.members t)) (t : Ty) : Distinct ((s.perform op).2.members t) := by
  rcases s.perform_cases op with h | h
  · rw [h]
    exact hd t
  · generalize (s.perform op).2 = s' at h
    cases op with
    | registerBuiltins xs =>
      cases h
      refine List.foldlRecOn (motive := fun s : Symbols => ∀ t, Distinct (s.members t)) _ _ hd (fun s hs x hx t => ?_) t
      obtain ⟨y, hy, rfl⟩ := List.mem_filterMap.mp hx
      rw [members_enterMembers]
      split
      · exact hi xs rfl x hy
      · exact hs t
    | register x =>
      cases h
      exact distinct_withEntry ‹_› hd t
    | _ =>
      rw [h.members (fun _ h => nomatch h) (fun _ h => nomatch h)]
      exact hd t

/-! ### Members in any order -/

theorem entriesOf_register (t : Ty) (x : Entry) (ops : List Operation) :
    entriesOf t (.register x :: ops) = [x].filter (Entry.isOf t) ++ entriesOf t ops := by
  rw [entriesOf, List.filterMap_cons_some (show Operation.entry? (.register x) = some x from rfl), ← List.singleton_append,
    List.filter_append, entriesOf]

theorem entriesOf_other (t : Ty) {op : Operation} (h : ∀ x, op ≠ .register x) (ops : List Operation) :
    entriesOf t (op :: ops) = entriesOf t ops := by
  rw [entriesOf, List.filterMap_cons_none, entriesOf]
  cases op with
  | register x => exact absurd rfl (h x)
  | _ => rfl

theorem perform_declare {s : Symbols} {op : Operation} (hp : s.phase = .declare) (hf : op ≠ .freeze) :
    (s.perform op).2.phase = .declare := by
  rcases s.perform_cases op with h | h
  · rwa [h]
  · generalize (s.perform op).2 = s' at h
    cases h with
    | freeze => exact absurd rfl hf
    | registerBuiltins hb => exact absurd (hp.symm.trans hb) (by decide)
    | registerAlias hb => exact absurd (hp.symm.trans hb) (by decide)
    | beginDeclarations hb => exact absurd (hp.symm.trans hb) (by decide)
    | register => rwa [withEntry_phase]
    | lookup hl => rwa [(lookup_extends hl).rest]
    | _ => exact hp

/-- Members are accepted in turn exactly if all of them together can be told apart, and then all of them are entered. -/
theorem accepts_iff {s : Symbols} {ops : List Operation} (hp : s.phase = .declare) (hf : .freeze ∉ ops)
    (hd : ∀ t, Distinct (s.members t)) :
    (s.accepts ops = true ↔ ∀ t, Distinct (s.members t ++ entriesOf t ops)) ∧
      (s.accepts ops = true → ∀ t, ((s.run ops).members t).Perm (s.members t ++ entriesOf t ops)) := by
  induction ops generalizing s with
  | nil =>
    have hnone : ∀ t, s.members t ++ entriesOf t [] = s.members t := fun t => List.append_nil _
    exact ⟨⟨fun _ t => by rw [hnone]; exact hd t, fun _ => rfl⟩, fun _ t => by rw [hnone]; exact .refl _⟩
  | cons op ops ih =>
    have hf' : .freeze ∉ ops := fun h => hf (List.mem_cons_of_mem _ h)
    have hop : op ≠ .freeze := fun h => hf (h ▸ List.mem_cons_self)
    by_cases hr : ∃ x, op = .register x
    · obtain ⟨x, rfl⟩ := hr
      -- Once the member has been entered, the others are entered next to it.
      have next : (∀ y ∈ s.members x.owner, y.clashes x = false) →
          ((s.perform (.register x)).2.accepts ops = true ↔
            ∀ t, Distinct (s.members t ++ entriesOf t (.register x :: ops))) ∧
            ((s.perform (.register x)).2.accepts ops = true →
              ∀ t, (((s.perform (.register x)).2.run ops).members t).Perm (s.members t ++
                entriesOf t (.register x :: ops))) := by
        intro hx
        have moved :
            ∀ t, ((s.withEntry x).members t ++ entriesOf t ops).Perm (s.members t ++ entriesOf t (.register x :: ops)) := by
          intro t
          rw [entriesOf_register, ← List.append_assoc]
          exact (members_withEntry s x t).append_right _
        obtain ⟨h1, h2⟩ := ih (s := s.withEntry x) ((withEntry_phase s x).trans hp) hf' (distinct_withEntry hx hd)
        rw [perform_register hp hx]
        exact ⟨h1.trans (forall_congr' fun t => Distinct.perm (moved t)), fun ha t => (h2 ha t).trans (moved t)⟩
      have turn : s.accepts (.register x :: ops) = true ↔
          (s.perform (.register x)).1.isOk = true ∧ (s.perform (.register x)).2.accepts ops = true := Bool.and_eq_true_iff
      rw [turn]
      refine ⟨⟨fun ⟨h1, h2⟩ => (next (free_of_accepted h1)).1.mp h2, fun h => ?_⟩,
          fun ⟨h1, h2⟩ => (next (free_of_accepted h1)).2 h2⟩
      have hx : ∀ y ∈ s.members x.owner, y.clashes x = false := by
        have hown := h x.owner
        rw [entriesOf_register, List.filter_cons_of_pos (show Entry.isOf x.owner x = true from decide_eq_true rfl)] at hown
        exact fun y hy => (List.pairwise_append.mp hown).2.2 y hy x (by simp)
      exact ⟨by rw [perform_register hp hx]; rfl, (next hx).1.mpr h⟩
    · have hr : ∀ x, op ≠ .register x := fun x h => hr ⟨x, h⟩
      have hmembers := perform_members (s := s) (by rw [hp]; decide) hr
      obtain ⟨h1, h2⟩ := ih (s := (s.perform op).2) (perform_declare hp hop) hf' fun t => by
        rw [hmembers]
        exact hd t
      simp only [hmembers] at h1 h2
      simp only [entriesOf_other _ hr]
      have turn : s.accepts (op :: ops) = (s.perform op).2.accepts ops := by
        cases op with
        | register x => exact absurd rfl (hr x)
        | _ => rfl
      rw [turn]
      exact ⟨h1, h2⟩

/-- Members can be told apart, each query matches one at most, and the order in which members are entered makes no
    difference. -/
theorem members_unambiguous (ops : List Operation) (hi : ∀ xs, .registerBuiltins xs ∈ ops → ∀ x, some x ∈ xs →
    Distinct (entries x.fields x.methods x.ctors)) :
    (∀ t, Distinct ((after ops).members t)) ∧
    (∀ q : Query, (((after ops).members q.type).filter q.matches).length ≤ 1) ∧
    (∀ (q : Query) x, (after ops).ask q = .ok x ↔ ((after ops).members q.type).filter q.matches = [x]) ∧
    ((after ops).phase = .declare → ∀ rest rest', .freeze ∉ rest → .freeze ∉ rest' →
      (rest.filterMap Operation.entry?).Perm (rest'.filterMap Operation.entry?) → (after ops).accepts rest = true →
        (after ops).accepts rest' = true ∧ ∀ q, ((after ops).run rest').ask q = ((after ops).run rest).ask q) := by
  have hd : ∀ t, Distinct ((after ops).members t) := by
    refine run_of_step (P := fun s => ∀ t, Distinct (s.members t)) (fun s op ho hs => ?_) fun t => List.Pairwise.nil
    exact perform_distinct (fun xs h => hi xs (h ▸ ho)) hs
  refine ⟨hd, fun q => (hd q.type).matches_le_one q, fun q x => (hd q.type).ask_ok_iff,
      fun hp rest rest' hf hf' hperm ha => ?_⟩
  obtain ⟨h1, h2⟩ := accepts_iff hp hf hd
  obtain ⟨h1', h2'⟩ := accepts_iff hp hf' hd
  have hsame : ∀ t, ((after ops).members t ++ entriesOf t rest).Perm ((after ops).members t ++ entriesOf t rest') :=
    fun t =>
    (hperm.filter _).append_left _
  have ha' : (after ops).accepts rest' = true := h1'.mpr fun t => (Distinct.perm (hsame t)).mp (h1.mp ha t)
  refine ⟨ha', fun q => ask_congr (((h2' ha' q.type).trans (hsame q.type).symm).trans (h2 ha q.type).symm) ?_⟩
  exact (Distinct.perm (h2' ha' q.type)).mpr (h1'.mp ha' q.type)

namespace Cell

def catalog : Module := .new 0 .dynamic "m" "v4"

/-- The types of the catalog with their members. -/
def builtins : List TypeMembers := catalog.hostTypes.map catalog.membersOf

def type : Ty := .root { name := "Cell", index := 40, module := 0, assembly := "m", isValue := false }

/-- A method without parameters that is found by its name and by whether it is static. -/
def read (bits : Nat) : Method :=
  { owner := type, isCtor := false, index := 0, name := "Read", attrs := ⟨bits⟩, params := [], ret := none }

def content : Field := { owner := type, index := 0, name := "Read", type := none, attrs := ⟨1⟩, slot := some 0 }

def new : Method :=
  { owner := type, isCtor := true, index := 0, name := Method.ctorName, attrs := ⟨1⟩, params := [], ret := none }

def begun : List Operation := [.registerBuiltins (builtins.map some), .beginDeclarations, .registerType type]

def members : List Entry := [.method (read 3), .method (read 1), .field content, .ctor new]

/-- The members in order. -/
def forwards : List Operation := members.map .register

/-- The members in the opposite order, and a name looked up before them. -/
def backwards : List Operation := .lookup "Cell[]" :: members.reverse.map .register

theorem builtins_distinct : ∀ x ∈ builtins, Distinct (entries x.fields x.methods x.ctors) := by
  unfold Distinct
  decide +kernel

end Cell

/-- No two members of the catalog have one signature, and those of a class can be entered backwards. -/
theorem members_unambiguous_cell : (after Cell.begun).accepts Cell.backwards = true ∧
    ∀ q, ((after Cell.begun).run Cell.backwards).ask q = ((after Cell.begun).run Cell.forwards).ask q := by
  refine (members_unambiguous Cell.begun fun xs hxs x hx => ?_).2.2.2 (by decide +kernel) Cell.forwards
      Cell.backwards ?_ ?_ ?_
    (by decide +kernel)
  · obtain rfl : xs = Cell.builtins.map some := by simpa [Cell.begun] using hxs
    obtain ⟨y, hy, he⟩ := List.mem_map.mp hx
    cases he
    exact Cell.builtins_distinct x hy
  · simp [Cell.forwards]
  · simp [Cell.backwards]
  · exact (List.reverse_perm Cell.members).symm

end Symbols
end CilCompiler
