import CilCompiler.Proofs.Symbols
import CilCompiler.Proofs.Text.Composed

/-! The symbols over time. `Operation` is all that can be asked of them, in any order, and `Symbols.after` are the
    symbols that some operations lead to. What one operation does is said once (`perform_cases`); the history as a
    whole follows from it: an operation that fails leaves no trace, phases follow one another, a name that has stood
    for a type since the declarations began stands for it ever after, and at the end only array types are added
    (`history_lawful`). -/

namespace CilCompiler
namespace Symbols

/-! ### Operations -/

/-- A member that is entered for its owner. -/
inductive Entry where
  | field (f : Field)
  | method (m : Method)
  | ctor (c : Method)

/-- A member that is looked for on a type. -/
inductive Query where
  | field (t : Ty) (name : Text)
  | method (t : Ty) (name : Text) (args : List (Option Ty)) (isStatic : Bool)
  | ctor (t : Ty) (args : List (Option Ty))

/-- What can be asked of the symbols. A list of types to enter may have gaps. -/
inductive Operation where
  | registerBuiltins (xs : List (Option TypeMembers))
  | registerAlias (spelling target : Text)
  | beginDeclarations
  | freeze
  | registerType (t : Ty)
  | register (x : Entry)
  | registerDelegate (d : Delegate)
  | lookup (name : Text)
  | find (q : Query)

/-- Enters a member. -/
def register (s : Symbols) : Entry → Except Fault Symbols
  | .field f => s.registerField f
  | .method m => s.registerMethod m
  | .ctor c => s.registerConstructor c

/-- The member that a query finds. -/
def ask (s : Symbols) : Query → Except Fault Entry
  | .field t name => (s.findField t name).map .field
  | .method t name args isStatic => (s.findMethod t name args isStatic).map .method
  | .ctor t args => (s.findConstructor t args).map .ctor

/-- Looks a name up where the symbols are: each array type is entered as soon as its element type has been found,
    whatever becomes of the names around it. -/
def lookupInPlace (s : Symbols) (name : Text) : Except Fault Ty × Symbols :=
  match s.entered? name with
  | some t => (.ok t, s)
  | none =>
    match _h : TypeName.elem? name with
    | some e =>
      match s.lookupInPlace e with
      | (.ok t, s) =>
        let k := key name
        (.ok (.array t), { s with types := s.types.put ((s.aliases.get? k).getD k) (.array t) })
      | (.error f, s) => (.error f, s)
    | none => (.error (.lookup (.missingType name)), s)
termination_by name.size
decreasing_by exact TypeName.elem?_size _h

/-- The symbols with what was entered, or as they were. -/
def entering (s : Symbols) : Except Fault Symbols → Except Fault (Option Ty) × Symbols
  | .ok s' => (.ok none, s')
  | .error f => (.error f, s)

/-- The answer of an operation, a type if it looks one up, and the symbols it leaves. -/
def perform (s : Symbols) : Operation → Except Fault (Option Ty) × Symbols
  | .registerBuiltins xs => s.entering (s.registerBuiltins (xs.filterMap id))
  | .registerAlias spelling target => s.entering (s.registerAlias spelling target)
  | .beginDeclarations => s.entering s.beginDeclarations
  | .freeze => s.entering s.freeze
  | .registerType t => s.entering (s.registerType t)
  | .register x => s.entering (s.register x)
  | .registerDelegate d => s.entering (s.registerDelegate d)
  | .lookup name => ((s.lookupInPlace name).1.map some, (s.lookupInPlace name).2)
  | .find q => ((s.ask q).map fun _ => none, s)

/-- The symbols after one operation after another, whether they succeed or not. -/
def run (s : Symbols) (ops : List Operation) : Symbols := ops.foldl (fun s op => (s.perform op).2) s

/-- What becomes of the first symbols, which are empty. -/
def after (ops : List Operation) : Symbols := ({} : Symbols).run ops

theorem entering_error {s : Symbols} {r : Except Fault Symbols} {f : Fault} (h : (s.entering r).1 = .error f) :
    (s.entering r).2 = s := by
  cases r with
  | ok s' => cases h
  | error e => rfl

theorem entering_cases (s : Symbols) (r : Except Fault Symbols) : (s.entering r).2 = s ∨ r = .ok (s.entering r).2 := by
  cases r with
  | ok s' => exact .inr rfl
  | error f => exact .inl rfl

/-- Nothing is entered for a name that is not found, so looking up in place is looking up. -/
theorem lookupInPlace_eq (s : Symbols) (name : Text) : s.lookupInPlace name =
    match s.lookup name with
    | .ok (t, s') => (.ok t, s')
    | .error f => (.error f, s) := by
  induction name using elem?_induction with
  | h name ih =>
    cases hn : s.entered? name with
    | some t => rw [lookupInPlace, hn, lookup_of_entered hn]
    | none =>
      rw [lookupInPlace, hn, lookup_of_none hn]
      dsimp only
      split
      · rename_i e he
        rw [he, ih e he]
        dsimp only
        cases s.lookup e with
        | ok r => rfl
        | error f => rfl
      · rename_i he
        rw [he]

/-! ### What one operation does -/

/-- Whether two members are of one kind and signature, so that a type cannot have both. -/
def Entry.clashes : Entry → Entry → Bool
  | .field f, .field g => f.name = g.name
  | .method m, .method n => m.name = n.name && m.isStatic == n.isStatic && Ty.sameList m.params n.params
  | .ctor c, .ctor d => Ty.sameList c.params d.params
  | _, _ => false

def Entry.owner : Entry → Ty
  | .field f => f.owner
  | .method m => m.owner
  | .ctor c => c.owner

def entries (fields : List Field) (methods ctors : List Method) : List Entry :=
  fields.map .field ++ methods.map .method ++ ctors.map .ctor

/-- The members that have been entered for a type. -/
def members (s : Symbols) (t : Ty) : List Entry := entries (s.fieldsOf t) (s.allMethods t) (s.ctorsOf t)

/-- The symbols with one member more. -/
def withEntry (s : Symbols) : Entry → Symbols
  | .field f => { s with fields := s.fields.put (key f.owner.name) (s.fieldsOf f.owner ++ [f]) }
  | .method m => { s with methods := s.methods.put (key m.owner.name) (s.allMethods m.owner ++ [m]) }
  | .ctor c => { s with ctors := s.ctors.put (key c.owner.name) (s.ctorsOf c.owner ++ [c]) }

/-- A member is entered in the phase of declarations when it clashes with no other. -/
theorem register_ok_iff {s s' : Symbols} {x : Entry} :
    s.register x = .ok s' ↔ s.phase = .declare ∧ (∀ y ∈ s.members x.owner, y.clashes x = false) ∧ s' = s.withEntry x := by
  cases x with
  | field f =>
    refine guarded_ok_iff.trans (and_congr_right fun _ => and_congr_left fun _ => ?_)
    simp [members, entries, or_imp, forall_and, Entry.owner, Entry.clashes]
  | method m =>
    refine guarded_ok_iff.trans (and_congr_right fun _ => and_congr_left fun _ => ?_)
    simp [members, entries, or_imp, forall_and, Entry.owner, Entry.clashes]
  | ctor c =>
    refine guarded_ok_iff.trans (and_congr_right fun _ => and_congr_left fun _ => ?_)
    simp [members, entries, or_imp, forall_and, Entry.owner, Entry.clashes]

/-- What an operation that is allowed enters. -/
inductive Written (s : Symbols) : Operation → Symbols → Prop
  | registerBuiltins {xs} (phase : s.phase = .builtins) :
    Written s (.registerBuiltins xs) ((xs.filterMap id).foldl enterMembers s)
  | registerAlias {spelling target} (phase : s.phase = .builtins) (known : s.types.has (key target) = true) :
    Written s (.registerAlias spelling target) { s with aliases := s.aliases.put (key spelling) (key target) }
  | beginDeclarations (phase : s.phase = .builtins) : Written s .beginDeclarations { s with phase := .declare }
  | freeze (phase : s.phase = .declare) : Written s .freeze { s with phase := .generate }
  | registerType {t} (phase : s.phase = .declare) (fresh : s.hasType t.name = false) :
    Written s (.registerType t) { s with types := s.types.put (key t.name) t, declared := s.declared ++ [t] }
  | register {x} (phase : s.phase = .declare) (free : ∀ y ∈ s.members x.owner, y.clashes x = false) :
      Written s (.register x) (s.withEntry x)
  | registerDelegate {d} (phase : s.phase = .declare) (fresh : s.delegates.get? (key d.type.name) = none) :
    Written s (.registerDelegate d) { s with delegates := s.delegates.put (key d.type.name) d }
  | lookup {name t s'} (found : s.lookup name = .ok (t, s')) : Written s (.lookup name) s'

theorem requirePhase_ok {s : Symbols} {p : Phase} {what : Text} {u : Unit}
    (h : s.requirePhase p what = .ok u) : s.phase = p := by
  unfold requirePhase at h
  split at h
  · assumption
  · cases h

/-- An operation leaves the symbols as they are, or enters what it is for. -/
theorem perform_cases (s : Symbols) (op : Operation) : (s.perform op).2 = s ∨ s.Written op (s.perform op).2 := by
  have entered : ∀ {r : Except Fault Symbols}, (∀ {s'}, r = .ok s' → s.Written op s') →
      (s.entering r).2 = s ∨ s.Written op (s.entering r).2 := by
    intro r hr
    exact (entering_cases s r).imp_right hr
  cases op with
  | registerBuiltins xs =>
    refine entered fun h => ?_
    obtain ⟨_, hp, h⟩ := bind_eq_ok.mp h
    cases h
    exact .registerBuiltins (requirePhase_ok hp)
  | registerAlias spelling target =>
    refine entered fun h => ?_
    obtain ⟨_, hp, h⟩ := bind_eq_ok.mp h
    split at h
    · cases h
      exact .registerAlias (requirePhase_ok hp) ‹_›
    · cases h
  | beginDeclarations =>
    refine entered fun h => ?_
    obtain ⟨_, hp, h⟩ := bind_eq_ok.mp h
    cases h
    exact .beginDeclarations (requirePhase_ok hp)
  | freeze =>
    refine entered fun h => ?_
    obtain ⟨_, hp, h⟩ := bind_eq_ok.mp h
    cases h
    exact .freeze (requirePhase_ok hp)
  | registerType t =>
    refine entered fun h => ?_
    obtain ⟨hp, hfresh, rfl⟩ := registerType_ok_iff.mp h
    exact .registerType hp hfresh
  | register x =>
    refine entered fun h => ?_
    obtain ⟨hp, hfree, rfl⟩ := register_ok_iff.mp h
    exact .register hp hfree
  | registerDelegate d =>
    refine entered fun h => ?_
    obtain ⟨hp, hfresh, rfl⟩ := registerDelegate_ok_iff.mp h
    exact .registerDelegate hp hfresh
  | lookup name =>
    show (s.lookupInPlace name).2 = s ∨ s.Written (.lookup name) (s.lookupInPlace name).2
    rw [lookupInPlace_eq]
    cases h : s.lookup name with
    | ok r => exact .inr (.lookup h)
    | error f => exact .inl rfl
  | find q => exact .inl rfl

/-- What operations keep holds of the symbols that they lead to. -/
theorem run_of_step {P : Symbols → Prop} {s : Symbols} {ops : List Operation}
    (step : ∀ s, ∀ op ∈ ops, P s → P (s.perform op).2)
    (h : P s) : P (s.run ops) := by
  induction ops generalizing s with
  | nil => exact h
  | cons op ops ih => exact ih (fun s o ho => step s o (List.mem_cons_of_mem _ ho)) (step s op List.mem_cons_self h)

/-! ### Failures and phases -/

theorem perform_error {s : Symbols} {op : Operation} {f : Fault} (h : (s.perform op).1 = .error f) :
    (s.perform op).2 = s := by
  cases op with
  | lookup name =>
    change (s.lookupInPlace name).1.map some = .error f at h
    change (s.lookupInPlace name).2 = s
    rw [lookupInPlace_eq] at h ⊢
    cases hl : s.lookup name with
    | ok r =>
      rw [hl] at h
      cases h
    | error e => rfl
  | find q => rfl
  | _ => exact entering_error h

theorem foldl_enterMembers_rest (s : Symbols) (xs : List TypeMembers) :
    (xs.foldl enterMembers s).phase = s.phase ∧ (xs.foldl enterMembers s).aliases = s.aliases := by
  induction xs generalizing s with
  | nil => exact ⟨rfl, rfl⟩
  | cons x xs ih => exact ih (s.enterMembers x)

theorem perform_phase (s : Symbols) (op : Operation) : (s.perform op).2.phase = s.phase ∨
    (s.phase = .builtins ∧ (s.perform op).2.phase = .declare) ∨
      (s.phase = .declare ∧ (s.perform op).2.phase = .generate) := by
  rcases s.perform_cases op with h | h
  · exact .inl (congrArg phase h)
  · generalize (s.perform op).2 = s' at h
    cases h with
    | registerBuiltins _ => exact .inl (foldl_enterMembers_rest s _).1
    | beginDeclarations hp => exact .inr (.inl ⟨hp, rfl⟩)
    | freeze hp => exact .inr (.inr ⟨hp, rfl⟩)
    | @register x _ _ => cases x <;> exact .inl rfl
    | lookup h => exact .inl (by rw [(lookup_extends h).rest])
    | _ => exact .inl rfl

/-- The catalog is not entered again once the declarations have begun. -/
theorem perform_declaring {s : Symbols} (op : Operation) (h : s.phase ≠ .builtins) :
    (s.perform op).2.phase ≠ .builtins := by
  rcases s.perform_phase op with hp | ⟨hp, -⟩ | ⟨-, hp⟩
  · rwa [hp]
  · exact absurd hp h
  · rw [hp]
    decide

/-! ### Names -/

/-- All names stand for what they stood for. -/
structure Keeps (s s' : Symbols) : Prop where
  aliases : s'.aliases = s.aliases
  types : ∀ {k : Text} {t : Ty}, s.types.get? k = some t → s'.types.get? k = some t

theorem Keeps.trans {a b c : Symbols} (h : a.Keeps b) (h' : b.Keeps c) : a.Keeps c :=
  ⟨h'.aliases.trans h.aliases, fun hk => h'.types (h.types hk)⟩

theorem Keeps.entered? {s s' : Symbols} (h : s.Keeps s') {n : Text} {t : Ty} (he : s.entered? n = some t) :
    s'.entered? n = some t := by
  rw [Symbols.entered?, h.aliases]
  exact h.types he

theorem perform_keeps {s : Symbols} (op : Operation) (hs : s.phase ≠ .builtins) : s.Keeps (s.perform op).2 := by
  rcases s.perform_cases op with h | h
  · rw [h]
    exact ⟨rfl, id⟩
  · generalize (s.perform op).2 = s' at h
    cases h with
    | registerBuiltins hp => exact absurd hp hs
    | registerAlias hp => exact absurd hp hs
    | beginDeclarations hp => exact absurd hp hs
    | @registerType t _ hfresh =>
      have hfree : s.types.get? (key t.name) = none := Table.get?_eq_none_of_has (Bool.or_eq_false_iff.mp hfresh).1
      refine ⟨rfl, fun {k u} hk => ?_⟩
      show (s.types.put _ _).get? k = some u
      rw [Table.get?_put, if_neg (fun he => by rw [he, hk] at hfree; cases hfree)]
      exact hk
    | @register x _ _ => cases x <;> exact ⟨rfl, id⟩
    | lookup h => exact ⟨(lookup_extends h).grown.aliases, (lookup_extends h).grown.kept⟩
    | _ => exact ⟨rfl, id⟩

theorem run_keeps {s : Symbols} (ops : List Operation) (hs : s.phase ≠ .builtins) : s.Keeps (s.run ops) :=
  (run_of_step (P := fun s' => s'.phase ≠ .builtins ∧ s.Keeps s')
    (fun _ op _ h => ⟨perform_declaring op h.1, h.2.trans (perform_keeps op h.1)⟩) ⟨hs, rfl, id⟩).2

/-- A name that is entered is looked up where it is, and nothing is made for it. -/
theorem perform_lookup_of_entered {s : Symbols} {name : Text} {t : Ty} (h : s.entered? name = some t) :
    s.perform (.lookup name) = (.ok (some t), s) := by
  show ((s.lookupInPlace name).1.map some, (s.lookupInPlace name).2) = _
  rw [lookupInPlace_eq, lookup_of_entered h]
  rfl

theorem entered_of_perform {s : Symbols} {name : Text} {t : Ty} (h : (s.perform (.lookup name)).1 = .ok (some t)) :
    (s.perform (.lookup name)).2.entered? name = some t := by
  change (s.lookupInPlace name).1.map some = _ at h
  change (s.lookupInPlace name).2.entered? name = _
  rw [lookupInPlace_eq] at h ⊢
  cases hl : s.lookup name with
  | ok r =>
    rw [hl] at h
    cases h
    exact lookup_entered hl
  | error f =>
    rw [hl] at h
    cases h

/-! ### Aliases -/

/-- What an alias is another spelling of is a type that has been entered. -/
def Aliased (s : Symbols) : Prop := ∀ k k', s.aliases.get? k = some k' → s.types.has k' = true

theorem Aliased.keeps {s s' : Symbols} (h : s.Aliased) (hk : s.Keeps s') : s'.Aliased := by
  intro k k' ha
  rw [hk.aliases] at ha
  have hs := h k k' ha
  rw [Table.has_eq, Option.isSome_iff_exists] at hs ⊢
  exact hs.imp fun t ht => hk.types ht

theorem Aliased.enterMembers {s : Symbols} (h : s.Aliased) (x : TypeMembers) : (s.enterMembers x).Aliased := by
  intro k k' ha
  show (s.types.put _ _).has k' = true
  have hs := h k k' ha
  rw [Table.has_eq] at hs ⊢
  rw [Table.get?_put]
  split
  · rfl
  · exact hs

theorem Aliased.perform {s : Symbols} (h : s.Aliased) (op : Operation) : (s.perform op).2.Aliased := by
  by_cases hs : s.phase = .builtins
  · rcases s.perform_cases op with he | hw
    · rwa [he]
    · generalize (s.perform op).2 = s' at hw
      cases hw with
      | registerBuiltins _ => exact List.foldlRecOn (motive := Aliased) _ _ h fun _ hs x _ => hs.enterMembers x
      | registerAlias _ hknown =>
        intro k k' ha
        have ha : (s.aliases.put _ _).get? k = some k' := ha
        rw [Table.get?_put] at ha
        split at ha
        · cases ha
          exact hknown
        · exact h k k' ha
      | beginDeclarations _ => exact h
      | freeze hp => exact absurd (hs.symm.trans hp) (by decide)
      | registerType hp => exact absurd (hs.symm.trans hp) (by decide)
      | register hp => exact absurd (hs.symm.trans hp) (by decide)
      | registerDelegate hp => exact absurd (hs.symm.trans hp) (by decide)
      | lookup hl => exact h.keeps ⟨(lookup_extends hl).grown.aliases, (lookup_extends hl).grown.kept⟩
  · exact h.keeps (perform_keeps op hs)

theorem after_aliased (ops : List Operation) : (after ops).Aliased :=
  run_of_step (P := Aliased) (fun _ op _ h => h.perform op) fun _ _ h => nomatch h

/-! ### The end -/

/-- All that has been added are arrays, under names of arrays. -/
structure ArraysAdded (s s' : Symbols) : Prop where
  rest : s' = { s with types := s'.types }
  types : ∀ k, s'.types.get? k = s.types.get? k ∨
    (s.types.get? k = none ∧ ∃ e t, k = TypeName.array e ∧ s'.types.get? k = some (.array t))

/-- Looking up enters array types alone, and only where nothing was entered. -/
theorem lookup_arraysAdded {s s' : Symbols} {n : Text} {t : Ty} (hs : s.Aliased) (h : s.lookup n = .ok (t, s')) :
    s.ArraysAdded s' := by
  refine ⟨(lookup_extends h).rest, ?_⟩
  induction n using elem?_induction generalizing s' t with
  | h n ih =>
    rcases lookup_cases h with ⟨-, rfl⟩ | ⟨hn, e, u, s₁, he, hu, rfl, rfl⟩
    · exact fun k => .inl rfl
    · have haliases : s₁.aliases = s.aliases := (lookup_extends hu).grown.aliases
      have hplain : s.aliases.get? (key n) = none := by
        cases ha : s.aliases.get? (key n) with
        | none => rfl
        | some k =>
          have hknown := hs _ k ha
          rw [entered?, ha] at hn
          rw [Table.has_eq, Option.isSome_iff_exists] at hknown
          obtain ⟨v, hv⟩ := hknown
          cases hv.symm.trans hn
      intro k
      show (s₁.types.put _ _).get? k = _ ∨ (_ ∧ ∃ e t, _ ∧ (s₁.types.put _ _).get? k = _)
      rw [haliases, hplain, Option.getD_none, Table.get?_put]
      by_cases hk : key n = k
      · subst hk
        rw [entered?, hplain] at hn
        obtain ⟨-, rfl⟩ := TypeName.elem?_eq_some.mp he
        exact .inr ⟨hn, key e, u, TypeName.key_array e, if_pos rfl⟩
      · rw [if_neg hk]
        exact ih e he hu k

theorem perform_arraysAdded {s : Symbols} (hs : s.Aliased) (hp : s.phase = .generate) (op : Operation) :
    s.ArraysAdded (s.perform op).2 := by
  rcases s.perform_cases op with h | h
  · rw [h]
    exact ⟨rfl, fun k => .inl rfl⟩
  · generalize (s.perform op).2 = s' at h
    cases h with
    | lookup hl => exact lookup_arraysAdded hs hl
    | registerBuiltins hq => exact absurd (hp.symm.trans hq) (by decide)
    | registerAlias hq => exact absurd (hp.symm.trans hq) (by decide)
    | beginDeclarations hq => exact absurd (hp.symm.trans hq) (by decide)
    | freeze hq => exact absurd (hp.symm.trans hq) (by decide)
    | registerType hq => exact absurd (hp.symm.trans hq) (by decide)
    | register hq => exact absurd (hp.symm.trans hq) (by decide)
    | registerDelegate hq => exact absurd (hp.symm.trans hq) (by decide)

/-! ### The law -/

/-- What an operation on symbols can do and cannot. -/
structure Lawful (s : Symbols) (op : Operation) : Prop where
  /-- An operation that fails leaves everything as it was. -/
  failed : ∀ f, (s.perform op).1 = .error f → (s.perform op).2 = s
  phases : (s.perform op).2.phase = s.phase ∨ (s.phase = .builtins ∧ (s.perform op).2.phase = .declare) ∨
    (s.phase = .declare ∧ (s.perform op).2.phase = .generate)
  /-- A type that is found is found again, where it was, after whatever else is done. -/
  lasting : s.phase ≠ .builtins → ∀ name t, op = .lookup name → (s.perform op).1 = .ok (some t) → ∀ more,
    ((s.perform op).2.run more).perform (.lookup name) = (.ok (some t), (s.perform op).2.run more)
  frozen : s.phase = .generate → s.ArraysAdded (s.perform op).2

/-- Every operation keeps to the law, whatever was done before. -/
theorem history_lawful (ops : List Operation) (op : Operation) : (after ops).Lawful op where
  failed _ h := perform_error h
  phases := perform_phase _ op
  lasting hp name t hop h more := by
    subst hop
    have hkeeps := run_keeps more (perform_declaring (.lookup name) hp)
    exact perform_lookup_of_entered (hkeeps.entered? (entered_of_perform h))
  frozen hp := perform_arraysAdded (after_aliased ops) hp op

end Symbols
end CilCompiler
