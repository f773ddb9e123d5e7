import CilCompiler.Module.Listing
import CilCompiler.Proofs.Listing
import CilCompiler.Proofs.Symbols
import Mathlib.Data.List.TakeWhile

/-! References in a listing. The text of a type is read from its front: its first word is a keyword or `class`, a name
    goes on as long as there are characters of names, and brackets for arrays follow. So a type in a signature shows
    its name, whatever stands behind it (`typeRef_append_inj`), and so does one in front of a member
    (`qualified_append_inj`); part by part, the text of a member shows its owner, its name and its parameters
    (`memberRef_inj`, `fieldRef_inj`). An operand is shown in another form, in which one name looks like another: a
    declared type `int32` is written like the keyword for `System.Int32` (`typeSpec_inj`). -/

namespace CilCompiler

/-! ### Words -/

namespace Text

/-- A byte that a name can start with: that of a letter or an underscore, or one of a letter outside ASCII. -/
def isWordStart (b : UInt8) : Bool := (65 ≤ b && b ≤ 90) || (97 ≤ b && b ≤ 122) || b == 95 || 128 ≤ b

/-- A byte that a name can go on with: digits and dots as well. -/
def isWordByte (b : UInt8) : Bool := isWordStart b || (48 ≤ b && b ≤ 57) || b == 46

/-- Letters, digits, underscores and dots that start with a letter or an underscore. -/
def isIdentifier (t : Text) : Bool :=
  match t.bytes with
  | [] => false
  | b :: bs => isWordStart b && bs.all isWordByte

/-- The part of a text before the first byte that no name has. -/
def lead (bs : List UInt8) : List UInt8 := bs.takeWhile isWordByte

/-- Whether a name in front of these bytes ends there. -/
def ends (bs : List UInt8) : Bool := bs.head?.all fun b => !isWordByte b

theorem bytes_append (a b : Text) : (a ++ b).bytes = a.bytes ++ b.bytes := rfl

theorem bytes_inj {a b : Text} : a.bytes = b.bytes ↔ a = b := ⟨congrArg Text.mk, congrArg Text.bytes⟩

theorem isIdentifier_cons {t : Text} (h : t.isIdentifier = true) :
    ∃ b bs, t.bytes = b :: bs ∧ isWordStart b = true ∧ bs.all isWordByte = true := by
  unfold isIdentifier at h
  split at h
  · cases h
  · rename_i b bs hb
    exact ⟨b, bs, hb, Bool.and_eq_true_iff.mp h⟩

theorem all_of_isIdentifier {t : Text} (h : t.isIdentifier = true) : t.bytes.all isWordByte = true := by
  obtain ⟨b, bs, hb, hstart, hrest⟩ := isIdentifier_cons h
  rw [hb, List.all_cons, hrest, isWordByte, hstart]
  rfl

theorem takeWhile_of_ends {r : List UInt8} (hr : ends r = true) : r.takeWhile isWordByte = [] := by
  cases r with
  | nil => rfl
  | cons b r =>
    have hb : isWordByte b = false := by simpa [ends] using hr
    exact List.takeWhile_cons_of_neg (by simp [hb])

theorem lead_append {bs r : List UInt8} (hr : ends r = true) : lead (bs ++ r) = lead bs := by
  induction bs with
  | nil => exact takeWhile_of_ends hr
  | cons b bs ih =>
    cases hb : isWordByte b with
    | true =>
      rw [lead, lead, List.cons_append, List.takeWhile_cons_of_pos hb, List.takeWhile_cons_of_pos hb, ← lead, ih, lead]
    | false =>
      rw [lead, lead, List.cons_append, List.takeWhile_cons_of_neg (by simp [hb]),
          List.takeWhile_cons_of_neg (by simp [hb])]

/-- A word is told from what stands behind it. -/
theorem word_append_inj {a b r s : List UInt8} (ha : a.all isWordByte = true) (hb : b.all isWordByte = true)
    (hr : ends r = true)
    (hs : ends s = true) (h : a ++ r = b ++ s) : a = b ∧ r = s := by
  have whole : ∀ {bs : List UInt8}, bs.all isWordByte = true → lead bs = bs := fun hbs =>
    List.takeWhile_eq_self_iff.mpr (List.all_eq_true.mp hbs)
  have hab : a = b := by rw [← whole ha, ← whole hb, ← lead_append hr, h, lead_append hs]
  exact ⟨hab, List.append_cancel_left (hab ▸ h)⟩

/-- Whether neither a name nor the brackets of an array go on with these bytes. -/
def closes (bs : List UInt8) : Bool := bs.head?.all fun b => !isWordByte b && b != 91

theorem ends_of_closes {r : List UInt8} (h : closes r = true) : ends r = true := by
  cases r with
  | nil => rfl
  | cons b r => exact (Bool.and_eq_true_iff.mp h).1

end Text

open Text

/-! ### Arrays -/

namespace Ty

/-- The type at the bottom of an array of any depth. -/
def core : Ty → Ty
  | .array e => e.core
  | t => t

/-- How many times a type is an array. -/
def rank : Ty → Nat
  | .array e => e.rank + 1
  | _ => 0

theorem declared_core (t : Ty) : t.core.declared = t.declared := by
  induction t with
  | array e ih => exact ih
  | root d | derived d b => rfl

theorem core_of_plain {t : Ty} (h : t.isArray = false) : t.core = t ∧ t.rank = 0 ∧ t.name = t.declared.name := by
  cases t with
  | array e => cases h
  | root d | derived d b => exact ⟨rfl, rfl, rfl⟩

/-- A type is determined by the type at its bottom and its depth. -/
theorem ext_core {t u : Ty} (hc : t.core = u.core) (hr : t.rank = u.rank) : t = u := by
  induction t generalizing u with
  | array e ih =>
    cases u with
    | array f =>
      rw [ih (u := f) hc (Nat.succ.inj hr)]
    | root d | derived d b => cases hr
  | root d | derived d b =>
    cases u with
    | array f => cases hr
    | root d | derived d b => exact hc

/-- The brackets of an array of some depth. -/
def brackets (n : Nat) : List UInt8 := (List.replicate n TypeName.arrayEnding.bytes).flatten

theorem brackets_succ (n : Nat) : brackets (n + 1) = brackets n ++ TypeName.arrayEnding.bytes := by
  rw [brackets, List.replicate_succ', List.flatten_append, brackets]
  simp

theorem ends_brackets {r : List UInt8} (hr : ends r = true) (n : Nat) : ends (brackets n ++ r) = true := by
  cases n with
  | zero => exact hr
  | succ n => rfl

/-- Brackets are told from what stands behind them. -/
theorem brackets_append_inj {n k : Nat} {r s : List UInt8} (hr : closes r = true) (hs : closes s = true)
    (h : brackets n ++ r = brackets k ++ s) : n = k ∧ r = s := by
  have open_ : ∀ (n : Nat) (r : List UInt8), brackets (n + 1) ++ r = 91 :: 93 :: (brackets n ++ r) := fun n r => rfl
  induction n generalizing k with
  | zero =>
    cases k with
    | zero => exact ⟨rfl, h⟩
    | succ k =>
      have h : r = brackets (k + 1) ++ s := h
      rw [h, open_] at hr
      cases hr
  | succ n ih =>
    cases k with
    | zero =>
      have h : brackets (n + 1) ++ r = s := h
      rw [← h, open_] at hs
      cases hs
    | succ k =>
      rw [open_, open_] at h
      obtain ⟨hn, hrs⟩ := ih (List.cons.inj (List.cons.inj h).2).2
      exact ⟨congrArg _ hn, hrs⟩

theorem name_bytes (t : Ty) : t.name.bytes = t.declared.name.bytes ++ brackets t.rank := by
  induction t with
  | array e ih =>
    show e.name.bytes ++ TypeName.arrayEnding.bytes = _
    rw [ih, rank, brackets_succ, List.append_assoc]
    rfl
  | root d | derived d b => exact (List.append_nil _).symm

end Ty

namespace Module

/-! ### Declared types -/

/-- What the text of a type in a listing of `m` relies on: its name is an identifier, it belongs to the module or to
    the assembly `host`, and it is a value only where there is a keyword for it. -/
structure Spells (m : Module) (host : Text) (d : Declared) : Prop where
  name : d.name.isIdentifier = true
  assembly : d.assembly = m.name ∨ d.assembly = host
  keyword : d.isValue = true → (keyword? d.name).isSome = true

variable {m : Module} {host : Text} {d e : Declared} {t u : Ty} {r s : List UInt8}

/-- The assembly in front of a type's name, when that is another. -/
def home (m : Module) (d : Declared) : List UInt8 :=
  if d.assembly.isEmpty ∨ d.assembly = m.name then [] else 91 :: (d.assembly.bytes ++ [93])

theorem home_cases (h : m.Spells host d) : m.home d = [] ∨ m.home d = 91 :: (host.bytes ++ [93]) := by
  unfold home
  split
  · exact .inl rfl
  · rename_i hne
    rcases h.assembly with ha | ha
    · exact absurd (.inr ha) hne
    · exact .inr (by rw [ha])

theorem qualified_bytes (m : Module) (ht : t.isArray = false) :
    (m.qualified t).bytes = m.home t.declared ++ t.declared.name.bytes := by
  have hname := (Ty.core_of_plain ht).2.2
  unfold qualified home Ty.assembly
  split
  · rw [hname]
    rfl
  · rw [hname]
    simp only [join, List.flatMap_cons, List.flatMap_nil, List.append_nil, List.cons_append, List.append_assoc]
    rfl

/-- A bracket starts no name. -/
theorem name_ne_bracket (h : m.Spells host d) {x y : List UInt8} : d.name.bytes ++ x ≠ 91 :: y := by
  obtain ⟨b, bs, hb, hstart, -⟩ := isIdentifier_cons h.name
  rw [hb]
  rintro hxy
  obtain ⟨rfl, -⟩ := List.cons.inj hxy
  cases hstart

theorem home_append_inj (hd : m.Spells host d) (he : m.Spells host e) (hr : ends r = true) (hs : ends s = true)
    (h : m.home d ++ d.name.bytes ++ r = m.home e ++ e.name.bytes ++ s) : d.name = e.name ∧ r = s := by
  have names : d.name.bytes ++ r = e.name.bytes ++ s → d.name = e.name ∧ r = s := fun h => by
    obtain ⟨hn, hrs⟩ := word_append_inj (all_of_isIdentifier hd.name) (all_of_isIdentifier he.name) hr hs h
    exact ⟨bytes_inj.mp hn, hrs⟩
  simp only [List.append_assoc] at h
  rcases home_cases hd with h1 | h1 <;> rcases home_cases he with h2 | h2 <;> rw [h1, h2] at h
  · exact names h
  · exact absurd h (name_ne_bracket hd)
  · exact absurd h.symm (name_ne_bracket he)
  · exact names (List.append_cancel_left h)

/-- A type in front of a member shows its name. -/
theorem qualified_append_inj (ht : m.Spells host t.declared) (hu : m.Spells host u.declared) (hta : t.isArray = false)
    (hua : u.isArray = false) (hr : ends r = true) (hs : ends s = true)
    (h : (m.qualified t).bytes ++ r = (m.qualified u).bytes ++ s) : t.name = u.name ∧ r = s := by
  rw [qualified_bytes m hta, qualified_bytes m hua] at h
  rw [(Ty.core_of_plain hta).2.2, (Ty.core_of_plain hua).2.2]
  exact home_append_inj ht hu hr hs h

/-! ### Types in signatures -/

/-- The names that there are words for, with the words. -/
def keywordTable : List (Text × Text) := [(TypeName.object, "object"), (TypeName.void, "void"), (TypeName.int32, "int32"),
  (TypeName.string, "string"), (TypeName.intPtr, "native int"), (TypeName.boolean, "bool")]

theorem keyword?_mem {n k : Text} (h : keyword? n = some k) : (n, k) ∈ keywordTable := by
  unfold keyword? at h
  repeat' split at h
  all_goals cases h
  all_goals (subst_vars; decide)

theorem keyword?_inj {n n' k : Text} (h : keyword? n = some k) (h' : keyword? n' = some k) : n = n' := by
  have apart : ∀ x ∈ keywordTable, ∀ y ∈ keywordTable, x.2 = y.2 → x.1 = y.1 := by decide
  exact apart _ (keyword?_mem h) _ (keyword?_mem h') rfl

/-- The word for a type that is no array. -/
def coreText (m : Module) (d : Declared) : List UInt8 :=
  match keyword? d.name with
  | some k => k.bytes
  | none => ("class " : Text).bytes ++ (m.home d ++ d.name.bytes)

theorem typeRef_plain (ht : t.isArray = false) (h : m.Spells host t.declared) :
    (m.typeRef t).bytes = m.coreText t.declared := by
  have hq := qualified_bytes m ht
  have hvalue : keyword? t.declared.name = none → t.isValue = false := by
    intro hk
    rw [Bool.eq_false_iff]
    intro hv
    have hv : t.declared.isValue = true := by
      cases t with
      | array e => cases ht
      | root d | derived d b => exact hv
    have hsome := h.keyword hv
    rw [hk] at hsome
    cases hsome
  have hname := (Ty.core_of_plain ht).2.2
  unfold coreText
  cases t with
  | array e => cases ht
  | root d | derived d b =>
    unfold typeRef
    rw [hname]
    cases hk : keyword? (Ty.declared _).name with
    | some k => rfl
    | none =>
      dsimp only
      rw [hvalue hk, bytes_append, hq]
      rfl

/-- A type in a signature: the word for the type at its bottom, and brackets. -/
theorem typeRef_bytes (h : m.Spells host t.declared) :
    (m.typeRef t).bytes = m.coreText t.declared ++ Ty.brackets t.rank := by
  induction t with
  | array e ih =>
    rw [typeRef, bytes_append, ih h, Ty.rank, Ty.brackets_succ, List.append_assoc]
    rfl
  | root d | derived d b =>
    rw [typeRef_plain rfl h]
    exact (List.append_nil _).symm

/-- The first word of a type. -/
theorem lead_coreText (m : Module) (d : Declared) (hr : ends r = true) :
    lead (m.coreText d ++ r) = match keyword? d.name with
      | some k => lead k.bytes
      | none => ("class" : Text).bytes := by
  unfold coreText
  cases keyword? d.name with
  | some k => exact lead_append hr
  | none =>
    have hsplit : ("class " : Text).bytes ++ (m.home d ++ d.name.bytes) ++ r =
        ("class" : Text).bytes ++ (32 :: (m.home d ++ d.name.bytes ++ r)) := by
      have hclass : ("class " : Text).bytes = ("class" : Text).bytes ++ [32] := by decide
      rw [hclass]
      simp
    dsimp only
    rw [hsplit, lead_append rfl]
    decide

theorem coreText_append_inj (hd : m.Spells host d) (he : m.Spells host e) (hr : ends r = true) (hs : ends s = true)
    (h : m.coreText d ++ r = m.coreText e ++ s) : d.name = e.name ∧ r = s := by
  have apart : ∀ x ∈ keywordTable, lead x.2.bytes ≠ ("class" : Text).bytes ∧
      ∀ y ∈ keywordTable, lead x.2.bytes = lead y.2.bytes → x.2 = y.2 := by decide
  have hlead := (lead_coreText m d hr).symm.trans ((congrArg lead h).trans (lead_coreText m e hs))
  unfold coreText at h
  cases hk : keyword? d.name with
  | some k =>
    cases hk' : keyword? e.name with
    | some k' =>
      rw [hk, hk'] at hlead h
      obtain rfl : k = k' := (apart _ (keyword?_mem hk)).2 _ (keyword?_mem hk') hlead
      exact ⟨keyword?_inj hk hk', List.append_cancel_left h⟩
    | none =>
      rw [hk, hk'] at hlead
      exact absurd hlead (apart _ (keyword?_mem hk)).1
  | none =>
    cases hk' : keyword? e.name with
    | some k' =>
      rw [hk, hk'] at hlead
      exact absurd hlead.symm (apart _ (keyword?_mem hk')).1
    | none =>
      rw [hk, hk'] at h
      dsimp only at h
      rw [List.append_assoc _ (m.home d ++ d.name.bytes) r, List.append_assoc _ (m.home e ++ e.name.bytes) s] at h
      exact home_append_inj hd he hr hs (List.append_cancel_left h)

theorem name_eq_of_core (hn : t.declared.name = u.declared.name) (hr : t.rank = u.rank) : t.name = u.name := by
  rw [← bytes_inj, Ty.name_bytes, Ty.name_bytes, hn, hr]

/-- A type in a signature shows its name. -/
theorem typeRef_append_inj (ht : m.Spells host t.declared) (hu : m.Spells host u.declared) (hr : closes r = true)
    (hs : closes s = true)
    (h : (m.typeRef t).bytes ++ r = (m.typeRef u).bytes ++ s) :
    t.declared.name = u.declared.name ∧ t.rank = u.rank ∧ r = s := by
  rw [typeRef_bytes ht, typeRef_bytes hu, List.append_assoc, List.append_assoc] at h
  obtain ⟨hn, hrest⟩ :=
    coreText_append_inj ht hu (Ty.ends_brackets (ends_of_closes hr) _) (Ty.ends_brackets (ends_of_closes hs) _) h
  obtain ⟨hrank, hrs⟩ := Ty.brackets_append_inj hr hs hrest
  exact ⟨hn, hrank, hrs⟩

/-! ### Types as operands -/

theorem keyword?_array (n : Text) : keyword? (TypeName.array n) = none := by
  have plain : ∀ x ∈ keywordTable, x.1.bytes.getLast? ≠ some 93 := by decide
  cases hk : keyword? (TypeName.array n) with
  | none => rfl
  | some k =>
    refine absurd ?_ (plain _ (keyword?_mem hk))
    show (n.bytes ++ TypeName.arrayEnding.bytes).getLast? = some 93
    rw [List.getLast?_append]
    rfl

/-- An operand: an array is shown as in a signature, another type by its keyword or its name. -/
theorem typeSpec_bytes (h : m.Spells host t.declared) : (m.typeSpec t).bytes =
    if t.isArray then m.coreText t.declared ++ Ty.brackets t.rank
    else match keyword? t.declared.name with
      | some k => k.bytes
      | none => m.home t.declared ++ t.declared.name.bytes := by
  have href := typeRef_bytes h
  unfold typeSpec
  cases ht : t.isArray with
  | true =>
    have hk : keyword? t.name = none := by
      cases t with
      | array e => exact keyword?_array e.name
      | root d | derived d b => cases ht
    rw [hk]
    exact href
  | false =>
    rw [(Ty.core_of_plain ht).2.2]
    cases keyword? t.declared.name with
    | some k => rfl
    | none => exact qualified_bytes m ht

/-- The name of an array ends in a bracket, and no other name or keyword does. -/
theorem typeSpec_getLast? (h : m.Spells host t.declared) : (m.typeSpec t).bytes.getLast? = some 93 ↔ t.isArray = true := by
  rw [typeSpec_bytes h]
  cases ht : t.isArray with
  | true =>
    obtain ⟨n, hn⟩ : ∃ n, t.rank = n + 1 := by
      cases t with
      | array e => exact ⟨e.rank, rfl⟩
      | root d | derived d b => cases ht
    rw [if_pos rfl, hn, Ty.brackets_succ, ← List.append_assoc, List.getLast?_append]
    exact ⟨fun _ => rfl, fun _ => rfl⟩
  | false =>
    have plain : ∀ x ∈ keywordTable, x.2.bytes.getLast? ≠ some 93 := by decide
    rw [if_neg Bool.false_ne_true]
    refine ⟨fun hlast => ?_, fun hf => by cases hf⟩
    cases hk : keyword? t.declared.name with
    | some k =>
      rw [hk] at hlast
      exact absurd hlast (plain _ (keyword?_mem hk))
    | none =>
      rw [hk] at hlast
      dsimp only at hlast
      obtain ⟨b, bs, hb, -⟩ := isIdentifier_cons h.name
      have hmem : (93 : UInt8) ∈ t.declared.name.bytes := by
        rw [List.getLast?_append, hb] at hlast
        rw [hb]
        exact List.mem_of_getLast? (by simpa using hlast)
      exact absurd (List.all_eq_true.mp (all_of_isIdentifier h.name) _ hmem) (by decide)

/-- An operand shows the name of a type, unless the name of a declared type looks like the keyword of another. -/
theorem typeSpec_inj (ht : m.Spells host t.declared) (hu : m.Spells host u.declared) (h : m.typeSpec t = m.typeSpec u) :
    (t.declared.name = u.declared.name ∧ t.rank = u.rank) ∨
    (t.isArray = false ∧ u.isArray = false ∧
      (keyword? t.declared.name = some u.declared.name ∨ keyword? u.declared.name = some t.declared.name)) := by
  -- A keyword is no name with an assembly in front.
  have bare : ∀ {d e : Declared} {k : Text}, m.Spells host e → keyword? d.name = some k →
      k.bytes = m.home e ++ e.name.bytes →
      keyword? d.name = some e.name := by
    intro d e k he hk hbytes
    have plain : ∀ x ∈ keywordTable, x.2.bytes.head? ≠ some 91 := by decide
    rcases home_cases he with hhome | hhome <;> rw [hhome] at hbytes
    · exact hk.trans (congrArg some (bytes_inj.mp hbytes))
    · exact absurd (congrArg List.head? hbytes) (plain _ (keyword?_mem hk))
  have harray : t.isArray = u.isArray := by
    rw [Bool.eq_iff_iff, ← typeSpec_getLast? ht, ← typeSpec_getLast? hu, h]
  have hbytes := congrArg Text.bytes h
  rw [typeSpec_bytes ht, typeSpec_bytes hu, ← harray] at hbytes
  cases hta : t.isArray with
  | true =>
    rw [hta, if_pos rfl, if_pos rfl, ← typeRef_bytes ht, ← typeRef_bytes hu] at hbytes
    obtain ⟨hn, hr, -⟩ := typeRef_append_inj ht hu (r := []) (s := []) rfl rfl (by rw [hbytes])
    exact .inl ⟨hn, hr⟩
  | false =>
    rw [hta, if_neg Bool.false_ne_true, if_neg Bool.false_ne_true] at hbytes
    have hua : u.isArray = false := harray ▸ hta
    have hrank : t.rank = u.rank := (Ty.core_of_plain hta).2.1.trans (Ty.core_of_plain hua).2.1.symm
    cases hk : keyword? t.declared.name with
    | some k =>
      cases hk' : keyword? u.declared.name with
      | some k' =>
        rw [hk, hk'] at hbytes
        exact .inl ⟨keyword?_inj hk (bytes_inj.mp hbytes ▸ hk'), hrank⟩
      | none =>
        rw [hk, hk'] at hbytes
        exact .inr ⟨rfl, hua, .inl (hk ▸ bare hu hk hbytes)⟩
    | none =>
      cases hk' : keyword? u.declared.name with
      | some k' =>
        rw [hk, hk'] at hbytes
        exact .inr ⟨rfl, hua, .inr (hk' ▸ bare ht hk' hbytes.symm)⟩
      | none =>
        rw [hk, hk'] at hbytes
        exact .inl ⟨(home_append_inj ht hu (r := []) (s := []) rfl rfl (by simpa using hbytes)).1, hrank⟩

/-! ### Lists of parameters -/

variable {ps qs : List (Option Ty)}

/-- A type that a listing shows. -/
def Spelt (m : Module) (host : Text) (p : Option Ty) : Prop := ∃ t, p = some t ∧ m.Spells host t.declared

theorem optTypeRef_append_inj {p q : Option Ty} (hp : m.Spelt host p) (hq : m.Spelt host q) (hr : closes r = true)
    (hs : closes s = true)
    (h : (m.optTypeRef p).bytes ++ r = (m.optTypeRef q).bytes ++ s) : p.map Ty.name = q.map Ty.name ∧ r = s := by
  obtain ⟨t, rfl, ht⟩ := hp
  obtain ⟨u, rfl, hu⟩ := hq
  obtain ⟨hn, hrank, hrs⟩ := typeRef_append_inj ht hu hr hs h
  exact ⟨congrArg some (name_eq_of_core hn hrank), hrs⟩

/-- What the first word of a type in a signature can be. -/
def typeWords : List (List UInt8) := ("class" : Text).bytes :: keywordTable.map fun x => lead x.2.bytes

theorem lead_optTypeRef {p : Option Ty} (hp : m.Spelt host p) (hr : closes r = true) :
    lead ((m.optTypeRef p).bytes ++ r) ∈ typeWords := by
  obtain ⟨t, rfl, ht⟩ := hp
  show lead ((m.typeRef t).bytes ++ r) ∈ typeWords
  rw [typeRef_bytes ht, List.append_assoc, lead_coreText m t.declared (Ty.ends_brackets (ends_of_closes hr) _)]
  split
  · exact List.mem_cons_of_mem _ (List.mem_map_of_mem (keyword?_mem ‹_›))
  · exact List.mem_cons_self

/-- The parameters behind the first one. -/
def furtherTypes (m : Module) (ps : List (Option Ty)) : List UInt8 := ps.flatMap fun p => 44 :: 32 :: (m.optTypeRef p).bytes

theorem paramTypes_cons (m : Module) (p : Option Ty) (ps : List (Option Ty)) :
    (m.paramTypes (p :: ps)).bytes = (m.optTypeRef p).bytes ++ m.furtherTypes ps := by
  induction ps generalizing p with
  | nil => simp [paramTypes, sepBy, join, furtherTypes]
  | cons q ps ih =>
    have hstep : (m.paramTypes (p :: q :: ps)).bytes = (m.optTypeRef p).bytes ++
        44 :: 32 :: (m.paramTypes (q :: ps)).bytes := by
      simp [paramTypes, sepBy, join, show (", " : Text).bytes = [44, 32] from by decide]
    rw [hstep, ih]
    simp [furtherTypes]

theorem closes_furtherTypes (m : Module) (ps : List (Option Ty)) (r : List UInt8) :
    closes (m.furtherTypes ps ++ 41 :: r) = true := by
  cases ps <;> rfl

theorem furtherTypes_append_inj (hps : ∀ p ∈ ps, m.Spelt host p) (hqs : ∀ q ∈ qs, m.Spelt host q)
    (h : m.furtherTypes ps ++ 41 :: r = m.furtherTypes qs ++ 41 :: s) :
      ps.map (Option.map Ty.name) = qs.map (Option.map Ty.name) := by
  induction ps generalizing qs with
  | nil =>
    cases qs with
    | nil => rfl
    | cons q qs =>
      obtain ⟨hhead, -⟩ := List.cons.inj h
      cases hhead
  | cons p ps ih =>
    cases qs with
    | nil =>
      obtain ⟨hhead, -⟩ := List.cons.inj h
      cases hhead
    | cons q qs =>
      simp only [furtherTypes, List.flatMap_cons, List.cons_append, List.append_assoc, List.cons.injEq, true_and] at h
      obtain ⟨hpq, hrest⟩ :=
        optTypeRef_append_inj (hps p List.mem_cons_self) (hqs q List.mem_cons_self) (closes_furtherTypes m ps r)
        (closes_furtherTypes m qs s) h
      rw [List.map_cons, List.map_cons, hpq,
          ih (fun x hx => hps x (List.mem_cons_of_mem _ hx)) (fun x hx => hqs x (List.mem_cons_of_mem _ hx))
        hrest]

/-- A list of parameters shows their names. -/
theorem paramTypes_append_inj (hps : ∀ p ∈ ps, m.Spelt host p) (hqs : ∀ q ∈ qs, m.Spelt host q)
    (h : (m.paramTypes ps).bytes ++ 41 :: r = (m.paramTypes qs).bytes ++ 41 :: s) :
    ps.map (Option.map Ty.name) = qs.map (Option.map Ty.name) := by
  have some_word : ∀ w ∈ typeWords, w ≠ [] := by decide
  -- A parameter begins with a word, and the bracket behind the last one does not.
  have empty : ∀ {q : Option Ty} {qs : List (Option Ty)} {r s : List UInt8}, m.Spelt host q →
      41 :: r = (m.paramTypes (q :: qs)).bytes ++ 41 :: s → False := by
    intro q qs r s hq h
    rw [paramTypes_cons, List.append_assoc] at h
    exact some_word _ (lead_optTypeRef hq (closes_furtherTypes m qs s)) (congrArg lead h).symm
  cases ps with
  | nil =>
    cases qs with
    | nil => rfl
    | cons q qs => exact (empty (hqs q List.mem_cons_self) h).elim
  | cons p ps =>
    cases qs with
    | nil => exact (empty (hps p List.mem_cons_self) h.symm).elim
    | cons q qs =>
      rw [paramTypes_cons, paramTypes_cons, List.append_assoc, List.append_assoc] at h
      obtain ⟨hpq, hrest⟩ :=
        optTypeRef_append_inj (hps p List.mem_cons_self) (hqs q List.mem_cons_self) (closes_furtherTypes m ps r)
        (closes_furtherTypes m qs s) h
      rw [List.map_cons, List.map_cons, hpq, furtherTypes_append_inj (fun x hx => hps x (List.mem_cons_of_mem _ hx))
        (fun x hx => hqs x (List.mem_cons_of_mem _ hx)) hrest]

/-! ### Members -/

/-- What the text of a method or constructor relies on. -/
structure SpellsMethod (m : Module) (host : Text) (r : Method) : Prop where
  owner : m.Spells host r.owner.declared
  plain : r.owner.isArray = false
  ret : m.Spelt host r.ret
  params : ∀ p ∈ r.params, m.Spelt host p
  name : r.name.bytes.all isWordByte = true

/-- What the text of a field relies on. -/
structure SpellsField (m : Module) (host : Text) (f : Field) : Prop where
  owner : m.Spells host f.owner.declared
  plain : f.owner.isArray = false
  type : m.Spelt host f.type

variable {f g : Field} {x y : Method}

/-- A member behind its type and its owner: with the type, the owner's name shows. -/
theorem owned_append_inj {p q : Option Ty} {t u : Ty} (hp : m.Spelt host p) (hq : m.Spelt host q)
    (ht : m.Spells host t.declared)
    (hu : m.Spells host u.declared) (hta : t.isArray = false) (hua : u.isArray = false)
    (h : (m.optTypeRef p).bytes ++ 32 :: ((m.ownerRef t).bytes ++ 58 :: 58 :: r) =
      (m.optTypeRef q).bytes ++ 32 :: ((m.ownerRef u).bytes ++ 58 :: 58 :: s)) : t.name = u.name ∧ r = s := by
  obtain ⟨-, hrest⟩ := optTypeRef_append_inj hp hq rfl rfl h
  rw [ownerRef, ownerRef, hta, hua] at hrest
  obtain ⟨hn, hrest⟩ := qualified_append_inj ht hu hta hua rfl rfl (List.cons.inj hrest).2
  exact ⟨hn, (List.cons.inj (List.cons.inj hrest).2).2⟩

/-- A field's text shows its owner and its name. -/
theorem fieldRef_inj (hf : m.SpellsField host f) (hg : m.SpellsField host g) (h : m.fieldRef f = m.fieldRef g) :
    f.owner.name = g.owner.name ∧ f.name = g.name := by
  have bytes (f : Field) : (m.fieldRef f).bytes = (m.optTypeRef f.type).bytes ++
      32 :: ((m.ownerRef f.owner).bytes ++ 58 :: 58 :: f.name.bytes) := by
    simp [fieldRef, join, show (" " : Text).bytes = [32] from by decide,
      show ("::" : Text).bytes = [58, 58] from by decide]
  have h := congrArg Text.bytes h
  rw [bytes, bytes] at h
  obtain ⟨ho, hn⟩ := owned_append_inj hf.type hg.type hf.owner hg.owner hf.plain hg.plain h
  exact ⟨ho, bytes_inj.mp hn⟩

/-- A method behind the mark of those that are called on objects. -/
def signatureText (m : Module) (x : Method) : List UInt8 :=
  (m.optTypeRef x.ret).bytes ++
    32 :: ((m.ownerRef x.owner).bytes ++ 58 :: 58 :: (x.name.bytes ++ 40 :: ((m.paramTypes x.params).bytes ++ [41])))

theorem methodRef_bytes (m : Module) (x : Method) :
    (m.methodRef x).bytes = (if x.isStatic then [] else ("instance " : Text).bytes) ++ m.signatureText x := by
  have hempty : ("" : Text).bytes = [] := by decide
  cases hx : x.isStatic <;>
  simp [methodRef, signatureText, join, hx, hempty, show (" " : Text).bytes = [32] from by decide,
    show ("::" : Text).bytes = [58, 58] from by decide, show ("(" : Text).bytes = [40] from by decide,
    show (")" : Text).bytes = [41] from by decide]

/-- The mark is no type. -/
theorem signatureText_ne_instance (hx : m.SpellsMethod host x) : m.signatureText x ≠ ("instance " : Text).bytes ++ r := by
  have other : ∀ w ∈ typeWords, w ≠ ("instance" : Text).bytes := by decide
  have hmark : ("instance " : Text).bytes ++ r = ("instance" : Text).bytes ++ 32 :: r := by
    have hsplit : ("instance " : Text).bytes = ("instance" : Text).bytes ++ [32] := by decide
    rw [hsplit, List.append_assoc]
    rfl
  intro h
  rw [hmark] at h
  have hlead := congrArg lead h
  rw [lead_append (r := 32 :: r) rfl] at hlead
  refine other _ (lead_optTypeRef hx.ret (r := 32 :: ((m.ownerRef x.owner).bytes ++ 58 :: 58 :: (x.name.bytes ++ 40 ::
    ((m.paramTypes x.params).bytes ++ [41])))) rfl) (hlead.trans ?_)
  decide

/-- A method's text shows its owner, its name, its parameters, and whether it is static. -/
theorem methodRef_inj (hx : m.SpellsMethod host x) (hy : m.SpellsMethod host y) (h : m.methodRef x = m.methodRef y) :
    x.owner.name = y.owner.name ∧ x.name = y.name ∧ x.isStatic = y.isStatic ∧ Ty.sameList x.params y.params = true := by
  have signature : m.signatureText x = m.signatureText y →
      x.owner.name = y.owner.name ∧ x.name = y.name ∧ Ty.sameList x.params y.params = true := by
    intro h
    obtain ⟨ho, hrest⟩ := owned_append_inj hx.ret hy.ret hx.owner hy.owner hx.plain hy.plain h
    obtain ⟨hn, hrest⟩ := word_append_inj hx.name hy.name rfl rfl hrest
    have hparams := paramTypes_append_inj (r := []) (s := []) hx.params hy.params (List.cons.inj hrest).2
    exact ⟨ho, bytes_inj.mp hn, Ty.sameList_iff.mpr hparams⟩
  have h := congrArg Text.bytes h
  rw [methodRef_bytes, methodRef_bytes] at h
  cases hsx : x.isStatic <;> cases hsy : y.isStatic <;> rw [hsx, hsy] at h
  · obtain ⟨ho, hn, hp⟩ := signature (List.append_cancel_left h)
    exact ⟨ho, hn, rfl, hp⟩
  · exact absurd h.symm (signatureText_ne_instance hy)
  · exact absurd h (signatureText_ne_instance hx)
  · obtain ⟨ho, hn, hp⟩ := signature h
    exact ⟨ho, hn, rfl, hp⟩

/-- A method or constructor as an operand. -/
def memberRef (m : Module) (x : Method) : Text := if x.isCtor then m.ctorRef x else m.methodRef x

/-- What the text of a method or constructor relies on. A constructor is shown without its name and its result. -/
structure SpellsMember (m : Module) (host : Text) (x : Method) : Prop where
  owner : m.Spells host x.owner.declared
  plain : x.owner.isArray = false
  params : ∀ p ∈ x.params, m.Spelt host p
  ret : x.isCtor = false → m.Spelt host x.ret
  name : x.isCtor = false → x.name.isIdentifier = true

/-- The method that has the text of a member: a constructor is shown like a method without a result. -/
def asMethod (m : Module) (x : Method) : Method :=
  if x.isCtor then
    { x with
      name := Method.ctorName
      attrs := ⟨0⟩
      ret := some (.root { module := 0, index := 0, assembly := m.name, name := TypeName.void, isValue := false }) }
  else x

theorem memberRef_eq (m : Module) (x : Method) : m.memberRef x = m.methodRef (m.asMethod x) := by
  unfold memberRef asMethod
  split
  · have hsplit : ("instance void " : Text).bytes = ("instance " : Text).bytes ++ (("void" : Text).bytes ++ [32]) :=
      by decide
    have hstatic : MethodAttributes.isStatic ⟨0⟩ = false := by decide
    rw [← bytes_inj, methodRef_bytes, Method.isStatic, hstatic, if_neg Bool.false_ne_true, signatureText]
    simp [ctorRef, join, hsplit, optTypeRef, typeRef, keyword?, Ty.name, show TypeName.void ≠ TypeName.object by decide,
      show ("::" : Text).bytes = [58, 58] from by decide, show ("(" : Text).bytes = [40] from by decide,
      show (")" : Text).bytes = [41] from by decide]
  · rfl

theorem SpellsMember.asMethod (h : m.SpellsMember host x) : m.SpellsMethod host (m.asMethod x) := by
  unfold Module.asMethod
  split
  · refine ⟨h.owner, h.plain, ⟨_, rfl, ?_, .inl rfl, fun hv => nomatch hv⟩, h.params, ?_⟩
    · show TypeName.void.isIdentifier = true
      decide
    · show Method.ctorName.bytes.all isWordByte = true
      decide
  · rename_i hc
    rw [Bool.not_eq_true] at hc
    exact ⟨h.owner, h.plain, h.ret hc, h.params, all_of_isIdentifier (h.name hc)⟩

/-- A member's text shows its owner, its parameters and whether it is a constructor, and a method's text shows its
    name and whether it is static. -/
theorem memberRef_inj (hx : m.SpellsMember host x) (hy : m.SpellsMember host y) (h : m.memberRef x = m.memberRef y) :
    x.owner.name = y.owner.name ∧ x.isCtor = y.isCtor ∧ Ty.sameList x.params y.params = true ∧
      (x.isCtor = false → x.name = y.name ∧ x.isStatic = y.isStatic) := by
  have special : Method.ctorName.isIdentifier = false := by decide
  rw [memberRef_eq, memberRef_eq] at h
  obtain ⟨ho, hn, hs, hp⟩ := methodRef_inj hx.asMethod hy.asMethod h
  cases hcx : x.isCtor <;> cases hcy : y.isCtor <;>
      simp only [asMethod, hcx, hcy, if_true, if_false, Bool.false_eq_true] at ho hn hs hp
  · exact ⟨ho, rfl, hp, fun _ => ⟨hn, hs⟩⟩
  · rw [← hn, hx.name hcx] at special
    cases special
  · rw [hn, hy.name hcy] at special
    cases special
  · exact ⟨ho, rfl, hp, fun hf => nomatch hf⟩

end Module
end CilCompiler
