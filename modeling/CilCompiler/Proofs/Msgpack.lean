import CilCompiler.Msgpack
import Mathlib.Tactic.Ring

/-!
What is written is read back. `Spells` says that reading bytes gives a value and leaves what follows them, with as much
fuel as `decode?` grants; it holds of every text, number, truth value, list and map that is written and not too long.
-/

namespace CilCompiler.Msgpack

/-! ### Numbers in bytes -/

theorem number_foldl (bs : List UInt8) (a : Nat) :
    bs.foldl (fun n b => n * 256 + b.toNat) a = a * 256 ^ bs.length + number bs := by
  induction bs generalizing a with
  | nil => simp [number]
  | cons b bs ih =>
    simp only [List.foldl_cons, List.length_cons, number]
    rw [ih (a * 256 + b.toNat), ih (0 * 256 + b.toNat)]
    ring

theorem number_cons (b : UInt8) (bs : List UInt8) : number (b :: bs) = b.toNat * 256 ^ bs.length + number bs := by
  simpa [number] using number_foldl bs b.toNat

@[simp] theorem length_bigEndian (w n : Nat) : (bigEndian w n).length = w := by
  induction w with
  | zero => rfl
  | succ w ih => simp [bigEndian, ih]

theorem number_bigEndian {w n : Nat} (h : n < 256 ^ w) : number (bigEndian w n) = n := by
  suffices hmod : number (bigEndian w n) = n % 256 ^ w by rw [hmod, Nat.mod_eq_of_lt h]
  clear h
  induction w with
  | zero => simp [bigEndian, number, Nat.mod_one]
  | succ w ih =>
    rw [bigEndian, number_cons, length_bigEndian, ih, Nat.mod_pow_succ]
    simp only [Nat.pow_eq, Nat.toUInt8, UInt8.toNat_ofNat']
    ring

theorem signed_bigEndian (i : Int32) : signed (bigEndian 4 i.toUInt32.toNat) = i.toInt := by
  have hn : number (bigEndian 4 i.toUInt32.toNat) = i.toBitVec.toNat := number_bigEndian i.toUInt32.toNat_lt
  rw [signed, hn, length_bigEndian, ← Int32.toInt_toBitVec, BitVec.toInt_eq_toNat_cond]

theorem take?_append {n : Nat} {bs : List UInt8} (h : bs.length = n) (rest : List UInt8) :
    take? n (bs ++ rest) = some (bs, rest) := by
  simp [take?, ← h]

theorem take?_bigEndian (w n : Nat) (rest : List UInt8) : take? w (bigEndian w n ++ rest) = some (bigEndian w n, rest) :=
  take?_append (length_bigEndian w n) rest

/-! ### Values -/

attribute [simp] form? read readItems readEntries

/-- Reading the bytes gives a value and leaves what follows. -/
structure Spells (bs : List UInt8) (v : Value) : Prop where
  ne : bs ≠ []
  read : ∀ (fuel : Nat) (rest : List UInt8), 2 * bs.length ≤ fuel + 1 → read fuel (bs ++ rest) = some (v, rest)

/-- It is enough to read behind the first byte, with a unit of fuel used up. -/
theorem Spells.of_cons {b : UInt8} {bs : List UInt8} {v : Value}
    (h : ∀ (fuel : Nat) (rest : List UInt8), 2 * bs.length ≤ fuel →
      Msgpack.read (fuel + 1) (b :: (bs ++ rest)) = some (v, rest)) : Spells (b :: bs) v where
  ne := nofun
  read fuel rest hf := by
    simp only [List.length_cons] at hf
    obtain ⟨fuel, rfl⟩ : ∃ k, fuel = k + 1 := ⟨fuel - 1, by omega⟩
    exact h fuel rest (by omega)

/-- The same of a header and what it announces. -/
theorem Spells.of_header {b : UInt8} {header body : List UInt8} {v : Value}
    (h : ∀ (fuel : Nat) (rest : List UInt8), 2 * body.length ≤ fuel →
      Msgpack.read (fuel + 1) (b :: (header ++ (body ++ rest))) = some (v, rest)) : Spells ((b :: header) ++ body) v :=
  @Spells.of_cons b (header ++ body) v fun fuel rest hf => by
    rw [List.append_assoc]
    exact h fuel rest (by rw [List.length_append] at hf; omega)

theorem spells_nil : Spells [0xC0] .nil := .of_cons fun fuel rest _ => by simp [read, form?]

theorem spells_bool (b : Bool) : Spells (writeBool b) (.bool b) := by
  cases b <;> exact .of_cons fun fuel rest _ => by simp [read, form?]

theorem spells_nat16 {n : Nat} (h : n < 65536) : Spells (writeNat16 n) (.int n) :=
  .of_cons fun fuel rest _ => by
    have hb : form? 0xCD = some (.unsigned 2) := rfl
    have hn : number (bigEndian 2 n) = n := number_bigEndian h
    simp only [read, hb, take?_bigEndian, Option.map_some, hn]

theorem spells_int32 (i : Int32) : Spells (writeInt32 i) (.int i.toInt) :=
  .of_cons fun fuel rest _ => by
    have hb : form? 0xD2 = some (.twos 4) := rfl
    simp only [read, hb, take?_bigEndian, Option.map_some, signed_bigEndian]

/-- A text whose length is in the bytes behind the first one. -/
theorem spells_text {b : UInt8} {w n : Nat} {t : Text} (hb : form? b = some (.text w)) (hn : t.size = n) (h : n < 256 ^ w) :
    Spells (b :: bigEndian w n ++ t.bytes) (.str t) :=
  .of_header fun fuel rest _ => by
    have body : take? (number (bigEndian w n)) (t.bytes ++ rest) = some (t.bytes, rest) :=
      take?_append (by rw [number_bigEndian h]; exact hn) rest
    simp only [read, hb, readStr, take?_bigEndian, Option.bind_eq_bind, Option.bind_some, body]
    rfl

/-- A first byte that is no code of its own is a number, or has a length added. -/
theorem form?_low {n : Nat} (h : n < 0xC0) : form? n.toUInt8 = some (
    if n < 0x80 then .whole (.int n) else if n < 0x90 then .entries (n - 0x80)
    else if n < 0xA0 then .items (n - 0x90) else .shortText (n - 0xA0)) := by
  have hn : n.toUInt8.toNat = n := by simpa [Nat.toUInt8] using Nat.mod_eq_of_lt (show n < 256 by omega)
  rw [form?, hn]
  repeat' split
  all_goals rfl

theorem form?_short_text {n : Nat} (h : n < 32) : form? (0xA0 + n).toUInt8 = some (.shortText n) := by
  rw [form?_low (by omega), if_neg (by omega), if_neg (by omega), if_neg (by omega), Nat.add_sub_cancel_left]

theorem spells_str {t : Text} (h : t.size < 2 ^ 32) : Spells (writeStr t) (.str t) := by
  unfold writeStr strHeader
  split
  · refine .of_header fun fuel rest _ => ?_
    have body : take? t.size (t.bytes ++ rest) = some (t.bytes, rest) := take?_append rfl rest
    simp only [read, form?_short_text ‹_›, List.nil_append, body, Option.map_some]
  split
  · exact spells_text rfl rfl ‹_›
  split
  · exact spells_text rfl rfl ‹_›
  · exact spells_text rfl rfl h

/-! ### Lists and maps -/

theorem readItems_flatten {items : List (List UInt8)} {vs : List Value} (h : List.Forall₂ Spells items vs) (fuel : Nat)
    (rest : List UInt8) (hf : 2 * items.flatten.length ≤ fuel) :
    readItems fuel items.length (items.flatten ++ rest) = some (vs, rest) := by
  induction h generalizing fuel with
  | nil => cases fuel <;> simp [readItems]
  | @cons item v items vs hv _ ih =>
    have hpos := List.length_pos_iff.mpr hv.ne
    simp only [List.flatten_cons, List.length_append] at hf
    obtain ⟨fuel, rfl⟩ : ∃ k, fuel = k + 1 := ⟨fuel - 1, by omega⟩
    simp only [List.length_cons, readItems, List.flatten_cons, List.append_assoc]
    rw [hv.read fuel _ (by omega), Option.bind_some, ih fuel (by omega), Option.map_some]

/-- The bytes of the entries of a map. -/
def entryBytes (entries : List (List UInt8 × List UInt8)) : List UInt8 := entries.flatMap fun e => e.1 ++ e.2

theorem readEntries_entryBytes {entries : List (List UInt8 × List UInt8)} {es : List (Value × Value)}
    (h : List.Forall₂ (fun e v => Spells e.1 v.1 ∧ Spells e.2 v.2) entries es) (fuel : Nat) (rest : List UInt8)
    (hf : 2 * (entryBytes entries).length ≤ fuel) :
    readEntries fuel entries.length (entryBytes entries ++ rest) = some (es, rest) := by
  induction h generalizing fuel with
  | nil => cases fuel <;> simp [readEntries, entryBytes]
  | @cons e v entries es he _ ih =>
    obtain ⟨hk, hv⟩ := he
    have hkpos := List.length_pos_iff.mpr hk.ne
    have hvpos := List.length_pos_iff.mpr hv.ne
    simp only [entryBytes, List.flatMap_cons, List.length_append] at hf ih
    obtain ⟨fuel, rfl⟩ : ∃ k, fuel = k + 1 := ⟨fuel - 1, by omega⟩
    simp only [List.length_cons, readEntries, entryBytes, List.flatMap_cons, List.append_assoc]
    rw [hk.read fuel _ (by omega), Option.bind_some, hv.read fuel _ (by omega), Option.bind_some, ih fuel (by omega),
      Option.map_some]

theorem form?_short_items {n : Nat} (h : n < 16) : form? (0x90 + n).toUInt8 = some (.items n) := by
  rw [form?_low (by omega), if_neg (by omega), if_neg (by omega), if_pos (by omega), Nat.add_sub_cancel_left]

theorem form?_short_entries {n : Nat} (h : n < 16) : form? (0x80 + n).toUInt8 = some (.entries n) := by
  rw [form?_low (by omega), if_neg (by omega), if_pos (by omega), Nat.add_sub_cancel_left]

theorem spells_array {items : List (List UInt8)} {vs : List Value} (h : List.Forall₂ Spells items vs)
    (hn : items.length < 2 ^ 32) : Spells (arrayHeader items.length ++ items.flatten) (.array vs) := by
  have long : ∀ {b : UInt8} {w : Nat}, form? b = some (.longItems w) → items.length < 256 ^ w →
      Spells (b :: bigEndian w items.length ++ items.flatten) (.array vs) := fun {b w} hb hw =>
    .of_header fun fuel rest hf => by
      simp only [read, hb, take?_bigEndian, Option.bind_some, number_bigEndian hw]
      rw [readItems_flatten h fuel rest hf, Option.map_some]
  unfold arrayHeader
  split
  · refine .of_header fun fuel rest hf => ?_
    simp only [read, form?_short_items ‹_›, List.nil_append]
    rw [readItems_flatten h fuel rest hf, Option.map_some]
  split
  · exact long rfl ‹_›
  · exact long rfl hn

theorem spells_map {entries : List (List UInt8 × List UInt8)} {es : List (Value × Value)}
    (h : List.Forall₂ (fun e v => Spells e.1 v.1 ∧ Spells e.2 v.2) entries es) (hn : entries.length < 2 ^ 32) :
    Spells (mapHeader entries.length ++ entryBytes entries) (.map es) := by
  have long : ∀ {b : UInt8} {w : Nat}, form? b = some (.longEntries w) → entries.length < 256 ^ w →
      Spells (b :: bigEndian w entries.length ++ entryBytes entries) (.map es) := fun {b w} hb hw =>
    .of_header fun fuel rest hf => by
      simp only [read, hb, take?_bigEndian, Option.bind_some, number_bigEndian hw]
      rw [readEntries_entryBytes h fuel rest hf, Option.map_some]
  unfold mapHeader
  split
  · refine .of_header fun fuel rest hf => ?_
    simp only [read, form?_short_entries ‹_›, List.nil_append]
    rw [readEntries_entryBytes h fuel rest hf, Option.map_some]
  split
  · exact long rfl ‹_›
  · exact long rfl hn

/-- What is spelled is decoded, whatever follows. -/
theorem Spells.decode? {bs : List UInt8} {v : Value} (h : Spells bs v) (rest : List UInt8) :
    Msgpack.decode? (bs ++ rest) = some (v, rest) :=
  h.read _ rest (by rw [List.length_append]; omega)

end CilCompiler.Msgpack
