import CilCompiler.Text

/-! UTF-8 is read as it is written: the bytes of a character are read as the character, whatever follows them
    (`runesFrom_utf8EncodeChar`), and a text in which no byte is stray is written from its characters
    (`ofChars_chars`). Runes are written as they were read (`ofRunes_runes`), so what a text starts and ends with can
    be told from its runes: `trim` takes the blanks off the front (`trim_blanks`), keeps a word at the front
    (`trim_startsWith`), and leaves a text alone that has no blank at either end (`trim_eq_self`). -/

namespace CilCompiler.Text

/-! ### ASCII characters

An ASCII byte is a character of its own, and belongs to none that starts before it. -/

theorem headRune_append {b : UInt8} (hb : b < 0x80) (b₀ : UInt8) (rest : List UInt8) :
    headRune b₀ (rest ++ [b]) = headRune b₀ rest := by
  have ht : isTrail b = false := by
    simp only [isTrail, Bool.and_eq_false_iff, decide_eq_false_iff_not, UInt8.not_le]
    exact .inl hb
  rcases rest with _ | ⟨b₁, _ | ⟨b₂, _ | ⟨b₃, rest⟩⟩⟩ <;> simp [headRune, isPair, isTriple, isQuad, ht]

theorem headRune_skip (b₀ : UInt8) (rest : List UInt8) : (headRune b₀ rest).2 ≤ rest.length := by
  unfold headRune
  repeat' split
  all_goals simp

theorem headRune_ascii {b : UInt8} (hb : b < 0x80) (rest : List UInt8) :
    headRune b rest = (.scalar (Char.ofNat b.toNat), 0) := by
  simp [headRune, hb]

theorem runesFrom_append {b : UInt8} (hb : b < 0x80) {skip : Nat} {bs : List UInt8} (hs : skip ≤ bs.length) :
    runesFrom skip (bs ++ [b]) = runesFrom skip bs ++ [.scalar (Char.ofNat b.toNat)] := by
  induction bs generalizing skip with
  | nil =>
    obtain rfl : skip = 0 := Nat.le_zero.1 hs
    simp [runesFrom, headRune_ascii hb]
  | cons b₀ bs ih =>
    cases skip with
    | zero => simp [runesFrom, headRune_append hb, ih (headRune_skip b₀ bs)]
    | succ skip => simpa [runesFrom] using ih (Nat.le_of_succ_le_succ hs)

/-! ### Writing, then reading -/

theorem headRune_pair {b₀ b₁ : UInt8} (h : isPair b₀ b₁ = true) (rest : List UInt8) :
    headRune b₀ (b₁ :: rest) = (.scalar (Char.ofNat (b₀.toNat % 32 * 64 + b₁.toNat % 64)), 1) := by
  have hb : ¬b₀ < 0x80 := by
    simp only [isPair, Bool.and_eq_true, decide_eq_true_eq, UInt8.le_iff_toNat_le] at h
    simp only [UInt8.lt_iff_toNat_lt]
    simp at h ⊢
    omega
  simp [headRune, hb, h]

theorem headRune_triple {b₀ b₁ b₂ : UInt8} (h : isTriple b₀ b₁ b₂ = true) (rest : List UInt8) :
    headRune b₀ (b₁ :: b₂ :: rest) =
      (.scalar (Char.ofNat (b₀.toNat % 16 * 4096 + b₁.toNat % 64 * 64 + b₂.toNat % 64)), 2) := by
  have hb : ¬b₀ < 0x80 ∧ isPair b₀ b₁ = false := by
    simp [isTriple, isPair, UInt8.le_iff_toNat_le, UInt8.lt_iff_toNat_lt] at h ⊢
    omega
  simp [headRune, hb, h]

theorem headRune_quad {b₀ b₁ b₂ b₃ : UInt8} (h : isQuad b₀ b₁ b₂ b₃ = true) (rest : List UInt8) :
    headRune b₀ (b₁ :: b₂ :: b₃ :: rest) = (.scalar (Char.ofNat
      (b₀.toNat % 8 * 262144 + b₁.toNat % 64 * 4096 + b₂.toNat % 64 * 64 + b₃.toNat % 64)), 3) := by
  have hb : ¬b₀ < 0x80 ∧ isPair b₀ b₁ = false ∧ isTriple b₀ b₁ b₂ = false := by
    simp [isQuad, isTriple, isPair, UInt8.le_iff_toNat_le, UInt8.lt_iff_toNat_lt] at h ⊢
    omega
  simp [headRune, hb, h]

/-- A character's number is no surrogate's and not above U+10FFFF. -/
theorem toNat_cases (c : Char) : c.toNat < 0xD800 ∨ 0xDFFF < c.toNat ∧ c.toNat < 0x110000 := c.valid

/-- A byte behind the first keeps six bits. -/
theorem trail_bits (n : Nat) : (n % 64 + 128) % 256 % 64 = n % 64 := by omega

/-- The first byte of a character starts this character and takes the others with it. -/
theorem headRune_utf8EncodeChar (c : Char) :
    ∃ b bs, String.utf8EncodeChar c = b :: bs ∧ ∀ rest, headRune b (bs ++ rest) = (.scalar c, bs.length) := by
  have hc := toNat_cases c
  have hv : c.val.toNat = c.toNat := rfl
  simp only [String.utf8EncodeChar, hv]
  repeat' split
  · refine ⟨_, _, rfl, fun rest => ?_⟩
    have hb : UInt8.ofNat c.toNat < 0x80 := by
      simp only [UInt8.lt_iff_toNat_lt, UInt8.toNat_ofNat']
      simp
      omega
    simp only [headRune, hb, if_true, UInt8.toNat_ofNat', List.length_nil]
    rw [Nat.mod_eq_of_lt (by omega), Char.ofNat_toNat]
  · refine ⟨_, _, rfl, fun rest => ?_⟩
    rw [List.cons_append, headRune_pair (by simp [isPair, isTrail, UInt8.le_iff_toNat_le]; omega)]
    simp only [UInt8.toNat_ofNat', Nat.reducePow, List.length_cons, List.length_nil]
    rw [trail_bits, show (c.toNat / 64 % 32 + 192) % 256 % 32 * 64 + c.toNat % 64 = c.toNat by omega, Char.ofNat_toNat]
  · refine ⟨_, _, rfl, fun rest => ?_⟩
    rw [List.cons_append, List.cons_append, headRune_triple (by
      simp [isTriple, isTrail, UInt8.le_iff_toNat_le, ← UInt8.toNat_inj]; omega)]
    simp only [UInt8.toNat_ofNat', Nat.reducePow, List.length_cons, List.length_nil]
    rw [trail_bits, trail_bits, show (c.toNat / 4096 % 16 + 224) % 256 % 16 * 4096 + c.toNat / 64 % 64 * 64 +
        c.toNat % 64 = c.toNat by
      omega, Char.ofNat_toNat]
  · refine ⟨_, _, rfl, fun rest => ?_⟩
    rw [List.cons_append, List.cons_append, List.cons_append, headRune_quad (by
      simp [isQuad, isTrail, UInt8.le_iff_toNat_le, ← UInt8.toNat_inj]; omega)]
    simp only [UInt8.toNat_ofNat', Nat.reducePow, List.length_cons, List.length_nil]
    rw [trail_bits, trail_bits, trail_bits, show (c.toNat / 262144 % 8 + 240) % 256 % 8 * 262144 +
        c.toNat / 4096 % 64 * 4096 +
      c.toNat / 64 % 64 * 64 + c.toNat % 64 = c.toNat by omega, Char.ofNat_toNat]

theorem runesFrom_length (bs rest : List UInt8) : runesFrom bs.length (bs ++ rest) = runesFrom 0 rest := by
  induction bs with
  | nil => rfl
  | cons b bs ih => simpa [runesFrom] using ih

/-- The bytes of a character are read as the character, whatever follows. -/
theorem runesFrom_utf8EncodeChar (c : Char) (rest : List UInt8) :
    runesFrom 0 (String.utf8EncodeChar c ++ rest) = .scalar c :: runesFrom 0 rest := by
  obtain ⟨b, bs, hbs, hr⟩ := headRune_utf8EncodeChar c
  rw [hbs, List.cons_append, runesFrom, hr rest, runesFrom_length]

/-- The bytes of characters are read as the characters, whatever follows. -/
theorem chars_append_ofChars (cs : List Char) (rest : List UInt8) :
    (Text.mk ((ofChars cs).bytes ++ rest)).chars = cs ++ (Text.mk rest).chars := by
  induction cs with
  | nil => rfl
  | cons c cs ih =>
    simp only [ofChars, chars, runes, List.flatMap_cons, List.append_assoc] at ih ⊢
    rw [runesFrom_utf8EncodeChar, List.map_cons, ih]
    rfl

/-! ### Reading, then writing -/

theorem toNat_ofNat {n : Nat} (h : n < 0xD800 ∨ 0xDFFF < n ∧ n < 0x110000) : (Char.ofNat n).val.toNat = n := by
  have hn : n.isValidChar := h
  rw [Char.ofNat, dif_pos hn]
  rfl

/-- The bytes that were read as a character are those it is written with. -/
theorem utf8EncodeChar_of_headRune {b : UInt8} {rest : List UInt8} {c : Char} (h : (headRune b rest).1 = .scalar c) :
    String.utf8EncodeChar c = b :: rest.take (headRune b rest).2 := by
  have byte : ∀ {x : UInt8} {n : Nat}, n = x.toNat → UInt8.ofNat n = x := by
    rintro x _ rfl
    exact UInt8.ofNat_toNat
  by_cases hb : b < 0x80
  · simp only [headRune, if_pos hb, Rune.scalar.injEq, List.take_zero] at h ⊢
    simp only [UInt8.lt_iff_toNat_lt] at hb
    simp at hb
    simp only [← h, String.utf8EncodeChar, toNat_ofNat (n := b.toNat) (by omega)]
    rw [if_pos (by omega), byte rfl]
  simp only [headRune, if_neg hb] at h ⊢
  rcases rest with _ | ⟨b₁, r₁⟩
  · cases h
  by_cases hp : isPair b b₁ = true
  · simp only [if_pos hp, Rune.scalar.injEq, List.take_succ_cons, List.take_zero] at h ⊢
    simp [isPair, isTrail, UInt8.le_iff_toNat_le] at hp
    simp only [← h, String.utf8EncodeChar, toNat_ofNat (n := b.toNat % 32 * 64 + b₁.toNat % 64) (by omega)]
    rw [if_neg (by omega), if_pos (by omega), byte (x := b) (by omega), byte (x := b₁) (by omega)]
  simp only [if_neg hp] at h ⊢
  rcases r₁ with _ | ⟨b₂, r₂⟩
  · cases h
  by_cases ht : isTriple b b₁ b₂ = true
  · simp only [if_pos ht, Rune.scalar.injEq, List.take_succ_cons, List.take_zero] at h ⊢
    simp [isTriple, isTrail, UInt8.le_iff_toNat_le, ← UInt8.toNat_inj] at ht
    simp only [← h, String.utf8EncodeChar,
      toNat_ofNat (n := b.toNat % 16 * 4096 + b₁.toNat % 64 * 64 + b₂.toNat % 64) (by omega)]
    rw [if_neg (by omega), if_neg (by omega), if_pos (by omega), byte (x := b) (by omega), byte (x := b₁) (by omega),
      byte (x := b₂) (by omega)]
  simp only [if_neg ht] at h ⊢
  rcases r₂ with _ | ⟨b₃, r₃⟩
  · cases h
  by_cases hq : isQuad b b₁ b₂ b₃ = true
  · simp only [if_pos hq, Rune.scalar.injEq, List.take_succ_cons, List.take_zero] at h ⊢
    simp [isQuad, isTrail, UInt8.le_iff_toNat_le, ← UInt8.toNat_inj] at hq
    simp only [← h, String.utf8EncodeChar,
      toNat_ofNat (n := b.toNat % 8 * 262144 + b₁.toNat % 64 * 4096 + b₂.toNat % 64 * 64 + b₃.toNat % 64) (by omega)]
    rw [if_neg (by omega), if_neg (by omega), if_neg (by omega), byte (x := b) (by omega), byte (x := b₁) (by omega),
      byte (x := b₂) (by omega), byte (x := b₃) (by omega)]
  · simp [hq] at h

theorem flatMap_runesFrom {skip : Nat} {bs : List UInt8} (h : ∀ r ∈ runesFrom skip bs, ∃ c, r = .scalar c) :
    (runesFrom skip bs).flatMap (fun r => String.utf8EncodeChar (shown r)) = bs.drop skip := by
  induction bs generalizing skip with
  | nil => simp [runesFrom]
  | cons b bs ih =>
    cases skip with
    | succ skip => exact ih h
    | zero =>
      simp only [runesFrom, List.mem_cons, forall_eq_or_imp] at h ⊢
      obtain ⟨⟨c, hc⟩, hr⟩ := h
      rw [List.flatMap_cons, ih hr, hc]
      simp only [shown, utf8EncodeChar_of_headRune hc, List.drop_zero, List.cons_append, List.take_append_drop]

/-- The runes of a text without stray bytes. -/
theorem runes_of_isValid {t : Text} (h : t.isValid = true) : t.runes = t.chars.map .scalar := by
  simp only [isValid, List.all_eq_true] at h
  rw [chars, List.map_map]
  refine ((List.map_congr_left fun r hr => ?_).trans (List.map_id _)).symm
  cases r with
  | scalar c => rfl
  | stray b => exact absurd (h _ hr) (by simp)

/-- A text without stray bytes is written from its characters. -/
theorem ofChars_chars {t : Text} (h : t.isValid = true) : ofChars t.chars = t := by
  have hr : ∀ r ∈ runesFrom 0 t.bytes, ∃ c, r = .scalar c := by
    intro r hr
    have hm : r ∈ t.chars.map Rune.scalar := runes_of_isValid h ▸ hr
    obtain ⟨c, -, hc⟩ := List.mem_map.mp hm
    exact ⟨c, hc.symm⟩
  have := flatMap_runesFrom hr
  rw [List.drop_zero] at this
  simp only [ofChars, chars, runes, List.flatMap_map, this]

/-! ### Runes are written as they were read -/

theorem eq_of_headRune_stray {b b' : UInt8} {rest : List UInt8} (h : (headRune b rest).1 = .stray b') :
    b' = b ∧ (headRune b rest).2 = 0 := by
  suffices hs : headRune b rest = (.stray b, 0) by
    rw [hs] at h ⊢
    cases h
    exact ⟨rfl, rfl⟩
  revert h
  unfold headRune
  repeat' split
  all_goals simp

theorem flatMap_bytes_runesFrom (skip : Nat) (bs : List UInt8) : (ofRunes (runesFrom skip bs)).bytes = bs.drop skip := by
  induction bs generalizing skip with
  | nil => simp [runesFrom, ofRunes]
  | cons b bs ih =>
    cases skip with
    | succ skip => exact ih skip
    | zero =>
      have hrest := ih (headRune b bs).2
      simp only [ofRunes] at hrest
      simp only [runesFrom, ofRunes, List.flatMap_cons, hrest]
      cases hr : (headRune b bs).1 with
      | scalar c => simp [utf8EncodeChar_of_headRune hr]
      | stray b' =>
        obtain ⟨rfl, hn⟩ := eq_of_headRune_stray hr
        simp [hn]

theorem ofRunes_runes (t : Text) : ofRunes t.runes = t := by
  have h := flatMap_bytes_runesFrom 0 t.bytes
  rw [List.drop_zero] at h
  exact congrArg Text.mk h

/-! ### Trimming -/

theorem runes_ascii_append {b : UInt8} (hb : b < 0x80) (bs : List UInt8) :
    (Text.mk (b :: bs)).runes = .scalar (Char.ofNat b.toNat) :: (Text.mk bs).runes := by
  rw [runes, runesFrom, headRune_ascii hb]
  rfl

/-- A blank of one byte. -/
def isBlankByte (b : UInt8) : Bool := b < 0x80 && isBlank (Char.ofNat b.toNat)

/-- A printed byte that is a character of its own. -/
def isInkByte (b : UInt8) : Bool := b < 0x80 && !isBlank (Char.ofNat b.toNat)

theorem dropWhile_runes_ink {b : UInt8} (hb : isInkByte b = true) (bs : List UInt8) :
    (Text.mk (b :: bs)).runes.dropWhile isBlankRune = (Text.mk (b :: bs)).runes := by
  simp only [isInkByte, Bool.and_eq_true, decide_eq_true_eq, Bool.not_eq_true'] at hb
  rw [runes_ascii_append hb.1]
  simp [isBlankRune, hb.2]

theorem trim_blanks {bs : List UInt8} (h : bs.all isBlankByte = true) (rest : List UInt8) :
    (Text.mk (bs ++ rest)).trim = (Text.mk rest).trim := by
  induction bs with
  | nil => rfl
  | cons b bs ih =>
    simp only [List.all_cons, Bool.and_eq_true, isBlankByte, decide_eq_true_eq] at h
    rw [← ih h.2, trim, trim, List.cons_append, runes_ascii_append h.1.1]
    simp [isBlankRune, h.1.2]

/-- A text that starts and ends with printed ASCII characters is left alone. -/
theorem trim_eq_self {b e : UInt8} (hb : isInkByte b = true) (he : isInkByte e = true) (bs : List UInt8) :
    (Text.mk (b :: (bs ++ [e]))).trim = ⟨b :: (bs ++ [e])⟩ := by
  have hlast : ∃ rs, (Text.mk (b :: (bs ++ [e]))).runes.reverse = .scalar (Char.ofNat e.toNat) :: rs := by
    have he : e < 0x80 := by
      simp only [isInkByte, Bool.and_eq_true, decide_eq_true_eq] at he
      exact he.1
    refine ⟨(runesFrom 0 (b :: bs)).reverse, ?_⟩
    rw [runes, ← List.cons_append, runesFrom_append he (Nat.zero_le _)]
    simp
  obtain ⟨rs, hrs⟩ := hlast
  simp only [isInkByte, Bool.and_eq_true, Bool.not_eq_true'] at he
  rw [trim, dropWhile_runes_ink hb, hrs, List.dropWhile_cons_of_neg (by simp [isBlankRune, he.2]), ← hrs,
      List.reverse_reverse,
    ofRunes_runes]

/-- Of runes that do not start with a blank, those at the front are kept by taking blanks off the end. -/
theorem dropWhile_reverse_append {pre : List Rune} (h : ∀ r ∈ pre, isBlankRune r = false) (rs : List Rune) :
    ∃ rs', ((pre ++ rs).reverse.dropWhile isBlankRune).reverse = pre ++ rs' := by
  refine ⟨(rs.reverse.dropWhile isBlankRune).reverse, ?_⟩
  rw [List.reverse_append, List.dropWhile_append]
  split
  · rename_i hempty
    have hall : rs.reverse.dropWhile isBlankRune = [] := List.isEmpty_iff.mp hempty
    have hpre : pre.reverse.dropWhile isBlankRune = pre.reverse := by
      cases hp : pre.reverse with
      | nil => simp
      | cons r l =>
        have hr : isBlankRune r = false := h r (by rw [← List.mem_reverse, hp]; exact List.mem_cons_self)
        simp [hr]
    rw [hpre, hall]
    simp
  · simp

theorem runes_inks_append {w : List UInt8} (h : w.all isInkByte = true) (rest : List UInt8) :
    ∃ pre : List Rune, (Text.mk (w ++ rest)).runes = pre ++ (Text.mk rest).runes ∧ pre.length = w.length ∧
      (∀ r ∈ pre, isBlankRune r = false) ∧ ofRunes pre = ⟨w⟩ := by
  induction w with
  | nil => exact ⟨[], rfl, rfl, by simp, rfl⟩
  | cons b w ih =>
    simp only [List.all_cons, Bool.and_eq_true] at h
    obtain ⟨pre, hpre, hlen, hink, hbytes⟩ := ih h.2
    have hb := h.1
    simp only [isInkByte, Bool.and_eq_true, decide_eq_true_eq, Bool.not_eq_true'] at hb
    refine ⟨.scalar (Char.ofNat b.toNat) :: pre, ?_, by simp [hlen], ?_, ?_⟩
    · rw [List.cons_append, runes_ascii_append hb.1, hpre]
      rfl
    · intro r hr
      rcases List.mem_cons.mp hr with rfl | hr
      · exact hb.2
      · exact hink r hr
    · have hc : String.utf8EncodeChar (Char.ofNat b.toNat) = [b] := by
        have hrune : (headRune b []).1 = .scalar (Char.ofNat b.toNat) := by rw [headRune_ascii hb.1]
        simpa [headRune_ascii hb.1] using utf8EncodeChar_of_headRune hrune
      have hw : pre.flatMap _ = w := congrArg Text.bytes hbytes
      simp only [ofRunes, List.flatMap_cons, hc, hw]
      rfl

/-- A printed word at the front stays there. -/
theorem trim_startsWith {w : List UInt8} (hne : w ≠ []) (h : w.all isInkByte = true) (rest : List UInt8) :
    (Text.mk (w ++ rest)).trim.startsWith ⟨w⟩ = true := by
  obtain ⟨pre, hpre, hlen, hink, hbytes⟩ := runes_inks_append h rest
  have hpne : pre ≠ [] := by
    rintro rfl
    exact hne (List.length_eq_zero_iff.mp hlen.symm)
  obtain ⟨rs, hrs⟩ := dropWhile_reverse_append hink (Text.mk rest).runes
  have hfront : (pre ++ (Text.mk rest).runes).dropWhile isBlankRune = pre ++ (Text.mk rest).runes := by
    rcases pre with _ | ⟨r, pre⟩
    · exact absurd rfl hpne
    · simp [hink r List.mem_cons_self]
  rw [trim, hpre, hfront, hrs]
  have hw : pre.flatMap _ = w := congrArg Text.bytes hbytes
  simp only [startsWith, ofRunes, List.flatMap_append, hw, List.isPrefixOf_iff_prefix]
  exact List.prefix_append _ _

end CilCompiler.Text
