import CilCompiler.Module.Listing
import CilCompiler.Proofs.Text.Runes
import Mathlib.Data.List.Chain

/-! String literals. A character of a literal is written as itself, as a backslash with one more character, or as a
    backslash with two digits (`escape_cases`). Reading a backslash with just the one character behind it takes every
    literal back to its characters, but for a control character of two digits, which comes back as the control
    character of its first digit and the second digit (`unescaped_escaped`). So two texts have the same literal
    exactly when they agree after all such characters have been taken apart (`literal_eq_iff`). -/

namespace CilCompiler

namespace Text

theorem ofChars_append (as bs : List Char) : ofChars (as ++ bs) = ofChars as ++ ofChars bs := by
  show Text.mk _ = Text.mk _
  rw [List.flatMap_append]
  rfl

theorem ofChars_flatMap (f : Char → List Char) (cs : List Char) :
    ofChars (cs.flatMap f) = join (cs.map fun c => ofChars (f c)) := by
  simp only [join, ofChars, List.flatMap_assoc, List.flatMap_map]

/-- Characters are read back from their bytes. -/
theorem chars_ofChars (cs : List Char) : (ofChars cs).chars = cs := by
  simpa [chars, runes, runesFrom] using chars_append_ofChars cs []

theorem ofChars_inj {as bs : List Char} : ofChars as = ofChars bs ↔ as = bs :=
  ⟨fun h => by rw [← chars_ofChars as, h, chars_ofChars], congrArg ofChars⟩

/-- Texts without stray bytes are the same when their characters are. -/
theorem eq_of_chars {s t : Text} (hs : s.isValid = true) (ht : t.isValid = true) (h : s.chars = t.chars) : s = t := by
  rw [← ofChars_chars hs, h, ofChars_chars ht]

end Text

namespace Literal

/-! ### Characters -/

/-- The characters that a character of a literal is written with. -/
def escape (c : Char) : List Char :=
  if c = '"' then ['\\', '"']
  else if c = '\\' then ['\\', '\\']
  else if c = '\n' then ['\\', 'n']
  else if c = '\r' then ['\\', 'r']
  else if c = '\t' then ['\\', 't']
  else if c.toNat < 32 then '\\' :: Nat.toDigits 8 c.toNat
  else [c]

theorem literalChar_eq (c : Char) : Module.literalChar c = Text.ofChars (escape c) := by
  have single (c : Char) : Text.ofChar c = Text.ofChars [c] := by simp [Text.ofChar, Text.ofChars]
  unfold Module.literalChar escape
  repeat' split
  all_goals first
    | decide
    | exact (Text.ofChars_append ['\\'] _).symm
    | exact single c

/-- What a character behind a backslash stands for, when it is read alone. -/
def code (k : Char) : Char :=
  if k = 'n' then '\n'
  else if k = 'r' then '\r'
  else if k = 't' then '\t'
  else if '0' ≤ k ∧ k ≤ '7' then Char.ofNat (k.toNat - 48)
  else k

/-- A control character of two digits taken apart: the control character of its first digit, and the second digit. -/
def spread (c : Char) : List Char :=
  if 8 ≤ c.toNat ∧ c.toNat < 32 ∧
    c ∉ ['\t', '\n', '\r'] then [Char.ofNat (c.toNat / 8), Nat.digitChar (c.toNat % 8)] else [c]

theorem code_digitChar : ∀ n < 8, code (Nat.digitChar n) = Char.ofNat n ∧ Nat.digitChar n ≠ '\\' := by decide

/-- The ways to write a character, with what is read back. -/
theorem escape_cases (c : Char) :
    (c ≠ '\\' ∧ escape c = [c] ∧ spread c = [c]) ∨
    (∃ k, escape c = ['\\', k] ∧ spread c = [code k]) ∨
    (∃ k d, d ≠ '\\' ∧ escape c = ['\\', k, d] ∧ spread c = [code k, d]) := by
  by_cases hshort : c ∈ ['"', '\\', '\n', '\r', '\t']
  · simp only [List.mem_cons, List.not_mem_nil, or_false] at hshort
    rcases hshort with rfl | rfl | rfl | rfl | rfl
    all_goals exact .inr (.inl ⟨_, rfl, by decide⟩)
  simp only [List.mem_cons, List.not_mem_nil, or_false, not_or] at hshort
  obtain ⟨hq, hb, hn, hr, ht⟩ := hshort
  by_cases hc : c.toNat < 32
  · have hesc : escape c = '\\' :: Nat.toDigits 8 c.toNat := by simp [escape, hq, hb, hn, hr, ht, hc]
    by_cases h8 : c.toNat < 8
    · refine .inr (.inl ⟨Nat.digitChar c.toNat, ?_, ?_⟩)
      · rw [hesc, Nat.toDigits_of_lt_base h8]
      · rw [(code_digitChar _ h8).1, Char.ofNat_toNat, spread, if_neg (by omega)]
    · have hhigh : c.toNat / 8 < 8 := by omega
      have hlow : c.toNat % 8 < 8 := Nat.mod_lt _ (by decide)
      refine .inr (.inr ⟨Nat.digitChar (c.toNat / 8), Nat.digitChar (c.toNat % 8), (code_digitChar _ hlow).2, ?_, ?_⟩)
      · rw [hesc, Nat.toDigits_of_base_le (by decide) (by omega), Nat.toDigits_of_lt_base hhigh]
        rfl
      · rw [(code_digitChar _ hhigh).1, spread, if_pos ⟨by omega, hc, by simp [hn, hr, ht]⟩]
  · exact .inl ⟨hb, by simp [escape, hq, hb, hn, hr, ht, hc], if_neg (by omega)⟩

/-- What holds for each number below `b` holds for each character below it. -/
theorem forall_char_of_lt {b : Nat} {P : Char → Prop} (h : ∀ n < b, P (Char.ofNat n)) (c : Char) (hc : c.toNat < b) : P c :=
  Char.ofNat_toNat c ▸ h c.toNat hc

/-- Taking a control character apart does not show. -/
theorem flatMap_escape_spread (c : Char) : (spread c).flatMap escape = escape c := by
  by_cases hc : c.toNat < 32
  · exact forall_char_of_lt (P := fun c => (spread c).flatMap escape = escape c) (by decide) c hc
  · rw [spread, if_neg (by omega)]
    simp

/-! ### Reading back -/

/-- Reads characters back, with one character behind each backslash. -/
def unescaped : List Char → List Char
  | '\\' :: k :: cs => code k :: unescaped cs
  | c :: cs => c :: unescaped cs
  | [] => []

theorem unescaped_cons {c : Char} (h : c ≠ '\\') (cs : List Char) : unescaped (c :: cs) = c :: unescaped cs := by
  rw [unescaped]
  rintro k cs' rfl -
  exact h rfl

theorem unescaped_escape_append (c : Char) (rest : List Char) :
    unescaped (escape c ++ rest) = spread c ++ unescaped rest := by
  rcases escape_cases c with ⟨hc, he, hs⟩ | ⟨k, he, hs⟩ | ⟨k, d, hd, he, hs⟩
  · rw [he, hs]
    exact unescaped_cons hc rest
  · rw [he, hs]
    rfl
  · rw [he, hs]
    exact congrArg (code k :: ·) (unescaped_cons hd rest)

/-- What is read back from the characters of a literal. -/
theorem unescaped_escaped (cs : List Char) : unescaped (cs.flatMap escape) = cs.flatMap spread := by
  induction cs with
  | nil => rfl
  | cons c cs ih => rw [List.flatMap_cons, unescaped_escape_append, ih, List.flatMap_cons]

theorem escaped_inj {as bs : List Char} : as.flatMap escape = bs.flatMap escape ↔
    as.flatMap spread = bs.flatMap spread := by
  have written (cs : List Char) : (cs.flatMap spread).flatMap escape = cs.flatMap escape := by
    rw [List.flatMap_assoc]
    exact congrArg (fun f => cs.flatMap f) (funext flatMap_escape_spread)
  constructor
  · intro h
    rw [← unescaped_escaped, h, unescaped_escaped]
  · intro h
    rw [← written, h, written]

/-! ### Characters that do not run together -/

/-- The control character of two digits that is taken apart into `c` and `d`, if there is one. -/
def joined (c d : Char) : Char := Char.ofNat (8 * c.toNat + (d.toNat - 48))

/-- Whether `c` and then `d` are what a control character of two digits is taken apart into. -/
def runTogether (c d : Char) : Bool := spread (joined c d) = [c, d]

/-- A character is left as it is, or taken apart into a control character and one that is none. -/
theorem spread_cases (e : Char) :
    spread e = [e] ∨ ∃ c d, spread e = [c, d] ∧ e = joined c d ∧ c.toNat < 32 ∧ 32 ≤ d.toNat := by
  by_cases h : 8 ≤ e.toNat ∧ e.toNat < 32 ∧ e ∉ ['\t', '\n', '\r']
  · have apart :=
      forall_char_of_lt (b := 32) (P := fun e => e = joined (Char.ofNat (e.toNat / 8)) (Nat.digitChar (e.toNat % 8)) ∧
      (Char.ofNat (e.toNat / 8)).toNat < 32 ∧ 32 ≤ (Nat.digitChar (e.toNat % 8)).toNat) (by decide)
    exact .inr ⟨_, _, if_pos h, apart e h.2.1⟩
  · exact .inl (if_neg h)

/-- A character that is no control character comes from itself. -/
theorem eq_cons_of_flatMap_spread {cs rest : List Char} {d : Char} (hd : 32 ≤ d.toNat) (h : cs.flatMap spread = d :: rest) :
    ∃ cs', cs = d :: cs' := by
  cases cs with
  | nil => cases h
  | cons e cs =>
    rw [List.flatMap_cons] at h
    rcases spread_cases e with he | ⟨c, d', he, -, hc, -⟩
    · rw [he] at h
      cases h
      exact ⟨cs, rfl⟩
    · rw [he] at h
      cases h
      omega

/-- A character that is left as it is and one that is taken apart start no two lists that become the same, unless the first
    runs together with the character behind it. -/
theorem not_spread_of_single {e c d : Char} {cs ds : List Char} (hcs : (e :: cs).IsChain fun a b => runTogether a b = false)
    (hd : 32 ≤ d.toNat) (hcd : spread (joined c d) = [c, d]) (h : e :: cs.flatMap spread = c :: d :: ds) : False := by
  obtain ⟨rfl, hrest⟩ := List.cons.inj h
  obtain ⟨cs', rfl⟩ := eq_cons_of_flatMap_spread hd hrest
  have hfalse := (List.isChain_cons_cons.mp hcs).1
  simp [runTogether, hcd] at hfalse

/-- Lists of characters that do not run together are told apart. -/
theorem flatMap_spread_inj {as bs : List Char} (ha : as.IsChain fun a b => runTogether a b = false)
    (hb : bs.IsChain fun a b => runTogether a b = false) (h : as.flatMap spread = bs.flatMap spread) : as = bs := by
  have nonempty (e : Char) : spread e ≠ [] := by
    rcases spread_cases e with he | ⟨c, d, he, -⟩ <;> simp [he]
  induction as generalizing bs with
  | nil =>
    cases bs with
    | nil => rfl
    | cons b bs => exact absurd (List.append_eq_nil_iff.mp h.symm).1 (nonempty b)
  | cons a as ih =>
    cases bs with
    | nil => exact absurd (List.append_eq_nil_iff.mp h).1 (nonempty a)
    | cons b bs =>
      rw [List.flatMap_cons, List.flatMap_cons] at h
      rcases spread_cases a with hsa | ⟨c, d, hsa, hja, -, hda⟩ <;>
          rcases spread_cases b with hsb | ⟨c', d', hsb, hjb, -, hdb⟩
      · rw [hsa, hsb] at h
        obtain ⟨rfl, hrest⟩ := List.cons.inj h
        exact congrArg (a :: ·) (ih ha.tail hb.tail hrest)
      · rw [hsa, hsb] at h
        exact (not_spread_of_single ha hdb (hjb ▸ hsb) h).elim
      · rw [hsa, hsb] at h
        exact (not_spread_of_single hb hda (hja ▸ hsa) h.symm).elim
      · rw [hsa, hsb] at h
        obtain ⟨rfl, htail⟩ := List.cons.inj h
        obtain ⟨rfl, hrest⟩ := List.cons.inj htail
        obtain rfl : a = b := hja.trans hjb.symm
        exact congrArg (a :: ·) (ih ha.tail hb.tail hrest)

end Literal

namespace Module

open Literal

theorem literal_eq (s : Text) : literal s = Text.join ["\"", Text.ofChars (s.chars.flatMap escape), "\""] := by
  rw [literal, Text.ofChars_flatMap]
  simp only [← literalChar_eq]

/-- Two texts have the same literal exactly when their characters agree once control characters of two digits are
    taken apart. -/
theorem literal_eq_iff {s t : Text} : literal s = literal t ↔ s.chars.flatMap spread = t.chars.flatMap spread := by
  rw [← escaped_inj, ← Text.ofChars_inj, literal_eq, literal_eq]
  refine ⟨fun h => ?_, fun h => by rw [h]⟩
  have hbytes := congrArg Text.bytes h
  simp only [Text.join, List.flatMap_cons, List.flatMap_nil, List.append_nil] at hbytes
  exact congrArg Text.mk (List.append_cancel_right (List.append_cancel_left hbytes))

/-- The line of an instruction that loads a string shows its literal. -/
theorem instrLine_ldstr (m : Module) (s : Text) :
    m.instrLine { op := .ldstr, operand := .str s } = Text.join ["ldstr ", literal s] := by
  have hne : (literal s).isEmpty = false := rfl
  simp only [instrLine, operandText?, hne, Bool.false_eq_true, if_false]
  rfl

/-- The instruction that loads a string shows which string it is, up to control characters of two digits: one of them
    and the control character of its first digit with the second digit behind it are written alike. Strings in which
    no two characters run together like this are told apart. -/
theorem ldstr_determines (m : Module) {s t : Text} (hs : s.isValid = true) (ht : t.isValid = true) :
    (literal s = literal t ↔ s.chars.flatMap spread = t.chars.flatMap spread) ∧
    (m.instrLine { op := .ldstr, operand := .str s } = m.instrLine { op := .ldstr, operand := .str t } ↔
      literal s = literal t) ∧
    ((s.chars.IsChain fun c d => runTogether c d = false) → (t.chars.IsChain fun c d => runTogether c d = false) →
      literal s = literal t → s = t) := by
  refine ⟨literal_eq_iff, ⟨fun h => ?_, fun h => by rw [instrLine_ldstr, instrLine_ldstr, h]⟩, fun hcs hct h => ?_⟩
  · rw [instrLine_ldstr, instrLine_ldstr] at h
    have hbytes := congrArg Text.bytes h
    simp only [Text.join, List.flatMap_cons, List.flatMap_nil, List.append_nil] at hbytes
    exact congrArg Text.mk (List.append_cancel_left hbytes)
  · exact Text.eq_of_chars hs ht (flatMap_spread_inj hcs hct (literal_eq_iff.mp h))

/-- The digit 8 does not run together with the control character in front of it. -/
theorem ldstr_determines_eight :
    ("\x018" : Text).isValid = true ∧ ("\x0f" : Text).isValid = true ∧ literal "\x018" ≠ literal "\x0f" := by
  have hs : ("\x018" : Text).isValid = true := by decide
  have ht : ("\x0f" : Text).isValid = true := by decide
  exact ⟨hs, ht, fun h => absurd ((ldstr_determines default hs ht).2.2 (by decide) (by decide) h) (by decide)⟩

/-- The digit 7 does: two strings have one literal. -/
theorem literals_run_together : ¬∀ s t : Text, s.isValid = true → t.isValid = true → literal s = literal t → s = t := by
  intro h
  have hsame : ("\x017" : Text) = "\x0f" := h _ _ (by decide) (by decide) (by decide)
  exact absurd hsame (by decide)

end Module
end CilCompiler
