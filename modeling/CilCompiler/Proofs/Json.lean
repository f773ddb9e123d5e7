import CilCompiler.Json.Reader
import CilCompiler.Json.Writer
import CilCompiler.Proofs.Text.Runes
import Mathlib.Tactic.SplitIfs

/-!
JSON is read as it is written. The reader goes over the text of a value and comes out with the value (`run_writeIndented`),
whatever follows it, as long as the text nests no deeper than the reader allows.
-/

namespace CilCompiler.Json

/-- The characters of bytes. -/
def shown (bs : List UInt8) : List Char := (Text.mk bs).chars

theorem shown_append_ofChars (cs : List Char) (bs : List UInt8) : shown ((Text.ofChars cs).bytes ++ bs) = cs ++ shown bs :=
  Text.chars_append_ofChars cs bs

/-- A byte of a plain character. -/
theorem shown_cons {b : UInt8} {c : Char} (h : b < 0x80 ∧ Char.ofNat b.toNat = c) (bs : List UInt8) :
    shown (b :: bs) = c :: shown bs := by
  simp [shown, Text.chars, Text.runes, Text.runesFrom, Text.headRune, h, Text.shown]

/-! ### Values that are written -/

mutual

/-- The texts of a value are valid and its numbers are whole. -/
def IsPlain : Json → Prop
  | .null | .bool _ => True
  | .number n => ∃ i, n = Text.ofInt i
  | .string s => s.isValid = true
  | .array vs => ArePlain vs
  | .object ms => MembersPlain ms

def ArePlain : List Json → Prop
  | [] => True
  | v :: vs => v.IsPlain ∧ ArePlain vs

def MembersPlain : List (Text × Json) → Prop
  | [] => True
  | (k, v) :: ms => k.isValid = true ∧ v.IsPlain ∧ MembersPlain ms

end

mutual

/-- The most containers that are open at once in the text of a value. -/
def depth : Json → Nat
  | .null | .bool _ | .number _ | .string _ => 0
  | .array vs => depthOfItems vs + 1
  | .object ms => depthOfMembers ms + 1

def depthOfItems : List Json → Nat
  | [] => 0
  | v :: vs => max v.depth (depthOfItems vs)

def depthOfMembers : List (Text × Json) → Nat
  | [] => 0
  | (_, v) :: ms => max v.depth (depthOfMembers ms)

end

/-! ### Steps of the reader -/

namespace Reader

variable {stack : List Open} {mode : Mode}

/-- How the reader goes on from what a character did to it, when the value does not end before the character. -/
def resume : Progress → List Char → Option (Json × List Char)
  | .more r, cs => r.run cs
  | .done v, cs => some (v, cs)
  | .ended _, _ => none
  | .bad, _ => none

theorem run_more {r q : Reader} {c : Char} (h : r.step c = .more q) (cs : List Char) : r.run (c :: cs) = q.run cs := by
  rw [run, h]

theorem run_cons {r : Reader} {c : Char} {p : Progress} (h : r.step c = p) (hp : ∀ v, p ≠ .ended v) (cs : List Char) :
    r.run (c :: cs) = resume p cs := by
  rw [run, h]
  cases p with
  | ended v => exact absurd rfl (hp v)
  | _ => rfl

/-- A whole value is the result, or goes into the container around it. -/
theorem complete_cases (stack : List Open) (v : Json) :
    complete stack v = .done v ∨ (∃ stack', complete stack v = .more ⟨.after, stack'⟩) ∨ complete stack v = .bad := by
  unfold complete
  split
  · exact .inl rfl
  · exact .inr (.inl ⟨_, rfl⟩)
  · exact .inr (.inl ⟨_, rfl⟩)
  · exact .inr (.inr rfl)

theorem complete_ne_ended (stack : List Open) (v w : Json) : complete stack v ≠ .ended w := by
  rcases complete_cases stack v with h | ⟨_, h⟩ | h <;> simp [h]

theorem endString_ne_ended (stack : List Open) (t : Text) (w : Json) : endString stack t ≠ .ended w := by
  unfold endString
  split
  · simp
  · exact complete_ne_ended _ _ _

/-- The reader waits for a value: a list that may end at once waits for one too, if the list does not end. -/
structure Expects (mode : Mode) (stack : List Open) : Prop where
  step : ∀ c, isSpace c = false → c ≠ ']' → step ⟨mode, stack⟩ c = start stack c
  /-- A string is a value here, no key. -/
  string : ∀ s, endString stack s = complete stack (.string s)

theorem expects_whole : Expects .value [] := ⟨fun c hs _ => by simp [step, hs], fun _ => rfl⟩

theorem expects_firstItem {items : List Json} : Expects .firstItem (.array items :: stack) :=
  ⟨fun c hs hc => by simp [step, hs, hc], fun _ => rfl⟩

theorem expects_item {items : List Json} : Expects .value (.array items :: stack) :=
  ⟨fun c hs _ => by simp [step, hs], fun _ => rfl⟩

theorem expects_member {ms : List (Text × Json)} {k : Text} : Expects .value (.object ms (some k) :: stack) :=
  ⟨fun c hs _ => by simp [step, hs], fun _ => rfl⟩

/-! ### Blanks -/

/-- The reader passes over blanks. -/
def SkipsBlanks (r : Reader) : Prop := ∀ c, isSpace c = true → r.step c = .more r

theorem skipsBlanks_value : SkipsBlanks ⟨.value, stack⟩ := fun c hc => by simp [step, hc]

theorem skipsBlanks_firstItem : SkipsBlanks ⟨.firstItem, stack⟩ := fun c hc => by simp [step, hc]

theorem skipsBlanks_firstKey : SkipsBlanks ⟨.firstKey, stack⟩ := fun c hc => by simp [step, hc]

theorem skipsBlanks_key : SkipsBlanks ⟨.key, stack⟩ := fun c hc => by simp [step, hc]

theorem skipsBlanks_after : SkipsBlanks ⟨.after, stack⟩ := fun c hc => by simp [step, separator, hc]

theorem run_blanks {r : Reader} (h : r.SkipsBlanks) (n : Nat) (tail : List UInt8) :
    r.run (shown (List.replicate n 32 ++ tail)) = r.run (shown tail) := by
  induction n with
  | zero => rfl
  | succ n ih =>
    rw [List.replicate_succ, List.cons_append, shown_cons (c := ' ') (by decide), run_more (h _ (by decide)), ih]

theorem run_newline {r : Reader} (h : r.SkipsBlanks) (level : Nat) (tail : List UInt8) :
    r.run (shown (newline level tail)) = r.run (shown tail) := by
  rw [newline, shown_cons (c := '\n') (by decide), run_more (h _ (by decide)), run_blanks h]

/-! ### Strings -/

theorem run_unicode {a b c d : Char} {i j k l n : Nat} (ha : Text.hexDigit? a = some i) (hb : Text.hexDigit? b = some j)
    (hc : Text.hexDigit? c = some k) (hd : Text.hexDigit? d = some l) (hn : ((i * 16 + j) * 16 + k) * 16 + l = n)
    (hs : n < 0xD800) (acc cs : List Char) :
    run ⟨.string acc none, stack⟩ ('\\' :: 'u' :: a :: b :: c :: d :: cs) =
      run ⟨.string (Char.ofNat n :: acc) none, stack⟩ cs := by
  have hcode : addCode acc none n = (Char.ofNat n :: acc, none) := by
    rw [addCode, if_neg (by omega), if_neg (by omega)]
    rfl
  simp [run, step, ha, hb, hc, hd, hn, hcode]

theorem hexDigit?_digitChar : ∀ n < 16, Text.hexDigit? (Nat.digitChar n) = some n := by decide

/-- The characters that are escaped by number. -/
def numbered : List Nat := List.range 0x20 ++ [0x3C, 0x3E, 0x26, 0x2028, 0x2029]

theorem hex_numbered : ∀ n ∈ numbered, ("\\u" ++ Text.hex 4 n : Text) = Text.ofChars
    ['\\', 'u', Nat.digitChar (n / 4096), Nat.digitChar (n / 256 % 16), Nat.digitChar (n / 16 % 16),
      Nat.digitChar (n % 16)] ∧
      n < 0xD800 := by
  decide

theorem run_numbered {n : Nat} (hn : n ∈ numbered) (acc cs : List Char) :
    run ⟨.string acc none, stack⟩ (['\\', 'u', Nat.digitChar (n / 4096), Nat.digitChar (n / 256 % 16),
      Nat.digitChar (n / 16 % 16), Nat.digitChar (n % 16)] ++ cs) = run ⟨.string (Char.ofNat n :: acc) none, stack⟩ cs := by
  have hlt := (hex_numbered n hn).2
  exact run_unicode (hexDigit?_digitChar _ (by omega)) (hexDigit?_digitChar _ (by omega)) (hexDigit?_digitChar _ (by omega))
    (hexDigit?_digitChar _ (by omega)) (by omega) hlt acc cs

/-- A character of a string is read from the way it is written. -/
theorem run_escapeRune (c : Char) : ∃ cs, escapeRune (.scalar c) = Text.ofChars cs ∧
    ∀ (stack : List Open) (acc rest : List Char),
      run ⟨.string acc none, stack⟩ (cs ++ rest) = run ⟨.string (c :: acc) none, stack⟩ rest := by
  have short : ∀ {n : Nat} {d e : Char}, c.toNat = n → Char.ofNat n = e → shortEscape? d = some e → d ≠ 'u' →
      ∀ (stack : List Open) (acc rest : List Char),
        run ⟨.string acc none, stack⟩ (['\\', d] ++ rest) = run ⟨.string (c :: acc) none, stack⟩ rest := by
    rintro _ d e rfl he hd hu stack acc rest
    rw [Char.ofNat_toNat] at he
    subst he
    simp [run, step, hd, hu, settle]
  unfold escapeRune
  dsimp only
  split_ifs with h₁ h₂ h₃ h₄ h₅ h₆ h₇ h₈
  · subst h₁
    exact ⟨['\\', '"'], by decide, short rfl rfl rfl (by decide)⟩
  · subst h₂
    exact ⟨['\\', '\\'], by decide, short rfl rfl rfl (by decide)⟩
  · exact ⟨['\\', 'b'], by decide, short h₃ rfl rfl (by decide)⟩
  · exact ⟨['\\', 'f'], by decide, short h₄ rfl rfl (by decide)⟩
  · exact ⟨['\\', 'n'], by decide, short h₅ rfl rfl (by decide)⟩
  · exact ⟨['\\', 'r'], by decide, short h₆ rfl rfl (by decide)⟩
  · exact ⟨['\\', 't'], by decide, short h₇ rfl rfl (by decide)⟩
  · have hn : c.toNat ∈ numbered := by
      simp only [numbered, List.mem_append, List.mem_range, List.mem_cons, List.not_mem_nil, or_false]
      rcases h₈ with h | rfl | rfl | rfl | h | h
      · exact .inl h
      all_goals simp [*]
    refine ⟨_, (hex_numbered _ hn).1, fun stack acc rest => ?_⟩
    rw [run_numbered hn, Char.ofNat_toNat]
  · have hc : ¬c.toNat < 0x20 := fun h => h₈ (.inl h)
    refine ⟨[c], by simp [Text.ofChars, Text.ofChar], fun stack acc rest => ?_⟩
    exact run_more (by simp [step, h₁, h₂, hc, settle]) rest

theorem run_characters (cs acc : List Char) (tail : List UInt8) :
    run ⟨.string acc none, stack⟩ (shown (cs.foldr (fun c tail => (escapeRune (.scalar c)).bytes ++ tail) (34 :: tail))) =
      resume (endString stack (Text.ofChars (acc.reverse ++ cs))) (shown tail) := by
  induction cs generalizing acc with
  | nil =>
    rw [List.foldr_nil, shown_cons (c := '"') (by decide), List.append_nil]
    exact run_cons (p := endString _ _) rfl (endString_ne_ended _ _) _
  | cons c cs ih =>
    obtain ⟨es, he, hr⟩ := run_escapeRune c
    rw [List.foldr_cons, he, shown_append_ofChars, hr, ih]
    simp

theorem run_writeString {t : Text} (ht : t.isValid = true) (hm : step ⟨mode, stack⟩ '"' = .more ⟨.string [] none, stack⟩)
    (tail : List UInt8) :
    run ⟨mode, stack⟩ (shown (writeString t tail)) = resume (endString stack t) (shown tail) := by
  rw [writeString, Text.runes_of_isValid ht, List.foldr_map, shown_cons (c := '"') (by decide), run_more hm, run_characters,
    List.reverse_nil, List.nil_append, Text.ofChars_chars ht]

/-! ### Numbers -/

/-- What follows cannot be taken for a part of a number. -/
def Stops (tail : List UInt8) : Prop := ∃ c cs, shown tail = c :: cs ∧ (isSpace c = true ∨ c = ',')

theorem stops_newline (level : Nat) (tail : List UInt8) : Stops (newline level tail) :=
  ⟨'\n', _, by rw [newline, shown_cons (c := '\n') (by decide)], .inl (by decide)⟩

theorem stops_comma (tail : List UInt8) : Stops (44 :: tail) := ⟨',', _, shown_cons (by decide) _, .inr rfl⟩

/-- The characters of a whole number. -/
def wholeChars (i : Int) : List Char := (if i < 0 then ['-'] else []) ++ Nat.toDigits 10 i.natAbs

theorem ofInt_eq (i : Int) : Text.ofInt i = Text.ofChars (wholeChars i) := by
  unfold Text.ofInt wholeChars
  split
  · simp only [Text.ofNat, Text.ofChars, List.flatMap_append]
    rfl
  · rfl

theorem toDigits_cases (n : Nat) : Nat.toDigits 10 n = ['0'] ∨
    ∃ d ds, Nat.toDigits 10 n = d :: ds ∧ d ≠ '0' ∧ isDigit d = true ∧ ∀ e ∈ ds, isDigit e = true := by
  induction n using Nat.strongRecOn with
  | ind n ih =>
    by_cases hn : n < 10
    · rw [Nat.toDigits_of_lt_base hn]
      by_cases h0 : n = 0
      · exact .inl (by rw [h0]; rfl)
      · have : ∀ k < 10, k ≠ 0 → Nat.digitChar k ≠ '0' ∧ isDigit (Nat.digitChar k) = true := by decide
        exact .inr ⟨_, [], rfl, (this n hn h0).1, (this n hn h0).2, by simp⟩
    · rw [Nat.toDigits_of_base_le (by decide) (by omega)]
      have hlast : isDigit (n % 10).digitChar = true := by
        have : ∀ k < 10, isDigit (Nat.digitChar k) = true := by decide
        exact this _ (Nat.mod_lt n (by decide))
      rcases ih (n / 10) (by omega) with h | ⟨d, ds, h, hd, hdd, hds⟩
      · have := congrArg (fun ds => Nat.ofDigitChars 10 ds 0) h
        rw [Nat.ofDigitChars_toDigits (by decide) (by decide)] at this
        have h0 : Nat.ofDigitChars 10 ['0'] 0 = 0 := by decide
        omega
      · refine .inr ⟨d, ds ++ [(n % 10).digitChar], by rw [h]; rfl, hd, hdd, ?_⟩
        intro e he
        rcases List.mem_append.mp he with he | he
        · exact hds e he
        · rw [List.mem_singleton.mp he]
          exact hlast

/-- A number goes on as long as there are digits. -/
theorem run_digits {ds : List Char} (hd : ∀ d ∈ ds, isDigit d = true) (acc cs : List Char) :
    run ⟨.number acc .whole, stack⟩ (ds ++ cs) = run ⟨.number (ds.reverse ++ acc) .whole, stack⟩ cs := by
  induction ds generalizing acc with
  | nil => rfl
  | cons d ds ih =>
    have hs : step ⟨.number acc .whole, stack⟩ d = .more ⟨.number (d :: acc) .whole, stack⟩ := by
      simp [step, Digits.next?, hd d (List.mem_cons_self ..)]
    rw [List.cons_append, run_more hs, ih fun e he => hd e (List.mem_cons_of_mem _ he)]
    simp

/-- A number ends where something else begins. -/
theorem run_endNumber {part : Digits} (hp : part = .zero ∨ part = .whole) (acc : List Char) {tail : List UInt8}
    (ht : Stops tail) : run ⟨.number acc part, stack⟩ (shown tail) =
      resume (complete stack (.number (Text.ofChars acc.reverse))) (shown tail) := by
  obtain ⟨c, cs, hc, hs⟩ := ht
  have hnext : part.next? c = none := by
    have : c = ' ' ∨ c = '\t' ∨ c = '\n' ∨ c = '\r' ∨ c = ',' := by simpa [isSpace, or_assoc] using hs
    rcases hp with rfl | rfl <;> rcases this with rfl | rfl | rfl | rfl | rfl <;> decide
  have hdone : part.isComplete = true := by rcases hp with rfl | rfl <;> rfl
  have hstep : step ⟨.number acc part, stack⟩ c = endNumber stack (.number (Text.ofChars acc.reverse)) c := by
    simp [step, hnext, hdone]
  rw [hc, run, hstep, endNumber]
  rcases complete_cases stack (.number (Text.ofChars acc.reverse)) with h | ⟨_, h⟩ | h <;> rw [h] <;> rfl

theorem digit_ne {d c : Char} (hd : isDigit d = true) (hc : isDigit c = false) : d ≠ c := by
  rintro rfl
  rw [hd] at hc
  cases hc

theorem start_digit {d : Char} (hd : isDigit d = true) (h0 : d ≠ '0') (stack : List Open) :
    start stack d = .more ⟨.number [d] .whole, stack⟩ := by
  simp [start, digit_ne hd (c := '[') (by decide), digit_ne hd (c := '\x7b') (by decide),
      digit_ne hd (c := '"') (by decide),
    digit_ne hd (c := '-') (by decide), h0, hd]

theorem isSpace_digit {d : Char} (hd : isDigit d = true) : isSpace d = false := by
  simp [isSpace, digit_ne hd (c := ' ') (by decide), digit_ne hd (c := '\t') (by decide),
      digit_ne hd (c := '\n') (by decide),
    digit_ne hd (c := '\r') (by decide)]

theorem run_number (i : Int) {tail : List UInt8} (hm : Expects mode stack) (ht : Stops tail) :
    run ⟨mode, stack⟩ (shown ((Text.ofInt i).bytes ++ tail)) =
      resume (complete stack (.number (Text.ofInt i))) (shown tail) := by
  rw [ofInt_eq, shown_append_ofChars, wholeChars]
  split
  · -- behind a sign the number starts anew
    have hsign : step ⟨mode, stack⟩ '-' = .more ⟨.number ['-'] .sign, stack⟩ := hm.step '-' (by decide) (by decide)
    rw [List.singleton_append, List.cons_append, run_more hsign]
    rcases toDigits_cases i.natAbs with h | ⟨d, ds, h, h0, hd, hds⟩
    · rw [h, List.singleton_append, run_more (q := ⟨.number ['0', '-'] .zero, stack⟩) rfl, run_endNumber (.inl rfl) _ ht]
      rfl
    · have hstep : step ⟨.number ['-'] .sign, stack⟩ d = .more ⟨.number [d, '-'] .whole, stack⟩ := by
        simp [step, Digits.next?, h0, hd]
      rw [h, List.cons_append, run_more hstep, run_digits hds, run_endNumber (.inr rfl) _ ht]
      simp
  · rw [List.nil_append]
    rcases toDigits_cases i.natAbs with h | ⟨d, ds, h, h0, hd, hds⟩
    · rw [h, List.singleton_append, run_more (q := ⟨.number ['0'] .zero, stack⟩) (hm.step '0' (by decide) (by decide)),
        run_endNumber (.inl rfl) _ ht]
      rfl
    · have hstep := (hm.step d (isSpace_digit hd) (digit_ne hd (by decide))).trans (start_digit hd h0 stack)
      rw [h, List.cons_append, run_more hstep, run_digits hds, run_endNumber (.inr rfl) _ ht]
      simp

/-! ### Whole values -/

theorem run_word (v : Json) (d : Char) (ds cs : List Char) :
    run ⟨.word (d :: ds) v, stack⟩ (d :: ds ++ cs) = resume (complete stack v) cs := by
  induction ds generalizing d with
  | nil => exact run_cons (by simp [step]) (complete_ne_ended stack v) cs
  | cons e es ih =>
    rw [List.cons_append, run_more (q := ⟨.word (e :: es) v, stack⟩) (by simp [step])]
    exact ih e

theorem run_writeWord {s : String} {c d : Char} {ds : List Char} {v : Json} (hs : (s : Text) = Text.ofChars (c :: d :: ds))
    (hc : step ⟨mode, stack⟩ c = .more ⟨.word (d :: ds) v, stack⟩) (tail : List UInt8) :
    run ⟨mode, stack⟩ (shown (writeWord s tail)) = resume (complete stack v) (shown tail) := by
  rw [writeWord, hs, shown_append_ofChars, List.cons_append, run_more hc, run_word]

theorem push_of_lt (mode : Mode) (o : Open) (h : stack.length < nestingLimit) :
    push stack o mode = .more ⟨mode, o :: stack⟩ := by
  rw [push, if_pos h]

/-- The end of a list. -/
theorem run_closeArray (items : List Json) (tail : List UInt8) :
    run ⟨.after, .array items :: stack⟩ (shown (93 :: tail)) =
      resume (complete stack (.array items.reverse)) (shown tail) := by
  rw [shown_cons (c := ']') (by decide)]
  exact run_cons (p := complete stack (.array items.reverse)) (by simp [step, separator, isSpace]) (complete_ne_ended _ _) _

theorem run_closeObject (ms : List (Text × Json)) (key : Option Text) (tail : List UInt8) :
    run ⟨.after, .object ms key :: stack⟩ (shown (125 :: tail)) =
      resume (complete stack (.object ms.reverse)) (shown tail) := by
  rw [shown_cons (c := '\x7d') (by decide)]
  exact run_cons (p := complete stack (.object ms.reverse)) (by simp [step, separator, isSpace]) (complete_ne_ended _ _) _

theorem stops_items (level : Nat) (vs : List Json) {tail : List UInt8} (ht : Stops tail) :
    Stops (writeIndentedItems level vs tail) := by
  cases vs with
  | nil => simpa [writeIndentedItems] using ht
  | cons v vs => simpa [writeIndentedItems] using stops_comma _

theorem stops_members (level : Nat) (ms : List (Text × Json)) {tail : List UInt8} (ht : Stops tail) :
    Stops (writeIndentedMembers level ms tail) := by
  cases ms with
  | nil => simpa [writeIndentedMembers] using ht
  | cons m ms => simpa [writeIndentedMembers] using stops_comma _

/-- A key up to the place where its value starts. -/
theorem run_key {k : Text} (hk : k.isValid = true) (ms : List (Text × Json))
    (hm : step ⟨mode, .object ms none :: stack⟩ '"' = .more ⟨.string [] none, .object ms none :: stack⟩)
    (tail : List UInt8) :
    run ⟨mode, .object ms none :: stack⟩ (shown (writeString k (58 :: 32 :: tail))) =
      run ⟨.value, .object ms (some k) :: stack⟩ (shown tail) := by
  rw [run_writeString hk hm]
  show run ⟨.colon, .object ms (some k) :: stack⟩ (shown (58 :: 32 :: tail)) = _
  rw [shown_cons (c := ':') (by decide), run_more (q := ⟨.value, .object ms (some k) :: stack⟩) rfl,
    shown_cons (c := ' ') (by decide), run_more (skipsBlanks_value _ (by decide))]

mutual

/-- The text of a value is read as the value. -/
theorem run_writeIndented : (v : Json) → v.IsPlain → ∀ {mode : Mode} {stack : List Open} {tail : List UInt8} (level : Nat),
    Expects mode stack → stack.length + v.depth ≤ nestingLimit → Stops tail →
    run ⟨mode, stack⟩ (shown (writeIndented level v tail)) = resume (complete stack v) (shown tail)
  | .null, _, _, _, _, _, hm, _, _ => by
    rw [writeIndented]
    exact run_writeWord (by decide) (hm.step 'n' (by decide) (by decide)) _
  | .bool true, _, _, _, _, _, hm, _, _ => by
    rw [writeIndented]
    exact run_writeWord (by decide) (hm.step 't' (by decide) (by decide)) _
  | .bool false, _, _, _, _, _, hm, _, _ => by
    rw [writeIndented]
    exact run_writeWord (by decide) (hm.step 'f' (by decide) (by decide)) _
  | .number _, h, _, _, _, _, hm, _, ht => by
    obtain ⟨i, rfl⟩ := h
    rw [writeIndented]
    exact run_number i hm ht
  | .string s, h, mode, stack, tail, _, hm, _, _ => by
    rw [writeIndented, run_writeString h (hm.step '"' (by decide) (by decide)), hm.string]
  | .array [], _, mode, stack, tail, _, hm, hd, _ => by
    have hopen := (hm.step '[' (by decide) (by decide)).trans (push_of_lt .firstItem (.array []) (by
      simp only [depth] at hd
      omega))
    rw [writeIndented, shown_cons (c := '[') (by decide), run_more hopen, shown_cons (c := ']') (by decide)]
    exact run_cons (p := complete stack (.array [])) rfl (complete_ne_ended _ _) _
  | .array (v :: vs), h, mode, stack, tail, level, hm, hd, _ => by
    simp only [depth, depthOfItems] at hd
    have hopen := (hm.step '[' (by decide) (by decide)).trans (push_of_lt .firstItem (.array []) (by omega))
    have hclose := stops_newline level (93 :: tail)
    rw [writeIndented, shown_cons (c := '[') (by decide), run_more hopen, run_newline skipsBlanks_firstItem,
      run_writeIndented v h.1 (level + 1) expects_firstItem (by simp only [List.length_cons]; omega)
        (stops_items _ _ hclose)]
    show run ⟨.after, .array [v] :: stack⟩ _ = _
    rw [run_items vs h.2 level (by omega) hclose, run_newline skipsBlanks_after, run_closeArray]
    simp
  | .object [], _, mode, stack, tail, _, hm, hd, _ => by
    have hopen := (hm.step '\x7b' (by decide) (by decide)).trans (push_of_lt .firstKey (.object [] none) (by
      simp only [depth] at hd
      omega))
    rw [writeIndented, shown_cons (c := '\x7b') (by decide), run_more hopen, shown_cons (c := '\x7d') (by decide)]
    exact run_cons (p := complete stack (.object [])) rfl (complete_ne_ended _ _) _
  | .object ((k, v) :: ms), h, mode, stack, tail, level, hm, hd, _ => by
    simp only [depth, depthOfMembers] at hd
    have hopen := (hm.step '\x7b' (by decide) (by decide)).trans (push_of_lt .firstKey (.object [] none) (by omega))
    have hclose := stops_newline level (125 :: tail)
    rw [writeIndented, shown_cons (c := '\x7b') (by decide), run_more hopen, run_newline skipsBlanks_firstKey,
      run_key h.1 [] rfl, run_writeIndented v h.2.1 (level + 1) expects_member (by simp only [List.length_cons]; omega)
        (stops_members _ _ hclose)]
    show run ⟨.after, .object [(k, v)] none :: stack⟩ _ = _
    rw [run_members ms h.2.2 level (by omega) hclose, run_newline skipsBlanks_after, run_closeObject]
    simp

theorem run_items : (vs : List Json) → ArePlain vs →
    ∀ {items : List Json} {stack : List Open} {tail : List UInt8} (level : Nat),
    stack.length + 1 + depthOfItems vs ≤ nestingLimit → Stops tail →
    run ⟨.after, .array items :: stack⟩ (shown (writeIndentedItems level vs tail)) =
      run ⟨.after, .array (vs.reverse ++ items) :: stack⟩ (shown tail)
  | [], _, _, _, _, _, _, _ => by simp [writeIndentedItems]
  | v :: vs, h, items, stack, tail, level, hd, ht => by
    simp only [depthOfItems] at hd
    rw [writeIndentedItems, shown_cons (c := ',') (by decide), run_more (q := ⟨.value, .array items :: stack⟩) rfl,
      run_newline skipsBlanks_value,
        run_writeIndented v h.1 (level + 1) expects_item (by simp only [List.length_cons]; omega)
        (stops_items _ _ ht)]
    show run ⟨.after, .array (v :: items) :: stack⟩ _ = _
    rw [run_items vs h.2 level (by omega) ht]
    simp

theorem run_members : (ms : List (Text × Json)) → MembersPlain ms → ∀ {items : List (Text × Json)} {stack : List Open}
    {tail : List UInt8} (level : Nat), stack.length + 1 + depthOfMembers ms ≤ nestingLimit → Stops tail →
    run ⟨.after, .object items none :: stack⟩ (shown (writeIndentedMembers level ms tail)) =
      run ⟨.after, .object (ms.reverse ++ items) none :: stack⟩ (shown tail)
  | [], _, _, _, _, _, _, _ => by simp [writeIndentedMembers]
  | (k, v) :: ms, h, items, stack, tail, level, hd, ht => by
    simp only [depthOfMembers] at hd
    rw [writeIndentedMembers, shown_cons (c := ',') (by decide), run_more (q := ⟨.key, .object items none :: stack⟩) rfl,
      run_newline skipsBlanks_key, run_key h.1 items rfl, run_writeIndented v h.2.1 (level + 1) expects_member
        (by simp only [List.length_cons]; omega) (stops_members _ _ ht)]
    show run ⟨.after, .object ((k, v) :: items) none :: stack⟩ _ = _
    rw [run_members ms h.2.2 level (by omega) ht]
    simp

end

end Reader

/-! ### What follows a text -/

theorem writeString_append (t : Text) (tail rest : List UInt8) :
    writeString t tail ++ rest = writeString t (tail ++ rest) := by
  simp only [writeString, List.cons_append]
  congr 1
  induction t.runes with
  | nil => rfl
  | cons r rs ih => simp only [List.foldr_cons, List.append_assoc, ih]

theorem newline_append (level : Nat) (tail rest : List UInt8) :
    newline level tail ++ rest = newline level (tail ++ rest) := by
  simp [newline]

mutual

theorem writeIndented_append (rest : List UInt8) : (v : Json) → (level : Nat) → (tail : List UInt8) →
    writeIndented level v tail ++ rest = writeIndented level v (tail ++ rest)
  | .null, _, tail | .bool _, _, tail | .number _, _, tail => by simp [writeIndented, writeWord]
  | .string s, _, tail => by simp [writeIndented, writeString_append]
  | .array [], _, tail | .object [], _, tail => by simp [writeIndented]
  | .array (v :: vs), level, tail => by
    simp only [writeIndented, List.cons_append, newline_append, writeIndented_append rest v,
        writeIndentedItems_append rest vs]
  | .object ((_, v) :: ms), level, tail => by
    simp only [writeIndented, List.cons_append, newline_append, writeString_append, writeIndented_append rest v,
      writeIndentedMembers_append rest ms]

theorem writeIndentedItems_append (rest : List UInt8) : (vs : List Json) → (level : Nat) → (tail : List UInt8) →
    writeIndentedItems level vs tail ++ rest = writeIndentedItems level vs (tail ++ rest)
  | [], _, tail => by simp [writeIndentedItems]
  | v :: vs, level, tail => by
    simp only [writeIndentedItems, List.cons_append, newline_append, writeIndented_append rest v,
        writeIndentedItems_append rest vs]

theorem writeIndentedMembers_append (rest : List UInt8) : (ms : List (Text × Json)) → (level : Nat) → (tail : List UInt8) →
    writeIndentedMembers level ms tail ++ rest = writeIndentedMembers level ms (tail ++ rest)
  | [], _, tail => by simp [writeIndentedMembers]
  | (_, v) :: ms, level, tail => by
    simp only [writeIndentedMembers, List.cons_append, newline_append, writeString_append, writeIndented_append rest v,
      writeIndentedMembers_append rest ms]

end

/-- The text of a value is read as the value, whatever follows it. -/
theorem readFirst?_pretty {v : Json} (hv : v.IsPlain) (hd : v.depth ≤ Reader.nestingLimit) (rest : Text) :
    ∃ cs, readFirst? (v.pretty ++ rest).chars = some (v, cs) := by
  have htail : Reader.Stops (10 :: rest.bytes) := ⟨'\n', _, shown_cons (by decide) _, .inl (by decide)⟩
  have hrun := Reader.run_writeIndented v hv 0 Reader.expects_whole (by simpa using hd) htail
  refine ⟨_, Eq.trans ?_ hrun⟩
  show Reader.run {} (shown (writeIndented 0 v [10] ++ rest.bytes)) = _
  rw [writeIndented_append]
  rfl

end CilCompiler.Json
