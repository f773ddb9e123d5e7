import CilCompiler.Proofs.Text.Runes
import CilCompiler.Symbols
import Mathlib.Data.List.Induction

/-!
Composition and the ending of array names. A bracket composes with nothing and no character is taken apart into
one, so the composed form of an array's name is that of its element type's name with the ending behind it, and
only names that end in brackets have such a form (`TypeName.key_array`, `TypeName.elem?_of_key`).
-/

namespace CilCompiler.Text

/-! ### Tables -/

/-- The rows of a line given by its characters, last first. -/
def readRows (cs : List Char) : List (List Nat) := (cs.foldl TableReader.read {}).endRow.rows

/-- All rows of some lines are of a kind. -/
inductive AllRows (P : List Nat → Bool) : List String → Prop where
  | nil : AllRows P []
  | cons {cs : List Char} {lines : List String} (row : (readRows cs).all P = true) (rest : AllRows P lines) :
    AllRows P (String.ofList cs :: lines)

theorem AllRows.of_mem {P : List Nat → Bool} {lines : List String} (h : AllRows P lines) {row : List Nat}
    (hr : row ∈ hexLines lines) : P row = true := by
  induction h with
  | nil => simp [hexLines] at hr
  | cons hc _ ih =>
    simp only [hexLines, hexRows, Array.mem_flatten, List.map_toArray, List.map_cons, List.mem_toArray, List.mem_cons,
      exists_eq_or_imp, String.foldl_eq_foldl_toList, String.toList_ofList, List.mem_reverse] at hr ih
    rcases hr with hr | hr
    · exact List.all_eq_true.1 hc row hr
    · exact ih hr

/-- Whether a character is a square bracket. -/
def isBracket (n : Nat) : Bool := n = 0x5B || n = 0x5D

theorem isBracket_lt {n : Nat} (h : isBracket n = true) : n < 0xC0 := by
  simp only [isBracket, Bool.or_eq_true, decide_eq_true_eq] at h
  omega

/-- A row of compositions in which no bracket is the second part or the whole. -/
def composesLetters : List Nat → Bool
  | [_, second, whole] => 0xC0 ≤ second && 0xC0 ≤ whole
  | _ => true

/-- A row of decompositions that does not end in a bracket. -/
def endsInLetter : List Nat → Bool
  | _ :: parts => parts.getLast?.any fun n => !isBracket n
  | [] => true

theorem compositionTable_letters : AllRows composesLetters compositionTable := by
  repeat (apply AllRows.cons; · decide +kernel)
  exact .nil

theorem decompositionTable_letters : AllRows endsInLetter decompositionTable := by
  repeat (apply AllRows.cons; · decide +kernel)
  exact .nil

/-- A row of marks above the brackets. -/
def isAbove : List Nat → Bool
  | [one] => 0xC0 ≤ one
  | [first, _] => 0xC0 ≤ first
  | _ => true

theorem compatibleMarkTable_above : AllRows isAbove compatibleMarkTable := by
  repeat (apply AllRows.cons; · decide +kernel)
  exact .nil

/-- What the tables say of the characters in their rows. -/
structure TablesKnown : Prop where
  compositions : ∀ row ∈ compositionRows, composesLetters row = true
  decompositions : ∀ row ∈ decompositionRows, endsInLetter row = true
  marks : ∀ row ∈ compatibleMarkRows, isAbove row = true

theorem tablesKnown : TablesKnown where
  compositions _ := compositionTable_letters.of_mem
  decompositions _ := decompositionTable_letters.of_mem
  marks _ := compatibleMarkTable_above.of_mem

/-! ### Brackets among numbers -/

theorem decomposition_bracket {a : Nat} (ha : isBracket a = true) : decomposition a = [a] := by
  simp [decomposition, isBracket_lt ha]

theorem combiningClass_low {n : Nat} (hn : n < 0x300) : combiningClass n = 0 := by simp [combiningClass, hn]

theorem combiningClass_bracket {a : Nat} (ha : isBracket a = true) : combiningClass a = 0 :=
  combiningClass_low (by have := isBracket_lt ha; omega)

theorem composition?_bracket {a : Nat} (ha : isBracket a = true) (x : Nat) : composition? x a = none := by
  have hlt := isBracket_lt ha
  have hrows : (compositionRows.findSome? fun
      | [x', y, z] => if x' = x ∧ y = a then some z else none
      | _ => none) = none := by
    rw [Array.findSome?_eq_none_iff]
    intro row hrow
    have hl := tablesKnown.compositions row hrow
    split
    · simp only [composesLetters, Bool.and_eq_true, decide_eq_true_eq] at hl
      rw [if_neg (by omega)]
    · rfl
  unfold composition?
  rw [if_neg (by omega), if_neg (by omega)]
  exact hrows

/-- Nothing composes to a bracket. -/
theorem composition?_whole {x y z : Nat} (h : composition? x y = some z) : 0xC0 ≤ z := by
  unfold composition? at h
  split at h
  · injection h with h
    omega
  · split at h
    · injection h with h
      omega
    · obtain ⟨row, hrow, h⟩ := Array.exists_of_findSome?_eq_some h
      have hl := tablesKnown.compositions row hrow
      split at h
      · split at h
        · injection h with h
          simp only [composesLetters, Bool.and_eq_true, decide_eq_true_eq] at hl
          omega
        · cases h
      · cases h

theorem isMark_bracket {a : Nat} (ha : isBracket a = true) : isMark a = false := by
  have hlt := isBracket_lt ha
  have h₁ : ¬0x1161 ≤ a := by omega
  have h₂ : ¬0x11A7 ≤ a := by omega
  simp only [isMark, isSecond, combiningClass_bracket ha, h₁, h₂, decide_false, Bool.false_and, Bool.false_or, ne_eq,
    not_true_eq_false]
  rw [Array.any_eq_false']
  intro row hrow
  have hl := tablesKnown.compositions row hrow
  split
  · simp only [composesLetters, Bool.and_eq_true, decide_eq_true_eq] at hl
    simp only [decide_eq_true_eq]
    omega
  · simp

theorem leadingMarks_bracket {a : Nat} (ha : isBracket a = true) : leadingMarks a = 0 := by
  have hlt := isBracket_lt ha
  have hrows : inRanges compatibleMarkRows a = false := by
    rw [inRanges, Array.any_eq_false']
    intro row hrow
    have hl := tablesKnown.marks row hrow
    split
    · simp only [isAbove, decide_eq_true_eq] at hl
      simp only [Bool.and_eq_true, decide_eq_true_eq]
      omega
    · simp only [isAbove, decide_eq_true_eq] at hl
      simp only [beq_iff_eq]
      omega
    · simp
  simp [leadingMarks, hrows, decomposition_bracket ha, isMark_bracket ha]

/-- A character is taken apart into characters of which the last is no bracket, or stays whole. -/
theorem decomposition_cases (n : Nat) :
    decomposition n = [n] ∨ ∃ z, (decomposition n).getLast? = some z ∧ isBracket z = false := by
  unfold decomposition
  split
  · exact .inl rfl
  · split
    · refine .inr ?_
      have high : ∀ k, 0x1161 ≤ k → isBracket k = false := by
        intro k hk
        simp only [isBracket, Bool.or_eq_false_iff, decide_eq_false_iff_not]
        omega
      by_cases hs : (n - 0xAC00) % 28 = 0
      · exact ⟨0x1161 + (n - 0xAC00) % 588 / 28, by simp [hs], high _ (by omega)⟩
      · exact ⟨0x11A7 + (n - 0xAC00) % 28, by simp [hs], high _ (by omega)⟩
    · generalize hf : Array.findSome? _ decompositionRows = found
      rcases found with _ | parts
      · exact .inl rfl
      · obtain ⟨row, hrow, hp⟩ := Array.exists_of_findSome?_eq_some hf
        have hl := tablesKnown.decompositions row hrow
        refine .inr ?_
        split at hp
        · split at hp
          · injection hp with hp
            subst hp
            simpa [endsInLetter, Option.any_eq_true] using hl
          · cases hp
        · cases hp

theorem decomposition_last {n a : Nat} (ha : isBracket a = true) (h : (decomposition n).getLast? = some a) : n = a := by
  rcases decomposition_cases n with hn | ⟨z, hz, hb⟩
  · simpa [hn] using h
  · obtain rfl : z = a := Option.some.inj (hz.symm.trans h)
    simp [ha] at hb

theorem decomposition_ne_nil (n : Nat) : decomposition n ≠ [] := by
  rcases decomposition_cases n with hn | ⟨z, hz, _⟩
  · simp [hn]
  · intro h
    simp [h] at hz

/-! ### A bracket at the end of numbers -/

theorem breakRuns_last {a marks : Nat} {ns : List Nat} (h : (breakRuns marks ns).getLast? = some a) :
    ns.getLast? = some a := by
  induction ns generalizing marks with
  | nil => simp [breakRuns] at h
  | cons n ns ih =>
    have hrest : ∀ {k : Nat}, (n :: breakRuns k ns).getLast? = some a → (n :: ns).getLast? = some a := by
      intro k hk
      rcases ns with _ | ⟨m, ns⟩
      · simpa [breakRuns] using hk
      · have hne : breakRuns k (m :: ns) ≠ [] := by
          simp only [breakRuns]
          split
          · simp
          · split <;> simp
        rw [List.getLast?_cons_of_ne_nil hne] at hk
        rw [List.getLast?_cons_cons]
        exact ih hk
    simp only [breakRuns] at h
    split at h
    · exact hrest h
    · split at h
      · rw [List.getLast?_cons_cons] at h
        exact hrest h
      · exact hrest h

theorem mem_insertMark {m x : Nat} {marks : List Nat} (h : x ∈ insertMark m marks) : x = m ∨ x ∈ marks := by
  induction marks with
  | nil => simpa [insertMark] using h
  | cons y marks ih =>
    simp only [insertMark] at h
    split at h
    · rcases List.mem_cons.1 h with h | h
      · exact .inr (h ▸ List.mem_cons_self)
      · exact (ih h).imp_right (List.mem_cons_of_mem y)
    · exact List.mem_cons.1 h

theorem length_insertMark (m : Nat) (marks : List Nat) : (insertMark m marks).length = marks.length + 1 := by
  induction marks with
  | nil => rfl
  | cons x marks ih =>
    simp only [insertMark]
    split <;> simp [ih]

theorem length_orderMarks (marks ns : List Nat) : (orderMarks marks ns).length = marks.length + ns.length := by
  induction ns generalizing marks with
  | nil => simp [orderMarks]
  | cons n ns ih =>
    simp only [orderMarks]
    split
    · simp [ih]
    · simp [ih, length_insertMark, Nat.add_right_comm, Nat.add_assoc]

section Bracket

variable {a : Nat} (ha : isBracket a = true)
include ha

theorem breakRuns_append (marks : Nat) (ns : List Nat) : breakRuns marks (ns ++ [a]) = breakRuns marks ns ++ [a] := by
  induction ns generalizing marks with
  | nil => simp [breakRuns, leadingMarks_bracket ha]
  | cons n ns ih =>
    simp only [List.cons_append, breakRuns, ih]
    split
    · rfl
    · split <;> rfl

theorem orderMarks_append (marks ns : List Nat) : orderMarks marks (ns ++ [a]) = orderMarks marks ns ++ [a] := by
  induction ns generalizing marks with
  | nil => simp [orderMarks, combiningClass_bracket ha]
  | cons n ns ih =>
    simp only [List.cons_append, orderMarks, ih]
    split <;> simp

/-- A bracket begins a sequence of its own. -/
theorem read_bracket (s : Composer) : s.read a = { done := s.flushed, starter := some a, marks := [] } := by
  unfold Composer.read
  rcases s.starter with _ | x
  · simp [combiningClass_bracket ha]
  · simp [composition?_bracket ha, combiningClass_bracket ha]

theorem composeNumbers_append (ns : List Nat) : composeNumbers (ns ++ [a]) = composeNumbers ns ++ [a] := by
  simp [composeNumbers, breakRuns_append ha, orderMarks_append ha, read_bracket ha, decomposition_bracket ha,
    Composer.flushed]

theorem flatMap_decomposition_last {ns : List Nat} (h : (ns.flatMap decomposition).getLast? = some a) :
    ns.getLast? = some a := by
  rcases List.eq_nil_or_concat ns with rfl | ⟨ns, n, rfl⟩
  · simp at h
  · rw [List.concat_eq_append, List.flatMap_append, List.flatMap_singleton, List.getLast?_append] at h
    obtain ⟨z, hz⟩ := Option.ne_none_iff_exists'.1 (mt List.getLast?_eq_none_iff.1 (decomposition_ne_nil n))
    rw [hz, Option.some_or] at h
    rw [decomposition_last ha (hz.trans h)]
    simp

theorem orderMarks_last {marks ns : List Nat} (hm : ∀ m ∈ marks, combiningClass m ≠ 0)
    (h : (orderMarks marks ns).getLast? = some a) : ns.getLast? = some a := by
  induction ns generalizing marks with
  | nil => exact absurd (combiningClass_bracket ha) (hm a (List.mem_of_getLast? h))
  | cons n ns ih =>
    simp only [orderMarks] at h
    split at h
    · rw [List.getLast?_append, List.getLast?_cons] at h
      rcases ns with _ | ⟨x, ns⟩
      · simpa [orderMarks] using h
      · rcases hl : (orderMarks [] (x :: ns)).getLast? with _ | z
        · have hlen := length_orderMarks [] (x :: ns)
          simp [List.getLast?_eq_none_iff.1 hl] at hlen
        · rw [List.getLast?_cons_cons]
          simp only [hl, Option.getD_some, Option.some_or] at h
          exact ih (by simp) (hl.trans h)
    · rename_i hn
      have := ih (fun m hm' => (mem_insertMark hm').elim (fun e => e ▸ hn) (hm m)) h
      rcases ns with _ | ⟨x, ns⟩
      · simp at this
      · rwa [List.getLast?_cons_cons]

/-- What stands last in a sequence is the character read last, if it is a bracket. -/
theorem foldl_read_last {ns : List Nat} (h : (ns.foldl Composer.read {}).flushed.head? = some a) :
    ns.getLast? = some a := by
  have inv : (∀ m ∈ (ns.foldl Composer.read {}).marks, combiningClass m ≠ 0) ∧
      ((ns.foldl Composer.read {}).starter = some a → (ns.foldl Composer.read {}).marks = [] → ns.getLast? = some a) ∧
      ((ns.foldl Composer.read {}).starter = none → (ns.foldl Composer.read {}).done = []) := by
    clear h
    induction ns using List.reverseRecOn with
    | nil => simp
    | append_singleton ns n ih =>
      obtain ⟨hm, hs, hd⟩ := ih
      simp only [List.foldl_append, List.foldl_cons, List.foldl_nil, List.getLast?_append, List.getLast?_singleton,
        Option.some_or]
      generalize ns.foldl Composer.read {} = s at hm hs hd
      rcases hst : s.starter with _ | x
      · by_cases hn : combiningClass n = 0
        · simp [Composer.read, hst, hn]
        · simp only [Composer.read, hst, hn, if_false]
          exact ⟨by simpa [hn] using hm, by simp, fun _ => hd hst⟩
      · simp only [Composer.read, hst]
        split
        · rename_i z hz
          have hz : 0xC0 ≤ z := by
            split at hz
            · cases hz
            · exact composition?_whole hz
          refine ⟨hm, fun e => ?_, by simp⟩
          obtain rfl : z = a := Option.some.inj e
          have := isBracket_lt ha
          omega
        · by_cases hn : combiningClass n = 0
          · simp [hn]
          · simp only [hn, if_false]
            exact ⟨by simpa [hn] using hm, by simp, by simp⟩
  obtain ⟨hm, hs, hd⟩ := inv
  generalize ns.foldl Composer.read {} = s at *
  rcases hmk : s.marks with _ | ⟨m, ms⟩
  · rcases hst : s.starter with _ | x
    · simp [Composer.flushed, hmk, hst, hd hst] at h
    · simp [Composer.flushed, hmk, hst] at h
      exact hs (by rw [hst, h]) hmk
  · simp [Composer.flushed, hmk] at h
    exact absurd (combiningClass_bracket ha) (hm a (by simp [hmk, h]))

/-- Numbers whose composed form ends in a bracket end in it. -/
theorem composeNumbers_last {ns : List Nat} (h : (composeNumbers ns).getLast? = some a) : ns.getLast? = some a := by
  rw [composeNumbers, List.getLast?_reverse] at h
  exact breakRuns_last (flatMap_decomposition_last ha (orderMarks_last ha (by simp) (foldl_read_last ha h)))

end Bracket

/-! ### A bracket at the end of a text -/

theorem append_right_cancel {t u p : Text} (h : t ++ p = u ++ p) : t = u := by
  rcases t with ⟨t⟩
  rcases u with ⟨u⟩
  exact congrArg Text.mk (List.append_cancel_right (congrArg Text.bytes h))

/-- A number that is no character's stands for none of the brackets. -/
theorem ofNat_bracket {n : Nat} {c : Char} (hc : isBracket c.toNat = true) (h : Char.ofNat n = c) : n = c.toNat := by
  by_cases hn : n.isValidChar
  · rw [← h, Char.ofNat, dif_pos hn]
    rfl
  · simp [← h, Char.ofNat, hn, isBracket] at hc

theorem pair_above {b₀ b₁ : UInt8} (h : isPair b₀ b₁ = true) : 0x80 ≤ b₀.toNat % 32 * 64 + b₁.toNat % 64 := by
  simp only [isPair, Bool.and_eq_true, decide_eq_true_eq, UInt8.le_iff_toNat_le] at h
  simp at h
  omega

theorem triple_above {b₀ b₁ b₂ : UInt8} (h : isTriple b₀ b₁ b₂ = true) :
    0x80 ≤ b₀.toNat % 16 * 4096 + b₁.toNat % 64 * 64 + b₂.toNat % 64 := by
  simp [isTriple, isTrail, UInt8.le_iff_toNat_le, bne_iff_ne, ← UInt8.toNat_inj] at h
  omega

theorem quad_above {b₀ b₁ b₂ b₃ : UInt8} (h : isQuad b₀ b₁ b₂ b₃ = true) :
    0x80 ≤ b₀.toNat % 8 * 262144 + b₁.toNat % 64 * 4096 + b₂.toNat % 64 * 64 + b₃.toNat % 64 := by
  simp [isQuad, isTrail, UInt8.le_iff_toNat_le, bne_iff_ne, ← UInt8.toNat_inj] at h
  omega

/-- A bracket is read from one byte. -/
theorem headRune_bracket {c : Char} (hc : isBracket c.toNat = true) {b : UInt8} {rest : List UInt8}
    (h : (headRune b rest).1 = .scalar c) : b.toNat = c.toNat ∧ (headRune b rest).2 = 0 := by
  have small : ∀ {n : Nat}, Rune.scalar (Char.ofNat n) = .scalar c → n < 0x80 := by
    intro n hn
    injection hn with hn
    have := ofNat_bracket hc hn
    simp only [isBracket, Bool.or_eq_true, decide_eq_true_eq] at hc
    omega
  by_cases hb : b < 0x80
  · rw [headRune_ascii hb] at h ⊢
    injection h with h
    exact ⟨ofNat_bracket hc h, rfl⟩
  · exfalso
    simp only [headRune, hb, if_false] at h
    repeat' split at h
    · rename_i hp
      have := small h
      have := pair_above hp
      omega
    · rename_i hp
      have := small h
      have := triple_above hp
      omega
    · rename_i hp
      have := small h
      have := quad_above hp
      omega
    all_goals cases h

theorem getLast?_cons_of_some {α : Type} {x z : α} {l : List α} (h : l.getLast? = some z) : (x :: l).getLast? = some z := by
  rw [List.getLast?_cons, h, Option.getD_some]

theorem runesFrom_last {c : Char} (hc : isBracket c.toNat = true) {skip : Nat} {bs : List UInt8}
    (h : (runesFrom skip bs).getLast? = some (.scalar c)) : bs.getLast? = some (UInt8.ofNat c.toNat) := by
  induction bs generalizing skip with
  | nil => simp [runesFrom] at h
  | cons b bs ih =>
    cases skip with
    | succ skip => exact getLast?_cons_of_some (ih h)
    | zero =>
      simp only [runesFrom, List.getLast?_cons, Option.some.injEq] at h
      rcases hl : (runesFrom (headRune b bs).2 bs).getLast? with _ | z
      · rw [hl, Option.getD_none] at h
        obtain ⟨hb, hs⟩ := headRune_bracket hc h
        rw [hs, List.getLast?_eq_none_iff] at hl
        obtain rfl : bs = [] := by
          cases bs with
          | nil => rfl
          | cons _ _ => simp [runesFrom] at hl
        simp [← hb]
      · rw [hl, Option.getD_some] at h
        exact getLast?_cons_of_some (ih (hl.trans (congrArg some h)))

theorem stray_of_mem_runesFrom {b : UInt8} {skip : Nat} {bs : List UInt8} (h : .stray b ∈ runesFrom skip bs) :
    0x80 ≤ b.toNat := by
  induction bs generalizing skip with
  | nil => simp [runesFrom] at h
  | cons b₀ bs ih =>
    cases skip with
    | succ skip => exact ih h
    | zero =>
      simp only [runesFrom, List.mem_cons] at h
      rcases h with h | h
      · by_cases hb : b₀ < 0x80
        · simp [headRune_ascii hb] at h
        · have hb₀ : b₀ = b := by
            simp only [headRune, hb, if_false] at h
            repeat' split at h
            all_goals first | (injection h with h; exact h.symm) | cases h
          rw [← hb₀]
          simpa [UInt8.lt_iff_toNat_lt] using hb
      · exact ih h

theorem stray_of_mem_composeRunes {b : UInt8} {pending : List Nat} {rs : List Rune}
    (h : .stray b ∈ composeRunes pending rs) : .stray b ∈ rs := by
  induction rs generalizing pending with
  | nil => simp [composeRunes] at h
  | cons r rs ih =>
    cases r with
    | scalar c => exact List.mem_cons_of_mem _ (ih h)
    | stray x =>
      simp only [composeRunes, List.mem_append, List.mem_map, List.mem_cons, reduceCtorEq, and_false, exists_false,
        false_or] at h
      exact List.mem_cons.2 (h.imp_right ih)

section Bracket

variable {c : Char} (hc : isBracket c.toNat = true)
include hc

theorem composeRunes_append (pending : List Nat) (rs : List Rune) :
    composeRunes pending (rs ++ [.scalar c]) = composeRunes pending rs ++ [.scalar c] := by
  induction rs generalizing pending with
  | nil => simp [composeRunes, composeNumbers_append hc]
  | cons r rs ih => cases r <;> simp [composeRunes, ih]

theorem composeRunes_last {pending : List Nat} {rs : List Rune}
    (h : (composeRunes pending rs).getLast? = some (.scalar c)) :
    rs.getLast? = some (.scalar c) ∨ rs = [] ∧ pending.head? = some c.toNat := by
  induction rs generalizing pending with
  | nil =>
    refine .inr ⟨rfl, ?_⟩
    simp only [composeRunes, List.getLast?_map, Option.map_eq_some_iff, Rune.scalar.injEq] at h
    obtain ⟨n, hn, e⟩ := h
    obtain rfl := ofNat_bracket hc e
    simpa using composeNumbers_last hc hn
  | cons r rs ih =>
    refine .inl ?_
    cases r with
    | scalar d =>
      rcases ih h with hl | ⟨rfl, hp⟩
      · exact getLast?_cons_of_some hl
      · have : d = c := by simpa [Char.toNat_inj] using hp
        simp [this]
    | stray b =>
      simp only [composeRunes, List.getLast?_append, List.getLast?_cons, Option.some_or, Option.some.injEq] at h
      rcases hl : (composeRunes [] rs).getLast? with _ | z
      · simp [hl] at h
      · rw [hl, Option.getD_some] at h
        rcases ih (hl.trans (congrArg some h)) with h | ⟨_, h⟩
        · exact getLast?_cons_of_some h
        · simp at h

theorem utf8EncodeChar_bracket : String.utf8EncodeChar c = [UInt8.ofNat c.toNat] := by
  have hlt : c.val.toNat ≤ 127 := by
    simp only [isBracket, Bool.or_eq_true, decide_eq_true_eq] at hc
    change c.toNat ≤ 127
    omega
  simp only [String.utf8EncodeChar, hlt, if_true]
  rfl

/-- Only a bracket is written with a bracket's byte at the end. -/
theorem utf8EncodeChar_last {d : Char} (h : (String.utf8EncodeChar d).getLast? = some (UInt8.ofNat c.toNat)) : d = c := by
  have hb := hc
  simp only [isBracket, Bool.or_eq_true, decide_eq_true_eq] at hb
  have byte : ∀ {n : Nat}, n < 256 → UInt8.ofNat n = UInt8.ofNat c.toNat → n = c.toNat := by
    intro n hn e
    have := congrArg UInt8.toNat e
    simp only [UInt8.toNat_ofNat'] at this
    omega
  simp only [String.utf8EncodeChar] at h
  repeat' split at h
  · rename_i hd
    have hd : d.toNat ≤ 127 := hd
    simp only [List.getLast?_singleton, Option.some.injEq] at h
    exact Char.toNat_inj.1 (byte (by omega) h)
  all_goals
    simp only [List.getLast?_cons, Option.getD_some, Option.some.injEq] at h
    have := byte (by omega) h
    omega

theorem ofRunes_append (rs : List Rune) :
    (ofRunes (rs ++ [.scalar c])).bytes = (ofRunes rs).bytes ++ [UInt8.ofNat c.toNat] := by
  simp [ofRunes, utf8EncodeChar_bracket hc]

theorem ofRunes_last {rs : List Rune} (hs : ∀ b, .stray b ∈ rs → 0x80 ≤ b.toNat)
    (h : (ofRunes rs).bytes.getLast? = some (UInt8.ofNat c.toNat)) : rs.getLast? = some (.scalar c) := by
  have hb := hc
  simp only [isBracket, Bool.or_eq_true, decide_eq_true_eq] at hb
  rcases List.eq_nil_or_concat rs with rfl | ⟨rs, r, rfl⟩
  · simp [ofRunes] at h
  · rw [List.concat_eq_append] at h hs ⊢
    rw [List.getLast?_append, List.getLast?_singleton, Option.some_or]
    simp only [ofRunes, List.flatMap_append, List.flatMap_singleton, List.getLast?_append] at h
    cases r with
    | scalar d =>
      obtain ⟨z, hz⟩ := Option.ne_none_iff_exists'.1
        (mt List.getLast?_eq_none_iff.1 (String.utf8EncodeChar_ne_nil (c := d)))
      simp only [hz, Option.some_or] at h
      rw [utf8EncodeChar_last hc (hz.trans h)]
    | stray b =>
      simp only [List.getLast?_singleton, Option.some_or, Option.some.injEq] at h
      have := hs b (by simp)
      rw [h, UInt8.toNat_ofNat'] at this
      omega

theorem composed_append (t : Text) : (t ++ ofChar c).composed = t.composed ++ ofChar c := by
  have hb := hc
  simp only [isBracket, Bool.or_eq_true, decide_eq_true_eq] at hb
  have hlt : UInt8.ofNat c.toNat < 0x80 := by
    rw [UInt8.lt_iff_toNat_lt, UInt8.toNat_ofNat']
    simp
    omega
  have hlow : UInt8.ofNat c.toNat < 0xCC := UInt8.lt_trans hlt (by decide)
  have hchar : Char.ofNat (UInt8.ofNat c.toNat).toNat = c := by
    rw [UInt8.toNat_ofNat', Nat.mod_eq_of_lt (by omega), Char.ofNat_toNat]
  have happ : ∀ u : Text, u ++ ofChar c = ⟨u.bytes ++ [UInt8.ofNat c.toNat]⟩ := by
    intro u
    rw [← utf8EncodeChar_bracket hc]
    rfl
  rw [happ, happ, composed, composed]
  simp only [List.all_append, List.all_cons, List.all_nil, Bool.and_true, hlow, decide_true]
  split
  · rfl
  · simp only [runes, runesFrom_append hlt (Nat.zero_le _), hchar, composeRunes_append hc]
    exact congrArg Text.mk (ofRunes_append hc _)

/-- A text whose composed form ends in a bracket ends in it. -/
theorem eq_append_of_composed {t u : Text} (h : t.composed = u ++ ofChar c) :
    ∃ t', t = t' ++ ofChar c ∧ t'.composed = u := by
  have hbytes : (ofChar c).bytes = [UInt8.ofNat c.toNat] := utf8EncodeChar_bracket hc
  have hlast : t.composed.bytes.getLast? = some (UInt8.ofNat c.toNat) := by
    rw [h, ← List.getLast?_concat]
    exact congrArg List.getLast? (congrArg (u.bytes ++ ·) hbytes)
  have ht : t.bytes.getLast? = some (UInt8.ofNat c.toNat) := by
    unfold composed at hlast
    split at hlast
    · exact hlast
    · have hstray : ∀ b, .stray b ∈ composeRunes [] t.runes → 0x80 ≤ b.toNat :=
        fun b hb => stray_of_mem_runesFrom (stray_of_mem_composeRunes hb)
      rcases composeRunes_last hc (ofRunes_last hc hstray hlast) with hr | ⟨_, hr⟩
      · exact runesFrom_last hc hr
      · simp at hr
  obtain ⟨bs, hbs⟩ := List.getLast?_eq_some_iff.1 ht
  obtain rfl : t = ⟨bs⟩ ++ ofChar c := by
    rcases t with ⟨t⟩
    exact congrArg Text.mk (hbs.trans (congrArg (bs ++ ·) hbytes.symm))
  refine ⟨⟨bs⟩, rfl, ?_⟩
  rw [composed_append hc] at h
  exact append_right_cancel h

end Bracket

/-! ### The composed form of no characters -/

theorem flushed_read_ne_nil (s : Composer) (n : Nat) : (s.read n).flushed ≠ [] := by
  unfold Composer.read
  repeat' split
  all_goals simp [Composer.flushed]

theorem composeNumbers_ne_nil {ns : List Nat} (h : ns ≠ []) : composeNumbers ns ≠ [] := by
  have hb : breakRuns 0 ns ≠ [] := by
    obtain ⟨n, rest, rfl⟩ := List.exists_cons_of_ne_nil h
    simp only [breakRuns]
    repeat' split
    all_goals simp
  have hd : (breakRuns 0 ns).flatMap decomposition ≠ [] := by
    obtain ⟨n, rest, e⟩ := List.exists_cons_of_ne_nil hb
    simp [e, decomposition_ne_nil]
  have ho : orderMarks [] ((breakRuns 0 ns).flatMap decomposition) ≠ [] := by
    intro e
    have := length_orderMarks [] ((breakRuns 0 ns).flatMap decomposition)
    rw [e, List.length_nil, Nat.zero_add, eq_comm, List.length_eq_zero_iff] at this
    exact hd this
  rw [composeNumbers]
  rcases List.eq_nil_or_concat (orderMarks [] ((breakRuns 0 ns).flatMap decomposition)) with e | ⟨init, n, e⟩
  · exact absurd e ho
  · simp [e, flushed_read_ne_nil]

theorem composeRunes_ne_nil {pending : List Nat} {rs : List Rune} (h : pending ≠ [] ∨ rs ≠ []) :
    composeRunes pending rs ≠ [] := by
  induction rs generalizing pending with
  | nil => simpa [composeRunes] using composeNumbers_ne_nil (by simpa using h)
  | cons r rs ih =>
    cases r with
    | scalar c => exact ih (.inl (by simp))
    | stray b => simp [composeRunes]

theorem isEmpty_composed (t : Text) : t.composed.isEmpty = t.isEmpty := by
  unfold composed
  split
  · rfl
  · rename_i hlow
    obtain ⟨b, bs, hb⟩ := List.exists_cons_of_ne_nil (l := t.bytes) (by rintro e; simp [e] at hlow)
    have hne : composeRunes [] t.runes ≠ [] := composeRunes_ne_nil (.inr (by simp [runes, hb, runesFrom]))
    obtain ⟨r, rs, hr⟩ := List.exists_cons_of_ne_nil hne
    cases r <;> simp [isEmpty, ofRunes, hr, hb, String.utf8EncodeChar_ne_nil]

theorem beforeEnd?_eq_some {t p e : Text} : t.beforeEnd? p = some e ↔ t = e ++ p := by
  rcases t with ⟨t⟩
  rcases p with ⟨p⟩
  rcases e with ⟨e⟩
  change (if p.isSuffixOf t = true then some (Text.mk (t.take (t.length - p.length))) else none) = some (Text.mk e) ↔
    Text.mk t = Text.mk (e ++ p)
  constructor
  · intro h
    split at h
    · rename_i hs
      obtain ⟨pre, rfl⟩ := List.isSuffixOf_iff_suffix.1 hs
      simp at h
      rw [h]
    · cases h
  · intro h
    injection h with h
    subst h
    simp

end Text

namespace TypeName

theorem array_eq (e : Text) : array e = e ++ Text.ofChar '[' ++ Text.ofChar ']' := by
  have hending : arrayEnding.bytes = (Text.ofChar '[').bytes ++ (Text.ofChar ']').bytes := by decide
  have h : e.bytes ++ arrayEnding.bytes = e.bytes ++ (Text.ofChar '[').bytes ++ (Text.ofChar ']').bytes := by
    rw [hending, List.append_assoc]
  exact congrArg Text.mk h

theorem elem?_eq_some {n e : Text} : elem? n = some e ↔ e.isEmpty = false ∧ n = array e := by
  unfold elem?
  constructor
  · intro h
    split at h
    · rename_i e' hb
      split at h
      · cases h
      · rename_i hne
        injection h with h
        subst h
        exact ⟨by simpa using hne, Text.beforeEnd?_eq_some.1 hb⟩
    · cases h
  · rintro ⟨hne, rfl⟩
    have hb : (array e).beforeEnd? arrayEnding = some e := Text.beforeEnd?_eq_some.2 rfl
    simp [hb, hne]

/-- The key of an array's name is made from that of its element type's. -/
theorem key_array (e : Text) : Symbols.key (array e) = array (Symbols.key e) := by
  rw [array_eq, array_eq, Symbols.key, Text.composed_append (by decide), Text.composed_append (by decide), Symbols.key]

/-- A name with the key of an array's name is an array's name. -/
theorem array_of_key {n m : Text} (hk : Symbols.key m = Symbols.key (array n)) :
    ∃ n', m = array n' ∧ Symbols.key n' = Symbols.key n := by
  rw [key_array, array_eq] at hk
  obtain ⟨m, rfl, hm⟩ := Text.eq_append_of_composed (by decide) hk
  obtain ⟨n', rfl, hn'⟩ := Text.eq_append_of_composed (by decide) hm
  exact ⟨n', (array_eq n').symm, hn'⟩

/-- Names with one key are both array names, of element types with one key. -/
theorem elem?_of_key {n m e : Text} (hk : Symbols.key m = Symbols.key n) (he : elem? n = some e) :
    ∃ e', elem? m = some e' ∧ Symbols.key e' = Symbols.key e := by
  obtain ⟨hne, rfl⟩ := elem?_eq_some.1 he
  obtain ⟨e', rfl, he'⟩ := array_of_key hk
  refine ⟨e', elem?_eq_some.2 ⟨?_, rfl⟩, he'⟩
  rw [← Text.isEmpty_composed, ← Symbols.key, he', Symbols.key, Text.isEmpty_composed, hne]

end TypeName
end CilCompiler
