import CilCompiler.Text
import CilCompiler.Text.CanonicalTable

/-!
The composed form of a text. Two spellings of one name, such as a letter with an accent as one character
or as two, have one composed form: characters are decomposed, marks are put in the order of their
combining classes, and what composes is composed. A long run of marks is broken by a joiner, so that no run
has to be put in order over more than a few characters. Stray bytes stay where they are and compose with
nothing.
-/

namespace CilCompiler.Text

/-- The combining class: zero for a character that starts a sequence. -/
def combiningClass (n : Nat) : Nat :=
  if n < 0x300 then 0 else ((rangeValue? combiningRows n).map Prod.snd).getD 0

/-- The full canonical decomposition of a character. -/
def decomposition (n : Nat) : List Nat :=
  if n < 0xC0 then [n]
  else if 0xAC00 ≤ n ∧ n < 0xAC00 + 11172 then
    let s := n - 0xAC00
    let lead := 0x1100 + s / 588
    let vowel := 0x1161 + s % 588 / 28
    if s % 28 = 0 then [lead, vowel] else [lead, vowel, 0x11A7 + s % 28]
  else
    (decompositionRows.findSome? fun
      | m :: parts => if m = n then some parts else none
      | [] => none).getD [n]

/-- The character two characters compose to. -/
def composition? (a b : Nat) : Option Nat :=
  if 0x1100 ≤ a ∧ a < 0x1113 ∧ 0x1161 ≤ b ∧ b < 0x1176 then
    some (0xAC00 + ((a - 0x1100) * 21 + (b - 0x1161)) * 28)
  else if 0xAC00 ≤ a ∧ a < 0xAC00 + 11172 ∧ (a - 0xAC00) % 28 = 0 ∧ 0x11A8 ≤ b ∧ b < 0x11C3 then
    some (a + (b - 0x11A7))
  else
    compositionRows.findSome? fun
      | [x, y, z] => if x = a ∧ y = b then some z else none
      | _ => none

/-! ### Runs of marks -/

/-- Whether a character stands behind another in a composed character. -/
def isSecond (n : Nat) : Bool :=
  0x1161 ≤ n && n < 0x1176 || 0x11A7 ≤ n && n < 0x11C3 ||
    compositionRows.any fun
      | [_, second, _] => second = n
      | _ => false

/-- Whether a character belongs to the one in front of it, by its class or because it composes. -/
def isMark (n : Nat) : Bool := combiningClass n ≠ 0 || isSecond n

/-- The number of marks that a character starts with when it is taken apart; a character that starts with
    marks has nothing else. -/
def leadingMarks (n : Nat) : Nat :=
  if inRanges compatibleMarkRows n then 1 else ((decomposition n).takeWhile isMark).length

/-- The number of marks that a character ends with when it is taken apart. -/
def trailingMarks (n : Nat) : Nat :=
  match rangeValue? compatibleEndRows n with
  | some (_, marks) => marks
  | none => ((decomposition n).reverse.takeWhile isMark).length

/-- The largest number of marks in a run. -/
def maxMarks : Nat := 30

/-- The character that breaks a run of marks. -/
def joiner : Nat := 0x34F

/-- Puts a joiner into every run of marks that would grow too long. `marks` is the length of the run so
    far. -/
def breakRuns (marks : Nat) : List Nat → List Nat
  | [] => []
  | n :: rest =>
    let more := leadingMarks n
    if more = 0 then n :: breakRuns (trailingMarks n) rest
    else if maxMarks < marks + more then joiner :: n :: breakRuns more rest
    else n :: breakRuns (marks + more) rest

/-! ### Composition -/

/-- Puts a mark behind the marks of its class or a lower one. -/
def insertMark (m : Nat) : List Nat → List Nat
  | [] => [m]
  | x :: rest =>
    if combiningClass x ≤ combiningClass m then x :: insertMark m rest else m :: x :: rest

/-- Each run of marks in the order of their classes; marks of one class keep their order. `marks` is the
    run that is being read. -/
def orderMarks (marks : List Nat) : List Nat → List Nat
  | [] => marks
  | n :: rest =>
    if combiningClass n = 0 then marks ++ n :: orderMarks [] rest
    else orderMarks (insertMark n marks) rest

/-- A sequence while it is composed: its starter, the marks kept behind it last first, and the text
    before it last first. -/
structure Composer where
  done : List Nat := []
  starter : Option Nat := none
  marks : List Nat := []

namespace Composer

/-- Everything read so far, last first. -/
def flushed (s : Composer) : List Nat := s.marks ++ s.starter.toList ++ s.done

/-- Whether a mark kept behind the starter keeps `n` from composing with it. -/
def blocks (s : Composer) (n : Nat) : Bool :=
  match s.marks with
  | [] => false
  | m :: _ => combiningClass n ≤ combiningClass m

def read (s : Composer) (n : Nat) : Composer :=
  match s.starter with
  | none =>
    if combiningClass n = 0 then { done := s.flushed, starter := some n, marks := [] }
    else { s with marks := n :: s.marks }
  | some a =>
    match (if s.blocks n then none else composition? a n) with
    | some z => { s with starter := some z }
    | none =>
      if combiningClass n = 0 then { done := s.flushed, starter := some n, marks := [] }
      else { s with marks := n :: s.marks }

end Composer

/-- The composed form of characters given by their numbers. -/
def composeNumbers (ns : List Nat) : List Nat :=
  ((orderMarks [] ((breakRuns 0 ns).flatMap decomposition)).foldl Composer.read {}).flushed.reverse

/-- The composed form of runes; a stray byte separates what stands before it from what stands after. -/
def composeRunes (pending : List Nat) : List Rune → List Rune
  | [] => (composeNumbers pending.reverse).map fun n => .scalar (Char.ofNat n)
  | .scalar c :: rest => composeRunes (c.toNat :: pending) rest
  | .stray b :: rest =>
    ((composeNumbers pending.reverse).map fun n => .scalar (Char.ofNat n)) ++ .stray b :: composeRunes [] rest

/-- The composed form of a text. Characters below U+0300 are composed already. -/
def composed (t : Text) : Text :=
  if t.bytes.all (· < 0xCC) then t else ofRunes (composeRunes [] t.runes)

end CilCompiler.Text
