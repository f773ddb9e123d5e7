import CilCompiler.Proofs.Listing

/-! What the checker of listings looks at. A line changes the number of open braces, whatever else it does
    (`step_depth`), and the lines of an open method are kept up to the brace that leaves one brace open, where they
    are checked (`lines_open`). So a method is examined if its header stands inside one pair of braces and its own
    braces open behind it (`methods_examined`). A method outside of all braces is read over
    (`unenclosed_method_passes`). -/

namespace CilCompiler
namespace Listing

/-- Whether a line is a brace and nothing else. -/
def isBrace (l : Text) : Bool := l.trim = openBrace || l.trim = closeBrace

/-- The number of open braces behind some lines; none where one closes that is not open. -/
def depthFrom : (depth : Nat) → List Text → Option Nat
  | d, [] => some d
  | d, l :: ls =>
    if l.trim = openBrace then depthFrom (d + 1) ls
    else if l.trim = closeBrace then
      match d with
      | 0 => none
      | d + 1 => depthFrom d ls
    else depthFrom d ls

/-- Every brace that opens in the lines closes in them, and no other does. -/
def Balanced (ls : List Text) : Prop := depthFrom 0 ls = some 0

/-- Whether a line begins a method. -/
def isHeader (l : Text) : Bool := l.trim.startsWith ".method "

/-- The lines that are no braces, without the blanks around them. -/
def inked (ls : List Text) : List Text := (ls.filter fun l => !isBrace l).map Text.trim

/-- The rules for the lines of a method. One that the runtime supplies has none; any other states its stack size, and
    `ret` is the last of its lines that is no directive. -/
def Obeys (header : Text) (body : List Text) : Prop :=
  if isRuntime header.trim then body = []
  else (∃ l ∈ body, l.startsWith ".maxstack " = true) ∧ (body.filter fun l => !l.startsWith ".").getLast? = some "ret"

instance (header : Text) (body : List Text) : Decidable (Obeys header body) := inferInstanceAs (Decidable (ite ..))

theorem obeys_of_checkBody {header : Text} {body : List Text} (h : checkBody header.trim body = .ok ()) :
    Obeys header body := by
  unfold checkBody at h
  unfold Obeys
  split at h
  · rename_i hruntime
    rw [if_pos hruntime]
    split at h
    · exact List.isEmpty_iff.mp ‹_›
    · cases h
  · rename_i hrecorded
    rw [if_neg hrecorded]
    split at h
    · cases h
    · rename_i hsize
      split at h
      · cases h
      · rename_i hlast
        refine ⟨by simpa using hsize, ?_⟩
        have hret : lastInstruction body = "ret" := Decidable.of_not_not hlast
        unfold lastInstruction at hret
        cases hl : (body.filter fun l => !l.startsWith ".").getLast? with
        | none =>
          rw [hl] at hret
          cases hret
        | some l =>
          rw [hl] at hret
          exact congrArg some hret

theorem inked_cons_brace {l : Text} (h : isBrace l = true) (ls : List Text) : inked (l :: ls) = inked ls :=
  by simp [inked, h]

theorem inked_cons {l : Text} (h : isBrace l = false) (ls : List Text) : inked (l :: ls) = l.trim :: inked ls :=
  by simp [inked, h]

theorem not_brace_iff {l : Text} : isBrace l = false ↔ l.trim ≠ openBrace ∧ l.trim ≠ closeBrace := by
  simp [isBrace]

/-! ### Reading lines -/

theorem depthFrom_cons (d : Nat) (l : Text) (ls : List Text) : depthFrom d (l :: ls) =
    if l.trim = openBrace then depthFrom (d + 1) ls
    else if l.trim = closeBrace then
      match d with
      | 0 => none
      | d + 1 => depthFrom d ls
    else depthFrom d ls := rfl

theorem depthFrom_append (d : Nat) (ls ls' : List Text) :
    depthFrom d (ls ++ ls') = (depthFrom d ls).bind fun d => depthFrom d ls' := by
  induction ls generalizing d with
  | nil => rfl
  | cons l ls ih =>
    rw [List.cons_append, depthFrom_cons, depthFrom_cons]
    split
    · exact ih _
    split
    · cases d with
      | zero => rfl
      | succ d => exact ih d
    · exact ih d

/-- A line changes the number of open braces. -/
theorem step_depth {s s' : Scan} {n : Nat} {l : Text} (h : s.step n l.trim = .ok s') (ls : List Text) :
    depthFrom s.depth (l :: ls) = depthFrom s'.depth ls := by
  obtain ⟨d, e, m⟩ := s
  rw [depthFrom_cons]
  unfold Scan.step at h
  split at h
  · rename_i hopen
    cases h
    rw [if_pos hopen]
  rename_i hopen
  rw [if_neg hopen]
  split at h
  · rename_i hclose
    rw [if_pos hclose]
    dsimp only at h
    split at h
    · cases h
    · split at h
      · cases h
        rfl
      · cases h
    · cases h
      rfl
  rename_i hclose
  rw [if_neg hclose]
  split at h
  · split at h
    · cases h
    · cases h
      rfl
  · split at h <;> cases h <;> rfl

theorem lines_depth {s s' : Scan} {n : Nat} {ls : List Text} (h : s.lines n ls = .ok s') :
    depthFrom s.depth ls = some s'.depth := by
  induction ls generalizing s n with
  | nil =>
    cases h
    rfl
  | cons l ls ih =>
    obtain ⟨s₁, h1, h2⟩ := bind_eq_ok.mp h
    rw [step_depth h1, ih h2]

/-- A line of an open method that is no brace is kept; it is no header. -/
theorem step_kept {s s' : Scan} {n : Nat} {l header : Text} {body : List Text} (hs : s.method = some (header, body))
    (hl : isBrace l = false) (h : s.step n l.trim = .ok s') :
    isHeader l = false ∧ s'.depth = s.depth ∧ s'.method = some (header, l.trim :: body) := by
  obtain ⟨hopen, hclose⟩ := not_brace_iff.mp hl
  rw [Scan.step, if_neg hopen, if_neg hclose, hs] at h
  split at h
  · cases h
  · rename_i hstart
    cases h
    exact ⟨by simpa [isHeader] using hstart, rfl, rfl⟩

theorem lines_kept {s s' : Scan} {n : Nat} {header : Text} {body ls : List Text} (hs : s.method = some (header, body))
    (hl : ∀ l ∈ ls, isBrace l = false) (h : s.lines n ls = .ok s') :
    s'.depth = s.depth ∧ s'.method = some (header, (inked ls).reverse ++ body) := by
  induction ls generalizing s n body with
  | nil =>
    cases h
    exact ⟨rfl, hs⟩
  | cons l ls ih =>
    obtain ⟨s₁, h1, h2⟩ := bind_eq_ok.mp h
    have hplain := hl l List.mem_cons_self
    obtain ⟨-, hd, hm⟩ := step_kept hs hplain h1
    obtain ⟨hd', hm'⟩ := ih hm (fun l hl' => hl l (List.mem_cons_of_mem _ hl')) h2
    refine ⟨hd'.trans hd, ?_⟩
    rw [hm', inked_cons hplain, List.reverse_cons, List.append_assoc]
    rfl

/-- Where the lines of an open method are checked: at a brace that leaves one brace open, with no header before it. -/
structure Examined (depth : Nat) (header : Text) (body ls inner : List Text) (closing : Text)
    (after : List Text) : Prop where
  parts : ls = inner ++ closing :: after
  closes : closing.trim = closeBrace
  two : depthFrom depth inner = some 2
  /-- Of two braces that are open in front of the lines none closes in them. -/
  inside : ∀ d, depth = d + 2 → depthFrom d inner = some 0
  headers : ∀ l ∈ inner, isHeader l = false
  ok : checkBody header (body ++ inked inner) = .ok ()

/-- The lines of an open method are examined, or have no header among them and leave two braces open that were. -/
def Kept (d d' : Nat) (header : Text) (body ls : List Text) : Prop :=
  (∃ inner closing after, Examined d header body ls inner closing after) ∨ (∀ l ∈ ls, isHeader l = false) ∧ (2 ≤ d → 2 ≤ d')

/-- One line more in front, which changes the number of open braces but leaves two open. -/
theorem Kept.cons {d d₁ d' : Nat} {header l : Text} {body body₁ ls : List Text} (h : Kept d₁ d' header body₁ ls)
    (hl : isHeader l = false) (hbody : ∀ inner, body₁ ++ inked inner = body ++ inked (l :: inner))
    (hd : ∀ inner, depthFrom d (l :: inner) = depthFrom d₁ inner)
    (htwo : ∀ k, d = k + 2 → ∃ k₁, d₁ = k₁ + 2 ∧ ∀ inner, depthFrom k (l :: inner) = depthFrom k₁ inner) :
    Kept d d' header body (l :: ls) := by
  rcases h with ⟨inner, closing, after, h⟩ | ⟨hno, hkeeps⟩
  · refine .inl ⟨l :: inner, closing, after, ?_, h.closes, (hd inner).trans h.two, fun k hk => ?_,
      List.forall_mem_cons.mpr ⟨hl, h.headers⟩, ?_⟩
    · rw [h.parts]
      rfl
    · obtain ⟨k₁, hk₁, heq⟩ := htwo k hk
      rw [heq, h.inside k₁ hk₁]
    · rw [← hbody]
      exact h.ok
  · refine .inr ⟨List.forall_mem_cons.mpr ⟨hl, hno⟩, fun hd => hkeeps ?_⟩
    obtain ⟨k₁, rfl, -⟩ := htwo (d - 2) (by omega)
    exact Nat.le_add_left 2 k₁

theorem not_header_of_brace {l : Text} (h : isBrace l = true) : isHeader l = false := by
  simp only [isBrace, Bool.or_eq_true, decide_eq_true_eq] at h
  rcases h with h | h <;> rw [isHeader, h] <;> decide

/-- A brace that closes while a method is open: where it leaves one brace open the method is checked, elsewhere it
    stays open. -/
theorem step_close {s s' : Scan} {n : Nat} {header : Text} {body : List Text} (hs : s.method = some (header, body))
    (h : s.step n closeBrace = .ok s') :
    s.depth = 2 ∧ checkBody header body.reverse = .ok () ∧ s'.depth = 1 ∨ ∃ d, s.depth = d + 1 ∧ d ≠ 1 ∧
      s' = { s with depth := d } := by
  obtain ⟨d, e, m⟩ := s
  obtain rfl : m = some (header, body) := hs
  rw [Scan.step, if_neg (by decide), if_pos rfl] at h
  split at h
  · cases h
  · rename_i hd hm
    cases hm
    split at h
    · rename_i hok
      cases h
      exact .inl ⟨hd, hok, rfl⟩
    · cases h
  · rename_i k hd hne
    cases h
    exact .inr ⟨k, hd, fun hk => hne _ _ rfl hk, rfl⟩

/-- Reading lines while a method is open. -/
theorem lines_open {s s' : Scan} {n : Nat} {header : Text} {body ls : List Text} (hs : s.method = some (header, body))
    (h : s.lines n ls = .ok s') : Kept s.depth s'.depth header body.reverse ls := by
  induction ls generalizing s n body with
  | nil =>
    cases h
    exact .inr ⟨fun l hl => (by cases hl), id⟩
  | cons l ls ih =>
    obtain ⟨s₁, h1, h2⟩ := bind_eq_ok.mp h
    have hdepth := step_depth h1
    by_cases hopen : l.trim = openBrace
    · have hbrace : isBrace l = true := by simp [isBrace, hopen]
      rw [hopen, step_open] at h1
      cases h1
      refine (ih (s := { s with depth := s.depth + 1 }) hs h2).cons (not_header_of_brace hbrace) (fun inner => ?_) hdepth
        fun k hk => ⟨k + 1, congrArg (· + 1) hk, fun inner => ?_⟩
      · rw [inked_cons_brace hbrace]
      · rw [depthFrom_cons, if_pos hopen]
    by_cases hclose : l.trim = closeBrace
    · have hbrace : isBrace l = true := by simp [isBrace, hclose]
      rw [hclose] at h1
      rcases step_close hs h1 with ⟨htwo, hok, -⟩ | ⟨d, hd, hne, rfl⟩
      · -- Here the braces come back to one.
        refine .inl ⟨[], l, ls, rfl, hclose, congrArg some htwo, fun k hk => ?_, fun l hl => (by cases hl),
            by simpa [inked] using hok⟩
        obtain rfl : k = 0 := by omega
        rfl
      · refine (ih (s := { s with depth := d }) hs h2).cons (not_header_of_brace hbrace)
            (fun inner => ?_) hdepth fun k hk => ?_
        · rw [inked_cons_brace hbrace]
        · obtain ⟨k, rfl⟩ : ∃ k₁, k = k₁ + 1 := ⟨k - 1, by omega⟩
          refine ⟨k, by show d = k + 2; omega, fun inner => ?_⟩
          rw [depthFrom_cons, if_neg hopen, if_pos hclose]
    · have hplain : isBrace l = false := not_brace_iff.mpr ⟨hopen, hclose⟩
      obtain ⟨hheader, hd, hm⟩ := step_kept hs hplain h1
      refine (ih hm h2).cons hheader (fun inner => ?_) hdepth fun k hk => ⟨k, hd.trans hk, fun inner => ?_⟩
      · rw [inked_cons hplain, List.reverse_cons, List.append_assoc]
        rfl
      · rw [depthFrom_cons, if_neg hopen, if_neg hclose]

/-! ### Listings that pass -/

/-- The checker ends outside of all braces. -/
theorem check_ok {ls : List Text} (h : check ls = .ok ()) : ∃ s, ({} : Scan).lines 1 ls = .ok s ∧ s.depth = 0 := by
  obtain ⟨s, hs, h⟩ := bind_eq_ok.mp h
  refine ⟨s, hs, ?_⟩
  split at h
  · cases h
  · exact Decidable.of_not_not ‹_›

/-- A header opens a method where none is open. -/
theorem lines_header {s : Scan} {before rest : List Text} {header : Text} (hheader : isHeader header = true)
    (h : ({} : Scan).lines 1 (before ++ header :: rest) = .ok s) :
    ∃ (s₁ : Scan) (n : Nat), s₁.lines n rest = .ok s ∧ depthFrom 0 before = some s₁.depth ∧
      s₁.method = some (header.trim, []) := by
  rw [lines_append] at h
  obtain ⟨s₀, h0, h⟩ := bind_eq_ok.mp h
  obtain ⟨s₁, h1, h⟩ := bind_eq_ok.mp h
  refine ⟨s₁, _, h, ?_⟩
  have hstart : header.trim.startsWith ".method " = true := hheader
  have hno : ¬header.trim = openBrace := Text.ne_of_startsWith hstart (by decide)
  have hnc : ¬header.trim = closeBrace := Text.ne_of_startsWith hstart (by decide)
  rw [Scan.step, if_neg hno, if_neg hnc, if_pos hstart] at h1
  split at h1
  · cases h1
  · cases h1
    exact ⟨lines_depth h0, rfl⟩

/-- What the checker guarantees for the methods of a listing that passes. A method whose header stands inside one pair
    of braces, and whose next brace opens, has a body between matching braces, and the lines from its header to the
    end of the body obey the rules. Wherever headers stand, all but the last one are followed by lines that obey the
    rules, up to a brace that leaves one brace open. -/
theorem methods_examined {lines before rest : List Text} {header : Text} (h : check lines = .ok ())
    (hl : lines = before ++ header :: rest)
    (hheader : isHeader header = true) :
    (depthFrom 0 before = some 1 → ∀ lead opening inside, rest = lead ++ opening :: inside →
      (∀ l ∈ lead, isBrace l = false) →
      opening.trim = openBrace → ∃ body closing after, inside = body ++ closing :: after ∧
        closing.trim = closeBrace ∧ Balanced body ∧
        Obeys header (inked lead ++ inked body)) ∧
    ((∃ l ∈ rest, isHeader l = true) → ∃ inner closing after, rest = inner ++ closing :: after ∧ closing.trim = closeBrace ∧
      depthFrom 0 (before ++ header :: inner) = some 2 ∧ Obeys header (inked inner)) := by
  subst hl
  obtain ⟨s, hs, hend⟩ := check_ok h
  obtain ⟨s₁, n, hrest, hbefore, hm⟩ := lines_header hheader hs
  constructor
  · intro hone lead opening inside hparts hlead hopening
    rw [hbefore] at hone
    rw [hparts, lines_append] at hrest
    obtain ⟨s₂, h2, hrest⟩ := bind_eq_ok.mp hrest
    obtain ⟨hd₂, hm₂⟩ := lines_kept hm hlead h2
    obtain ⟨s₃, h3, hrest⟩ := bind_eq_ok.mp hrest
    rw [hopening, step_open] at h3
    cases h3
    have htwo : s₂.depth + 1 = 2 := by rw [hd₂, Option.some.inj hone]
    rcases lines_open (s := { s₂ with depth := s₂.depth + 1 }) hm₂ hrest with ⟨body, closing, after, hex⟩ | ⟨-, hkeeps⟩
    · refine ⟨body, closing, after, hex.parts, hex.closes, hex.inside 0 htwo, obeys_of_checkBody ?_⟩
      have hok := hex.ok
      rwa [List.append_nil, List.reverse_reverse] at hok
    · have := hkeeps (Nat.le_of_eq htwo.symm)
      omega
  · rintro ⟨l, hl, hlater⟩
    rcases lines_open hm hrest with ⟨inner, closing, after, hex⟩ | ⟨hno, -⟩
    · refine ⟨inner, closing, after, hex.parts, hex.closes, ?_, obeys_of_checkBody hex.ok⟩
      rw [depthFrom_append, hbefore, Option.bind_some, depthFrom_cons, if_neg (Text.ne_of_startsWith hheader (by decide)),
        if_neg (Text.ne_of_startsWith hheader (by decide))]
      exact hex.two
    · rw [hno l hl] at hlater
      cases hlater

/-- A class with two methods: one returns, the other is supplied by the runtime. -/
def sampleLines : List Text := [".class public auto ansi beforefieldinit Program", "\x7b",
  "    .method public static void Main() cil managed", "    \x7b", "        .entrypoint", "        .maxstack 1",
    "        ret", "    \x7d",
  "    .method public virtual instance int32 Invoke(int32) runtime managed", "    \x7b", "    \x7d", "\x7d"]

/-- The sample passes, and its first method has a body that obeys the rules. -/
theorem methods_examined_sample : check sampleLines = .ok () ∧
    ∃ body closing after, sampleLines.drop 4 = body ++ closing :: after ∧ closing.trim = closeBrace ∧ Balanced body ∧
      Obeys "    .method public static void Main() cil managed" (inked [] ++ inked body) := by
  have passes : check sampleLines = .ok () := rfl
  have parts : sampleLines = sampleLines.take 2 ++
      ("    .method public static void Main() cil managed" : Text) :: sampleLines.drop 3 :=
    rfl
  have examined := methods_examined passes parts (by decide)
  exact ⟨passes, examined.1 (by decide) [] "    \x7b" _ rfl (by simp) (by decide)⟩

/-- A method outside of all braces is read over, whatever its lines are. -/
theorem unenclosed_method_passes : ¬∀ (before rest : List Text) (header : Text), check (before ++ header :: rest) = .ok () →
    isHeader header = true → ∃ opening body closing after, rest = opening :: (body ++ closing :: after) ∧
      opening.trim = openBrace ∧
      closing.trim = closeBrace ∧ Balanced body ∧ Obeys header (inked body) := by
  intro claim
  obtain ⟨opening, body, closing, after, hrest, -, hclosing, -, hobeys⟩ :=
    claim [] ["\x7b", "nop", "\x7d"] ".method public static void Main() cil managed" rfl (by decide)
  obtain ⟨-, hrest⟩ := List.cons.inj hrest
  match body, hrest with
  | [], hrest =>
    cases hrest
    revert hclosing
    decide
  | [l], hrest =>
    cases hrest
    revert hobeys
    decide
  | _ :: _ :: _, hrest => simp at hrest

end Listing
end CilCompiler
