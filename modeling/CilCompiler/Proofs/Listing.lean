import CilCompiler.Module.Listing
import CilCompiler.Module.ListingCheck
import CilCompiler.Proofs.Outcome
import CilCompiler.Proofs.Text.Runes

/-! The lines of a type, read by the checker of listings. A line is told by its first word (`plain_join`). Reading the
    lines of a member that ends by returning leads from between members to between members and counts it if it is the
    entry point (`reads_routine`); so does reading the class block of a type, from outside of all braces
    (`reads_class`). -/

namespace CilCompiler

/-! ### First words -/

namespace Text

/-- The first word of a text whose blanks and first word are ASCII. -/
def firstWord (t : Text) : Text := ⟨(t.bytes.dropWhile isBlankByte).takeWhile isInkByte⟩

/-- Neither text starts with the other. -/
def isApart (v w : Text) : Bool := !v.startsWith w && !w.startsWith v

theorem join_pair (a b : Text) : join [a, b] = a ++ b := by
  show Text.mk _ = Text.mk (a.bytes ++ b.bytes)
  simp

/-- Texts that are joined keep the first word of the first. -/
theorem trim_join_startsWith {t : Text} (ht : t.firstWord.isEmpty = false) (rest : List Text) :
    (join (t :: rest)).trim.startsWith t.firstWord = true := by
  have hsplit : (join (t :: rest)).bytes =
      t.bytes.takeWhile isBlankByte ++ ((t.bytes.dropWhile isBlankByte).takeWhile isInkByte ++
        ((t.bytes.dropWhile isBlankByte).dropWhile isInkByte ++ (join rest).bytes)) := by
    rw [← List.append_assoc (List.takeWhile isInkByte _), List.takeWhile_append_dropWhile, ← List.append_assoc,
      List.takeWhile_append_dropWhile]
    rfl
  have hne : (t.bytes.dropWhile isBlankByte).takeWhile isInkByte ≠ [] := by
    intro h
    simp [firstWord, isEmpty, h] at ht
  have htrim : (join (t :: rest)).trim = _ := congrArg (fun bs => (Text.mk bs).trim) hsplit
  rw [htrim, trim_blanks List.all_takeWhile]
  exact trim_startsWith hne List.all_takeWhile _

/-- A number ends with a digit. -/
theorem ofNat_last (n : Nat) : ∃ bs e, (ofNat n).bytes = bs ++ [e] ∧ isInkByte e = true := by
  have digit : ∀ k < 10, String.utf8EncodeChar (Nat.digitChar k) = [UInt8.ofNat (k + 48)] ∧
      isInkByte (UInt8.ofNat (k + 48)) = true := by
    decide
  rw [ofNat, Nat.toDigits_eq_if (by decide)]
  split
  · rename_i hn
    obtain ⟨hc, hink⟩ := digit n hn
    exact ⟨[], _, by simp [ofChars, hc], hink⟩
  · obtain ⟨hc, hink⟩ := digit (n % 10) (Nat.mod_lt _ (by decide))
    exact ⟨(ofChars (Nat.toDigits 10 (n / 10))).bytes, _, by simp [ofChars, hc], hink⟩

theorem startsWith_eq_false {t v w : Text} (ht : t.startsWith v = true) (h : v.isApart w = true) :
    t.startsWith w = false := by
  rw [Bool.eq_false_iff]
  intro hw
  simp only [startsWith, List.isPrefixOf_iff_prefix] at ht hw
  simp only [isApart, startsWith, Bool.and_eq_true, Bool.not_eq_true', Bool.eq_false_iff, ne_eq,
      List.isPrefixOf_iff_prefix] at h
  rcases List.prefix_or_prefix_of_prefix ht hw with h' | h'
  · exact h.2 h'
  · exact h.1 h'

theorem ne_of_startsWith {t v w : Text} (ht : t.startsWith v = true) (h : v.isApart w = true) : t ≠ w := by
  rintro rfl
  simp [isApart, ht] at h

end Text

namespace Listing

/-! ### Reading lines -/

/-- Lines are read one part after the other. -/
theorem lines_append (s : Scan) (n : Nat) (ls ls' : List Text) :
    s.lines n (ls ++ ls') = s.lines n ls >>= fun s => s.lines (n + ls.length) ls' := by
  induction ls generalizing s n with
  | nil => rfl
  | cons l ls ih =>
    rw [List.cons_append, Scan.lines, Scan.lines]
    cases s.step n l.trim with
    | error f => rfl
    | ok s₂ =>
      show s₂.lines (n + 1) (ls ++ ls') = s₂.lines (n + 1) ls >>= fun s => s.lines (n + (l :: ls).length) ls'
      rw [ih, List.length_cons, show n + 1 + ls.length = n + (ls.length + 1) by omega]

/-- Reading lines leads from one state to another, whatever their numbers. -/
def Reads (ls : List Text) (s s' : Scan) : Prop := ∀ n, s.lines n ls = .ok s'

namespace Reads
variable {s s₁ s' : Scan} {l : Text} {ls ls' : List Text}

theorem nil (s : Scan) : Reads [] s s := fun _ => rfl

theorem cons (hl : ∀ n, s.step n l.trim = .ok s₁) (h : Reads ls s₁ s') : Reads (l :: ls) s s' := by
  intro n
  rw [Scan.lines, hl]
  exact h (n + 1)

theorem append (h : Reads ls s s₁) (h' : Reads ls' s₁ s') : Reads (ls ++ ls') s s' := by
  intro n
  rw [lines_append, h n]
  exact h' _

theorem single (hl : ∀ n, s.step n l.trim = .ok s') : Reads [l] s s' := .cons hl (.nil _)

end Reads

/-- A line that neither opens nor closes anything. -/
structure Plain (line : Text) : Prop where
  notOpen : line ≠ openBrace
  notClose : line ≠ closeBrace
  notMethod : line.startsWith ".method " = false

/-- A word that no brace and no header of a method starts with. -/
def isPlainWord (w : Text) : Bool := w.isApart openBrace && w.isApart closeBrace && w.isApart ".method "

theorem plain_of_startsWith {l w : Text} (hl : l.startsWith w = true) (hw : isPlainWord w = true) : Plain l := by
  simp only [isPlainWord, Bool.and_eq_true] at hw
  exact ⟨Text.ne_of_startsWith hl hw.1.1, Text.ne_of_startsWith hl hw.1.2, Text.startsWith_eq_false hl hw.2⟩

/-- Whether a text has a first word, and a line that starts with it opens and closes nothing. -/
def isPlainStart (t : Text) : Bool := !t.firstWord.isEmpty && isPlainWord t.firstWord

theorem plain_join {t : Text} (ht : isPlainStart t = true) (rest : List Text) : Plain (Text.join (t :: rest)).trim := by
  simp only [isPlainStart, Bool.and_eq_true, Bool.not_eq_true'] at ht
  exact plain_of_startsWith (Text.trim_join_startsWith ht.1 rest) ht.2

theorem step_plain_outside {l : Text} (h : Plain l) {s : Scan} (hs : s.method = none) (n : Nat) : s.step n l = .ok s := by
  rw [Scan.step, if_neg h.notOpen, if_neg h.notClose, h.notMethod, if_neg Bool.false_ne_true, hs]

theorem step_open (s : Scan) (n : Nat) : s.step n openBrace = .ok { s with depth := s.depth + 1 } := by
  rw [Scan.step, if_pos rfl]

theorem reads_outside {ls : List Text} (h : ∀ l ∈ ls, Plain l.trim) {s : Scan} (hs : s.method = none) : Reads ls s s := by
  induction ls with
  | nil => exact .nil s
  | cons l ls ih =>
    exact .cons (step_plain_outside (h l List.mem_cons_self) hs) (ih fun l hl => h l (List.mem_cons_of_mem _ hl))

/-- Whether a line marks the entry point. -/
def isEntryLine (l : Text) : Bool := l.trim = ".entrypoint"

/-- A line does not mark the entry point if its first word is another. -/
theorem not_entry_join {t : Text} (ht : (!t.firstWord.isEmpty && t.firstWord.isApart ".entrypoint") = true)
    (rest : List Text) :
    isEntryLine (Text.join (t :: rest)) = false := by
  simp only [Bool.and_eq_true, Bool.not_eq_true'] at ht
  exact decide_eq_false (Text.ne_of_startsWith (Text.trim_join_startsWith ht.1 rest) ht.2)

/-- The lines of a body are kept, last first. -/
theorem reads_body {ls : List Text} (h : ∀ l ∈ ls, Plain l.trim) (d e : Nat) (header : Text) (body : List Text) :
    Reads ls ⟨d, e, some (header, body)⟩ ⟨d, e + ls.countP isEntryLine,
      some (header, (ls.map Text.trim).reverse ++ body)⟩ := by
  induction ls generalizing e body with
  | nil => exact .nil _
  | cons l ls ih =>
    have hl := h l List.mem_cons_self
    have hstep : ∀ n, (⟨d, e, some (header, body)⟩ : Scan).step n l.trim =
        .ok ⟨d, if l.trim = ".entrypoint" then e + 1 else e, some (header, l.trim :: body)⟩ := by
      intro n
      rw [Scan.step, if_neg hl.notOpen, if_neg hl.notClose, hl.notMethod, if_neg Bool.false_ne_true]
    refine .cons hstep ?_
    have hcount : e + (l :: ls).countP isEntryLine = (if l.trim = ".entrypoint" then e + 1 else e) +
        ls.countP isEntryLine := by
      rw [List.countP_cons]
      by_cases he : l.trim = ".entrypoint"
      · simp [isEntryLine, he]
        omega
      · simp [isEntryLine, he]
    rw [hcount]
    have hlines : ((l :: ls).map Text.trim).reverse ++ body = (ls.map Text.trim).reverse ++ l.trim :: body := by simp
    rw [hlines]
    exact ih (fun l hl => h l (List.mem_cons_of_mem _ hl)) _ _

/-- A method that passes the check is read from between members to between members. -/
theorem reads_method {header : Text} (hh : header.trim.startsWith ".method " = true) {ls : List Text}
    (hls : ∀ l ∈ ls, Plain l.trim)
    (hok : checkBody header.trim (ls.map Text.trim) = .ok ()) (e : Nat) :
    Reads (header :: "    \x7b" :: (ls ++ [("    \x7d" : Text)])) ⟨1, e, none⟩ ⟨1, e + ls.countP isEntryLine, none⟩ := by
  have hopen : ("    \x7b" : Text).trim = openBrace := by decide
  have hclose : ("    \x7d" : Text).trim = closeBrace := by decide
  have hheader : ∀ n, (⟨1, e, none⟩ : Scan).step n header.trim = .ok ⟨1, e, some (header.trim, [])⟩ := by
    intro n
    have hno : header.trim ≠ openBrace := Text.ne_of_startsWith hh (by decide)
    have hnc : header.trim ≠ closeBrace := Text.ne_of_startsWith hh (by decide)
    rw [Scan.step, if_neg hno, if_neg hnc, hh, if_pos rfl]
  have hbrace : ∀ n, (⟨1, e, some (header.trim, [])⟩ : Scan).step n ("    \x7b" : Text).trim =
      .ok ⟨2, e, some (header.trim, [])⟩ := by
    intro n
    rw [hopen, step_open]
  refine .cons hheader (.cons hbrace ((reads_body hls 2 e header.trim []).append (.single fun n => ?_)))
  rw [hclose, Scan.step, if_neg (by decide), if_pos rfl]
  simp only [List.append_nil, List.reverse_reverse, hok]

end Listing

/-! ### The lines of a member -/

open Listing

/-- A body of which nothing has been recorded, or a `ret` last. -/
def Draft.EndsInReturn (d : Draft) : Prop := d.code = #[] ∨ d.code.back? = some { op := .ret }

/-- A mnemonic starts with a letter. -/
theorem Opcode.mnemonic_letter (op : Opcode) :
    ∃ b bs, op.mnemonic.bytes = b :: bs ∧ Text.isInkByte b = true ∧ isPlainWord ⟨[b]⟩ = true ∧
      (Text.mk [b]).isApart ".entrypoint" = true := by
  cases op
  all_goals exact ⟨_, _, rfl, by decide⟩

namespace Module
variable (m : Module)

/-- The line of an instruction starts with its mnemonic. -/
theorem instrLine_letter (i : Instr) :
    ∃ b, (Text.join ["        ", m.instrLine i]).trim.startsWith ⟨[b]⟩ = true ∧ isPlainWord ⟨[b]⟩ = true ∧
      (Text.mk [b]).isApart ".entrypoint" = true := by
  obtain ⟨b, bs, hbs, hink, hplain, hentry⟩ := i.op.mnemonic_letter
  have hline : ∃ rest, (m.instrLine i).bytes = b :: rest := by
    unfold instrLine
    split
    · split
      · exact ⟨bs, hbs⟩
      · simp only [Text.join, List.flatMap_cons, hbs, List.cons_append]
        exact ⟨_, rfl⟩
    · exact ⟨bs, hbs⟩
  obtain ⟨rest, hrest⟩ := hline
  refine ⟨b, ?_, hplain, hentry⟩
  have hbytes : Text.join ["        ", m.instrLine i] = ⟨("        " : Text).bytes ++ ([b] ++ rest)⟩ := by
    simp [Text.join, hrest]
  rw [hbytes, Text.trim_blanks (by decide)]
  exact Text.trim_startsWith (by simp) (by simp [hink]) rest

theorem trim_stackSize (n : Nat) :
    (Text.join ["        .maxstack ", Text.ofNat n]).trim.startsWith ".maxstack " = true := by
  obtain ⟨bs, e, hn, he⟩ := Text.ofNat_last n
  have hbytes : Text.join ["        .maxstack ", Text.ofNat n] =
      ⟨("        " : Text).bytes ++ 46 :: ((("maxstack " : Text).bytes ++ bs) ++ [e])⟩ := by
    simp only [Text.join, List.flatMap_cons, List.flatMap_nil, List.append_nil, hn, List.append_assoc]
    rfl
  rw [hbytes, Text.trim_blanks (by decide), Text.trim_eq_self (by decide) he]
  simp only [Text.startsWith, List.isPrefixOf_iff_prefix, List.append_assoc]
  exact List.prefix_append (".maxstack " : Text).bytes (bs ++ [e])

/-- The lines inside the braces of a method open and close nothing. -/
theorem plain_bodyLines (r : Method) (b : Body) : ∀ l ∈ m.bodyLines r b, Plain l.trim := by
  intro l hl
  simp only [bodyLines, List.mem_append, List.mem_map] at hl
  rcases hl with ((hl | hl) | hl) | ⟨i, -, rfl⟩
  · split at hl
    · cases List.mem_singleton.mp hl
      exact plain_of_startsWith (w := ".entrypoint") (by decide) (by decide)
    · cases hl
  · cases List.mem_singleton.mp hl
    exact plain_join (by decide) _
  · split at hl
    · cases hl
    · cases List.mem_singleton.mp hl
      exact plain_join (by decide) _
  · obtain ⟨b, hb, hplain, -⟩ := m.instrLine_letter i
    exact plain_of_startsWith hb hplain

/-- Only the first line of the entry point marks it. -/
theorem countP_bodyLines (r : Method) (b : Body) :
    (m.bodyLines r b).countP isEntryLine = if m.entry = some r then 1 else 0 := by
  have mark : isEntryLine "        .entrypoint" = true := by decide
  have code : (b.code.toList.map fun i => Text.join ["        ", m.instrLine i]).countP isEntryLine = 0 := by
    rw [List.countP_eq_zero]
    intro l hl
    obtain ⟨i, -, rfl⟩ := List.mem_map.mp hl
    obtain ⟨c, hc, -, hentry⟩ := m.instrLine_letter i
    simp [isEntryLine, Text.ne_of_startsWith hc hentry]
  have locals : ∀ ts : List Text, isEntryLine (Text.join ("        .locals init (" :: ts)) = false :=
    not_entry_join (by decide)
  have stack : ∀ ts : List Text, isEntryLine (Text.join ("        .maxstack " :: ts)) = false :=
    not_entry_join (by decide)
  rw [bodyLines, List.countP_append, List.countP_append, List.countP_append, code]
  by_cases he : m.entry = some r <;> by_cases hl : b.locals.isEmpty = true <;> simp [he, hl, mark, locals, stack]

/-- The header of a method without the blanks before it. -/
theorem trim_methodLine (x : Routine) :
    ∃ mid : List UInt8, (m.methodLine x).trim =
      ⟨(".method " : Text).bytes ++ mid ++ (" " ++ x.impl.words : Text).bytes⟩ := by
  have hwords : ∃ bs : List UInt8, (" " ++ x.impl.words : Text).bytes = bs ++ [100] := by
    unfold Implementation.words
    split
    · exact ⟨(" runtime manage" : Text).bytes, by decide⟩
    · exact ⟨(" cil manage" : Text).bytes, by decide⟩
  obtain ⟨bs, hbs⟩ := hwords
  obtain ⟨params, hline⟩ : ∃ params : Text, m.methodLine x = Text.join ["    .method ", x.method.attrs.words, " ",
      if x.method.isStatic then "" else "instance ", m.optTypeRef x.method.ret, " ", x.method.name, "(", params, ") ",
      x.impl.words] := ⟨_, rfl⟩
  generalize hmid :
      Text.join [x.method.attrs.words, " ", if x.method.isStatic then "" else "instance ", m.optTypeRef x.method.ret, " ",
    x.method.name, "(", params, ")"] = mid
  refine ⟨mid.bytes, ?_⟩
  have hbytes :
      m.methodLine x = ⟨("    " : Text).bytes ++ 46 :: ((("method " : Text).bytes ++ mid.bytes ++ bs) ++ [100])⟩ := by
    have hlead : ("    .method " : Text).bytes = ("    " : Text).bytes ++ 46 :: ("method " : Text).bytes := by decide
    have hclose : (") " : Text).bytes = (")" : Text).bytes ++ (" " : Text).bytes := by decide
    have hend : (" " : Text).bytes ++ x.impl.words.bytes = bs ++ [100] := hbs
    rw [hline, ← hmid]
    simp only [Text.join, List.flatMap_cons, List.flatMap_nil, List.append_nil, hlead, hclose, hend, List.append_assoc,
      List.cons_append]
  rw [hbytes, Text.trim_blanks (by decide), Text.trim_eq_self (by decide) (by decide), hbs]
  have hdot : (".method " : Text).bytes = 46 :: ("method " : Text).bytes := by decide
  simp only [hdot, List.cons_append, List.append_assoc]

theorem methodLine_startsWith (x : Routine) : (m.methodLine x).trim.startsWith ".method " = true := by
  obtain ⟨mid, h⟩ := m.trim_methodLine x
  rw [h, Text.startsWith, List.isPrefixOf_iff_prefix, List.append_assoc]
  exact List.prefix_append _ _

/-- The header says whether the runtime supplies the method. -/
theorem isRuntime_methodLine (x : Routine) : isRuntime (m.methodLine x).trim = decide (x.impl = .runtime) := by
  obtain ⟨mid, h⟩ := m.trim_methodLine x
  rw [h, isRuntime, Text.endsWith]
  by_cases hx : x.impl = .runtime
  · rw [decide_eq_true hx, List.isSuffixOf_iff_suffix, Implementation.words, if_pos hx]
    exact List.suffix_append _ _
  · rw [decide_eq_false hx, Implementation.words, if_neg hx, List.isSuffixOf, List.reverse_append]
    rfl

/-- A body that ends in `ret` passes the check. -/
theorem checkBody_bodyLines {x : Routine} (hx : x.impl ≠ .runtime) {b : Body} (hb : b.code.back? = some { op := .ret }) :
    checkBody (m.methodLine x).trim ((m.bodyLines x.method b).map Text.trim) = .ok () := by
  have hsize : ((m.bodyLines x.method b).map Text.trim).any (fun l => l.startsWith ".maxstack ") = true := by
    rw [List.any_map, List.any_eq_true]
    exact ⟨_, by simp only [bodyLines, List.mem_append]; exact .inl (.inl (.inr (List.mem_singleton_self _))),
        trim_stackSize _⟩
  have hlast : lastInstruction ((m.bodyLines x.method b).map Text.trim) = "ret" := by
    obtain ⟨l, hl⟩ : ∃ l, b.code.toList = l ++ [{ op := .ret }] := by
      rw [← Array.getLast?_toList] at hb
      exact List.getLast?_eq_some_iff.mp hb
    have hret : (Text.join ["        ", m.instrLine { op := .ret }]).trim = "ret" := by
      show (Text.join ["        ", "ret"]).trim = "ret"
      decide
    obtain ⟨pre, hpre⟩ : ∃ pre, m.bodyLines x.method b = pre ++ [Text.join ["        ", m.instrLine { op := .ret }]] := by
      rw [bodyLines, hl, List.map_append, ← List.append_assoc]
      exact ⟨_, rfl⟩
    have hkeep : [("ret" : Text)].filter (fun l => !l.startsWith ".") = [("ret" : Text)] := by decide
    rw [lastInstruction, hpre, List.map_append, List.filter_append, List.map_singleton, hret, hkeep, List.getLast?_append]
    rfl
  rw [checkBody, isRuntime_methodLine, decide_eq_false hx, if_neg Bool.false_ne_true, hsize, hlast]
  simp

/-- Whether a member is listed as the entry point. -/
def listsEntry (x : Routine) : Bool := x.impl ≠ .runtime ∧ m.entry = some x.method

/-- The lines of a member lead from between members to between members. -/
theorem reads_routine {x : Routine} (hx : x.draft.EndsInReturn) {ls : List Text} (h : m.routineLines x = .ok ls) (e : Nat) :
    Reads ls ⟨1, e, none⟩ ⟨1, e + if m.listsEntry x then 1 else 0, none⟩ := by
  unfold routineLines at h
  dsimp only at h
  split at h
  · rename_i himpl
    cases h
    have hok : checkBody (m.methodLine x).trim [] = .ok () := by
      rw [checkBody, isRuntime_methodLine, decide_eq_true himpl]
      rfl
    have hno : m.listsEntry x = false := by simp [listsEntry, himpl]
    rw [hno]
    have hempty : ∀ l ∈ ([] : List Text), Plain l.trim := fun l hl => (by cases hl)
    exact reads_method (m.methodLine_startsWith x) hempty hok e
  · rename_i himpl
    split at h
    · rename_i b hb
      cases h
      unfold Draft.settle at hb
      split at hb
      · cases hb
      · rename_i hne
        split at hb
        · cases hb
        · cases hb
          have hlast : x.draft.code.back? = some { op := .ret } := by
            rcases hx with hx | hx
            · simp [hx] at hne
            · exact hx
          have hcount :=
            m.countP_bodyLines x.method { code := x.draft.code, locals := x.draft.locals, maxStack := x.draft.peak }
          have hentry : (if m.listsEntry x then 1 else 0) = if m.entry = some x.method then 1 else 0 :=
            by simp [listsEntry, himpl]
          rw [hentry, ← hcount]
          exact reads_method (m.methodLine_startsWith x) (m.plain_bodyLines _ _) (m.checkBody_bodyLines himpl hlast) e
    · cases h

/-! ### The lines of a type -/

theorem reads_routines {xs : List Routine} (hx : ∀ x ∈ xs, x.draft.EndsInReturn) {lss : List (List Text)}
    (h : xs.mapM m.routineLines = .ok lss) (e : Nat) :
    Reads lss.flatten ⟨1, e, none⟩ ⟨1, e + xs.countP m.listsEntry, none⟩ := by
  induction xs generalizing lss e with
  | nil =>
    cases h
    exact .nil _
  | cons x xs ih =>
    rw [List.mapM_cons] at h
    obtain ⟨ls, h1, h⟩ := bind_eq_ok.mp h
    obtain ⟨lss', h2, h⟩ := bind_eq_ok.mp h
    cases h
    rw [List.flatten_cons, List.countP_cons, Nat.add_comm (List.countP _ xs), ← Nat.add_assoc]
    exact (m.reads_routine (hx x List.mem_cons_self) h1 e).append (ih (fun y hy => hx y (List.mem_cons_of_mem _ hy)) h2 _)

/-- The parts of a class block. -/
theorem classLines_ok {d : TypeDef} {ls : List Text} (h : m.classLines d = .ok ls) :
    ∃ extend lss, (∀ l ∈ extend, Plain l.trim ∧ isEntryLine l = false) ∧ d.routines.mapM m.routineLines = .ok lss ∧
      ls = [Text.join [".class ", d.attrs.words, " ", d.type.name]] ++ extend ++ [("\x7b" : Text)] ++
        (d.fields.toList.map fun f => Text.join ["    .field ", f.attrs.words, " ", m.optTypeRef f.type, " ", f.name]) ++
        lss.flatten ++ [("\x7d" : Text)] := by
  unfold classLines at h
  dsimp only at h
  split at h
  · obtain ⟨_, hextend, h⟩ := bind_eq_ok.mp h
    cases hextend
    obtain ⟨lss, hlss, h⟩ := bind_eq_ok.mp h
    cases h
    exact ⟨[], lss, fun l hl => (by cases hl), hlss, rfl⟩
  · rename_i b hb
    split at h
    · obtain ⟨_, hextend, h⟩ := bind_eq_ok.mp h
      cases hextend
      obtain ⟨lss, hlss, h⟩ := bind_eq_ok.mp h
      cases h
      refine ⟨["       extends " ++ m.qualified b], lss, fun l hl => ?_, hlss, rfl⟩
      cases List.mem_singleton.mp hl
      rw [← Text.join_pair]
      exact ⟨plain_join (by decide) _, not_entry_join (by decide) _⟩
    · cases h

/-- The class block of a type leads from outside of all braces to outside of all braces. -/
theorem reads_class {d : TypeDef} (hd : ∀ x ∈ d.routines, x.draft.EndsInReturn) {ls : List Text}
    (h : m.classLines d = .ok ls) (e : Nat) :
    Reads ls ⟨0, e, none⟩ ⟨0, e + d.routines.countP m.listsEntry, none⟩ := by
  obtain ⟨extend, lss, plainExtend, hlss, rfl⟩ := m.classLines_ok h
  have hopen : ∀ n, (⟨0, e, none⟩ : Scan).step n ("\x7b" : Text).trim = .ok ⟨1, e, none⟩ := by
    intro n
    rw [show ("\x7b" : Text).trim = openBrace by decide, step_open]
  have hclose : ∀ n, (⟨1, e + d.routines.countP m.listsEntry, none⟩ : Scan).step n ("\x7d" : Text).trim =
      .ok ⟨0, e + d.routines.countP m.listsEntry, none⟩ := by
    intro n
    rw [show ("\x7d" : Text).trim = closeBrace by decide, Scan.step, if_neg (by decide), if_pos rfl]
    rfl
  have plainFields : ∀ l ∈ d.fields.toList.map fun f =>
      Text.join ["    .field ", f.attrs.words, " ", m.optTypeRef f.type, " ", f.name], Plain l.trim := by
    intro l hl
    obtain ⟨f, -, rfl⟩ := List.mem_map.mp hl
    exact plain_join (by decide) _
  refine (((((Reads.single fun n => ?_).append
    (reads_outside (fun l hl => (plainExtend l hl).1) rfl)).append (.single hopen)).append
    (reads_outside plainFields rfl)).append (m.reads_routines hd hlss e)).append (.single hclose)
  exact step_plain_outside (plain_join (by decide) _) rfl n

end Module
end CilCompiler
