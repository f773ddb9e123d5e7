import CilCompiler.Proofs.Typed.Values

/-! Calls in typed heaps. A member of the catalog that is called with arguments of its parameters leaves a typed heap
    and gives a value of its type, or fails (`Native.run_typed`). A call of any method that a machine provides is over
    like that, or begins with a frame whose arguments and locals are in cells of their types
    (`Platform.Provides.enters`). A call fails with a fault; where the platform is plain the fault is expected, and
    when a member fails on null, its last argument is null (`Platform.Failed`). -/

namespace CilCompiler

/-! ### Faults -/

/-- What goes wrong in code that is typed: a reference is null, a number is out of range, an operator has no result,
    calls go too deep, a text is no number, or a number has no absolute value. -/
def RuntimeCause.isExpected : RuntimeCause → Bool
  | .parsedText .. | .absoluteOverflow .. => true
  | c => c.code ∈ [Code.nullReference, .indexRange, .divideByZero, .overflow, .callDepth]

/-- How a run of typed code fails: for such a cause, by a cancellation, or for a builder whose length is no number. -/
def Fault.isExpected : Fault → Bool
  | .diagnosed (.runtime c) => c.isExpected
  | .within _ .canceled => true
  | .within c (.plain m) => c = "StringBuilder length" && m = "out of range"
  | _ => false

/-- A call fails as expected; on a null reference its last argument is null. -/
structure Halt.Expected (h : Halt) (args : List Value) : Prop where
  fault : ∃ f, h = .fault f ∧ f.isExpected = true ∧ (f.code? = some .nullReference → args.getLast? = some .null)

/-! ### Arguments -/

namespace Heap
variable {h : Heap} {v : Value} {args : List Value} {params : List (Option Ty)}

theorem Takes.one (ha : h.Takes args params) (hl : params.length = 1) : ∃ a, args = [a] :=
  List.length_eq_one_iff.mp (ha.length_eq.trans hl)

theorem Takes.two (ha : h.Takes args params) (hl : params.length = 2) : ∃ a b, args = [a, b] :=
  List.length_eq_two.mp (ha.length_eq.trans hl)

theorem Takes.single {t : Ty} (ha : h.Takes args [some t]) : ∃ a, args = [a] ∧ h.Belongs a t.key := by
  cases ha with
  | cons hb hnil =>
    cases hnil
    obtain ⟨_, he, hb⟩ := hb
    cases he
    exact ⟨_, rfl, hb⟩

theorem Returns.of_name {ret : Option Ty} {n : Text} (hret : ret.any (fun t => t.name = n) = true)
    (hn : n ∈ [TypeName.int32, TypeName.boolean, TypeName.intPtr, TypeName.string, TypeName.object,
      TypeName.stringBuilder, TypeName.void])
    (hv : h.Belongs v n) : h.Returns ret v := by
  rintro t rfl -
  rwa [Ty.key_host (show t.name = n from of_decide_eq_true hret) hn]

theorem Returns.int {ret : Option Ty} {x : Int32} (hret : ret.any (fun t => t.name = TypeName.int32) = true) :
    h.Returns ret (.int x) :=
  .of_name hret (by decide) (.number (.inl rfl))

theorem Returns.bool {ret : Option Ty} {b : Bool} (hret : ret.any (fun t => t.name = TypeName.boolean) = true) :
    h.Returns ret (.bool b) :=
  .of_name hret (by decide) (.number (.inr rfl))

theorem Returns.str {ret : Option Ty} {s : Text} (hret : ret.any (fun t => t.name = TypeName.string) = true) :
    h.Returns ret (.str s) :=
  .of_name hret (by decide) .string

/-- Where nothing is returned, anything will do. -/
theorem Returns.of_void {ret : Option Ty} (hret : ret.any (fun t => t.name = TypeName.void) = true) : h.Returns ret v := by
  rintro t rfl hn
  rw [Ty.isVoid, show decide (t.name = TypeName.void) = true from hret] at hn
  cases hn

end Heap

namespace Platform
variable {P : Platform} {ts ts' : List Text} {h : Heap} {w : World} {r : Method} {args recv : List Value}
    {v : Value} {e : Halt}

theorem Receivers.static (hr : P.Receivers h r recv) (hs : r.isStatic = true) : recv = [] := by
  unfold Receivers at hr
  rwa [if_pos hs] at hr

theorem Receivers.instance (hr : P.Receivers h r recv) (hs : r.isStatic = false) : ∃ v, recv = [v] ∧ P.Receives h r v := by
  unfold Receivers at hr
  rwa [if_neg (by rw [hs]; exact Bool.false_ne_true)] at hr

theorem Receives.belongs (hv : P.Receives h r v) (hvalue : r.owner.isValue = false)
    (hobject : r.owner.name ≠ TypeName.object) :
    h.Belongs v r.owner.key := by
  rcases hv.type with ht | ht | ht
  · rw [hvalue] at ht
    cases ht
  · exact absurd ht hobject
  · exact ht

/-- A call that has failed. The fault is expected where the platform is plain, and elsewhere the heap that is left is
    typed. -/
structure Failed (P : Platform) (ts : List Text) (h : Heap) (args : List Value) (e : Halt) (w : World) : Prop where
  fault : ∃ x, e = .fault x
  expected : P.plain → e.Expected args
  typed : ¬P.plain → ∃ ts', P.Later ts h ts' w.heap

/-- How a call ends that is over at once. -/
def Ends (P : Platform) (ts : List Text) (h : Heap) (r : Method) (args : List Value) : Except Halt Value × World → Prop
  | (.ok v, w) => ∃ ts', P.Later ts h ts' w.heap ∧ w.heap.Returns r.ret v
  | (.error e, w) => P.Failed ts h args e w

theorem Ends.still (ht : P.Typed ts w.heap) {v : Value} (hv : w.heap.Returns r.ret v) :
    P.Ends ts w.heap r args (.ok v, w) :=
  ⟨ts, .refl ht, hv⟩

theorem Failed.expected_still (ht : P.Typed ts w.heap) (he : e.Expected args) : P.Failed ts w.heap args e w :=
  ⟨he.fault.imp fun _ hx => hx.1, fun _ => he, fun _ => ⟨ts, .refl ht⟩⟩

/-- What only happens where the platform is not plain. -/
theorem Failed.confused (ht : P.Typed ts w.heap) (hplain : ¬P.plain) (x : Fault) : P.Failed ts w.heap args (.fault x) w :=
  ⟨⟨x, rfl⟩, fun hp => absurd hp hplain, fun _ => ⟨ts, .refl ht⟩⟩

/-- Where boxes hold numbers and pointers, every value has a text. -/
theorem shown_of_plain {h : Heap} (hb : ∀ {id : Nat} {o : Obj} {v : Value}, h.objects[id]? = some o → o.boxed = some v →
    (∃ n, v = .int n) ∨ ∃ q, v = .func q) (isBool : Bool) (v : Value) : ∃ t, Native.shown h isBool v = .ok t := by
  unfold Native.shown
  cases htext : h.textOf isBool v with
  | some t => exact ⟨t, rfl⟩
  | none =>
    obtain ⟨id, o, u, hv, ho, hu⟩ := Heap.boxed_of_textFrom htext
    have hlt := (Array.getElem?_eq_some_iff.mp ho).1
    obtain ⟨fuel, hfuel⟩ : ∃ k, h.objects.size = k + 1 := ⟨h.objects.size - 1, by omega⟩
    rw [Heap.textOf, hfuel, Heap.textFrom_box hv ho hu] at htext
    obtain ⟨_, _, _, hderef, -, -⟩ := Heap.boxed_of_textFrom htext
    rcases hb ho hu with ⟨n, rfl⟩ | ⟨q, rfl⟩
    · cases hderef
    · cases hderef

theorem Typed.text {h : Heap} (ht : P.Typed ts h) (isBool : Bool) (v : Value) : ∃ t, Native.shown h isBool v = .ok t :=
  shown_of_plain (fun ho hu => ((ht.object ho).box hu).2) isBool v

end Platform

/-! ### Members of the catalog -/

namespace Native
variable {P : Platform} {ts : List Text} {w : World} {r : Method} {recv args : List Value}

theorem stringOf_of_belongs {h : Heap} {v : Value} (hv : h.Belongs v TypeName.string) :
    v = .null ∧ stringOf h v = .error (.fault (.runtime (.stringReceiver (Value.kindName .null)))) ∨
      ∃ s, stringOf h v = .ok s := by
  rcases hv.string? rfl with rfl | ⟨s, rfl⟩
  · exact .inl ⟨rfl, rfl⟩
  · exact .inr ⟨s, rfl⟩

/-- A member of strings is called on a string, or on null. -/
theorem string_receiver {h : Heap} (hr : P.Receivers h r recv) (hst : r.isStatic = false) (hvalue : r.owner.isValue = false)
    (hn : r.owner.name = TypeName.string) :
    ∃ v, recv = [v] ∧ ((∃ s, stringOf h v = .ok s) ∨ ¬P.plain ∧ ∃ x, stringOf h v = .error (.fault x)) := by
  obtain ⟨v, rfl, hv⟩ := hr.instance hst
  have hbelongs := hv.belongs hvalue (by rw [hn]; decide)
  rw [Ty.key_host hn (by decide)] at hbelongs
  refine ⟨v, rfl, ?_⟩
  rcases stringOf_of_belongs hbelongs with ⟨hnull, hfault⟩ | hs
  · exact .inr ⟨fun hp => hv.notNull hp hnull, _, hfault⟩
  · exact .inl hs

/-- A member of builders is called on a builder, or on null. -/
theorem builder_receiver {h : Heap} (ht : P.Typed ts h) (hr : P.Receivers h r recv) (hst : r.isStatic = false)
    (hvalue : r.owner.isValue = false) (hn : r.owner.name = TypeName.stringBuilder) :
    ∃ v, recv = [v] ∧ ((∃ id t, v = .obj id ∧ builderOf h v = .ok (id, t) ∧ h.Belongs v TypeName.stringBuilder) ∨
      ¬P.plain ∧ ∃ x, builderOf h v = .error (.fault x)) := by
  obtain ⟨v, rfl, hv⟩ := hr.instance hst
  have hbelongs := hv.belongs hvalue (by rw [hn]; decide)
  rw [Ty.key_host hn (by decide)] at hbelongs
  refine ⟨v, rfl, ?_⟩
  rcases hbelongs.reference? (by decide) with rfl | ⟨id, o, rfl, ho, -, hkey⟩ | ⟨_, _, -, -, hkey⟩
  · exact .inr ⟨fun hp => hv.notNull hp rfl, _, rfl⟩
  · cases hbuffer : o.buffer with
    | some t => exact .inl ⟨id, t, rfl, by simp [builderOf, Heap.deref, ho, hbuffer], hbelongs⟩
    | none =>
      refine .inr ⟨fun hp => (ht.object ho).builder hp hkey hbuffer, .runtime (.notABuilder o.type.name), ?_⟩
      simp [builderOf, Heap.deref, ho, hbuffer]
  · exact absurd hkey (TypeName.array_ne (by decide))

theorem expected_of {c : RuntimeCause} (hc : c.isExpected = true) (hnull : decide (c.code = .nullReference) = false)
    (args : List Value) :
    Halt.Expected (.fault (.runtime c)) args :=
  ⟨_, rfl, hc, fun he => absurd (Option.some.inj he) (of_decide_eq_false hnull)⟩

theorem ends_of_expected (ht : P.Typed ts w.heap) {c : RuntimeCause} (hc : c.isExpected = true)
    (hnull : decide (c.code = .nullReference) = false) (args : List Value) :
    P.Ends ts w.heap r args (.error (.fault (.runtime c)), w) :=
  .expected_still ht (expected_of hc hnull args)

/-- A text has a length, or one that is no number. -/
theorem lengthOf_ends (ht : P.Typed ts w.heap) (hret : r.ret.any (fun t => t.name = TypeName.int32) = true) {f : Fault}
    (hf : f.isExpected = true ∧ f.code? ≠ some .nullReference) (t : Text) (args : List Value) :
    P.Ends ts w.heap r args (still w (lengthOf f t)) := by
  unfold lengthOf still
  split
  · exact .still ht (.int hret)
  · exact .expected_still ht ⟨f, rfl, hf.1, fun he => absurd he hf.2⟩

theorem substring_ends (ht : P.Typed ts w.heap) (hret : r.ret.any (fun t => t.name = TypeName.string) = true) (s : Text)
    (start count : Int32) (args : List Value) :
      P.Ends ts w.heap r args (still w ((substring s start count).map Value.str)) := by
  unfold substring
  dsimp only
  split
  · exact ends_of_expected ht rfl rfl args
  · exact .still ht (.str hret)

theorem absolute_ends (ht : P.Typed ts w.heap) (hret : r.ret.any (fun t => t.name = TypeName.int32) = true) (v : Int32)
    (args : List Value) : P.Ends ts w.heap r args (still w ((absolute v).map Value.int)) := by
  unfold absolute
  split
  · exact ends_of_expected ht rfl rfl args
  · exact .still ht (.int hret)

theorem parse_ends (ht : P.Typed ts w.heap) (hret : r.ret.any (fun t => t.name = TypeName.int32) = true) (v : Value) :
    P.Ends ts w.heap r [v] (still w ((parse v).map Value.int)) := by
  unfold parse
  split
  · rename_i hnull
    refine .expected_still ht ⟨_, rfl, rfl, fun _ => ?_⟩
    cases v with
    | null => rfl
    | _ => cases hnull
  · dsimp only
    split
    · exact .still ht (.int hret)
    · exact ends_of_expected ht rfl rfl _

/-- A string is looked for in another; null is none. -/
theorem contains_ends (ht : P.Typed ts w.heap) (hret : r.ret.any (fun t => t.name = TypeName.boolean) = true)
    {v b : Value} {s : Text}
    (hs : stringOf w.heap v = .ok s) (hb : w.heap.Belongs b TypeName.string) (module : Nat) :
    P.Ends ts w.heap r [v, b] (Native.stringContains.run module w [v, b]) := by
  rcases stringOf_of_belongs hb with ⟨rfl, hnull⟩ | ⟨q, hq⟩
  · simp only [run, hs, hnull]
    exact .expected_still ht ⟨_, rfl, rfl, fun _ => rfl⟩
  · simp only [run, hs, hq]
    exact .still ht (.bool hret)

/-- Numbering a method leaves the heap. -/
theorem pointerNumber_ends (ht : P.Typed ts w.heap)
    (hret : r.ret.any (fun t => t.name = TypeName.int32) = true) (module : Nat)
    (v : Value) : P.Ends ts w.heap r [v] (Native.pointerNumber.run module w [v]) := by
  have hheap := w.numberOf_heap module (w.heap.unboxed v).method?
  cases hnumber : w.numberOf module (w.heap.unboxed v).method? with
  | mk x w' =>
  have hheap : w'.heap = w.heap := by rw [← hheap, hnumber]
  simp only [run, hnumber]
  exact ⟨ts, by rw [hheap]; exact .refl ht, .int hret⟩

/-- A builder that is added to is given back. -/
theorem append_ends (ht : P.Typed ts w.heap) (hret : r.ret.any (fun t => t.name = TypeName.stringBuilder) = true)
    {id : Nat} {t : Text}
    (hb : builderOf w.heap (.obj id) = .ok (id, t))
    (hbelongs : w.heap.Belongs (.obj id) TypeName.stringBuilder) (module : Nat)
    (a : Value) :
    P.Ends ts w.heap r [.obj id, a] (Native.builderAppend.run module w [.obj id, a]) := by
  obtain ⟨more, htext⟩ := ht.text false a
  simp only [run, hb, htext]
  have later := ht.modifyBuffer id (g := fun b => b.map (· ++ more)) fun b hb => by simpa using hb
  exact ⟨ts, later, .of_name hret (by decide) (later.keeps.belongs hbelongs)⟩

/-- A member of the catalog that is called as it suits leaves a typed heap, and gives a value of its type. -/
theorem run_typed (ht : P.Typed ts w.heap) {n : Native} (hn : n.suits r = true) (hr : P.Receivers w.heap r recv)
    (ha : w.heap.Takes args r.params) (module : Nat) :
      P.Ends ts w.heap r (recv ++ args) (n.run module w (recv ++ args)) := by
  cases n with
  | constructObject =>
    simp only [suits, Bool.and_eq_true] at hn
    exact .still ht (.of_void hn.2)
  | objectText =>
    simp only [suits, Bool.and_eq_true, Bool.not_eq_true'] at hn
    obtain ⟨v, rfl, -⟩ := hr.instance hn.1.1
    obtain ⟨t, htext⟩ := ht.text false v
    simp only [run, List.singleton_append, htext]
    exact .still ht (.str hn.2)
  | boolText =>
    simp only [suits, Bool.and_eq_true, Bool.not_eq_true'] at hn
    obtain ⟨v, rfl, -⟩ := hr.instance hn.1.1
    obtain ⟨t, htext⟩ := ht.text true (w.heap.unboxed v)
    simp only [run, List.singleton_append, htext]
    exact .still ht (.str hn.2)
  | objectEquals =>
    simp only [suits, Bool.and_eq_true, Bool.not_eq_true', decide_eq_true_eq] at hn
    obtain ⟨v, rfl, -⟩ := hr.instance hn.1.1
    obtain ⟨a, rfl⟩ := ha.one hn.1.2
    exact .still ht (.bool hn.2)
  | objectHash =>
    simp only [suits, Bool.and_eq_true, Bool.not_eq_true'] at hn
    obtain ⟨v, rfl, -⟩ := hr.instance hn.1.1
    exact .still ht (.int hn.2)
  | intCompare =>
    simp only [suits, Bool.and_eq_true, Bool.not_eq_true', decide_eq_true_eq] at hn
    obtain ⟨v, rfl, -⟩ := hr.instance hn.1.1
    obtain ⟨a, rfl⟩ := ha.one hn.1.2
    exact .still ht (.int hn.2)
  | intParse =>
    simp only [suits, Bool.and_eq_true, decide_eq_true_eq] at hn
    obtain rfl := hr.static hn.1.1
    obtain ⟨a, rfl⟩ := ha.one hn.1.2
    exact parse_ends ht hn.2 a
  | pointerNumber =>
    simp only [suits, Bool.and_eq_true, Bool.not_eq_true'] at hn
    obtain ⟨v, rfl, -⟩ := hr.instance hn.1.1
    exact pointerNumber_ends ht hn.2 module v
  | stringLength =>
    simp only [suits, Bool.and_eq_true, Bool.not_eq_true', decide_eq_true_eq] at hn
    obtain ⟨⟨⟨⟨hst, hvalue⟩, hname⟩, -⟩, hret⟩ := hn
    obtain ⟨v, rfl, ⟨s, hs⟩ | ⟨hplain, x, hs⟩⟩ := string_receiver hr hst hvalue hname
    · simp only [run, List.singleton_append, hs]
      exact lengthOf_ends ht hret ⟨rfl, by decide⟩ s _
    · simp only [run, List.singleton_append, hs]
      exact .confused ht hplain x
  | stringPart =>
    simp only [suits, Bool.and_eq_true, Bool.not_eq_true', decide_eq_true_eq] at hn
    obtain ⟨⟨⟨⟨hst, hvalue⟩, hname⟩, hparams⟩, hret⟩ := hn
    obtain ⟨a, b, rfl⟩ := ha.two hparams
    obtain ⟨v, rfl, ⟨s, hs⟩ | ⟨hplain, x, hs⟩⟩ := string_receiver hr hst hvalue hname
    · simp only [run, List.singleton_append, hs]
      exact substring_ends ht hret s _ _ _
    · simp only [run, List.singleton_append, hs]
      exact .confused ht hplain x
  | stringUpper =>
    simp only [suits, Bool.and_eq_true, Bool.not_eq_true', decide_eq_true_eq] at hn
    obtain ⟨⟨⟨⟨hst, hvalue⟩, hname⟩, -⟩, hret⟩ := hn
    obtain ⟨v, rfl, ⟨s, hs⟩ | ⟨hplain, x, hs⟩⟩ := string_receiver hr hst hvalue hname
    · simp only [run, List.singleton_append, hs]
      exact .still ht (.str hret)
    · simp only [run, List.singleton_append, hs]
      exact .confused ht hplain x
  | stringContains =>
    simp only [suits, Bool.and_eq_true, Bool.not_eq_true', decide_eq_true_eq] at hn
    obtain ⟨⟨⟨⟨hst, hvalue⟩, hname⟩, hret⟩, hparams⟩ := hn
    obtain ⟨t, hp, htype⟩ : ∃ t, r.params = [some t] ∧ t.name = TypeName.string := by
      split at hparams
      · exact ⟨_, ‹_›, of_decide_eq_true hparams⟩
      · cases hparams
    rw [hp] at ha
    obtain ⟨b, rfl, hb⟩ := ha.single
    rw [Ty.key_host htype (by decide)] at hb
    obtain ⟨v, rfl, ⟨s, hs⟩ | ⟨hplain, x, hs⟩⟩ := string_receiver hr hst hvalue hname
    · exact contains_ends ht hret hs hb module
    · simp only [run, List.singleton_append, hs]
      exact .confused ht hplain x
  | stringConcat =>
    simp only [suits, Bool.and_eq_true, decide_eq_true_eq] at hn
    obtain rfl := hr.static hn.1.1
    obtain ⟨a, b, rfl⟩ := ha.two hn.1.2
    obtain ⟨s, hs⟩ := ht.text false a
    obtain ⟨t, ht'⟩ := ht.text false b
    simp only [run, List.nil_append, hs, ht']
    exact .still ht (.str hn.2)
  | stringEquals =>
    simp only [suits, Bool.and_eq_true, decide_eq_true_eq] at hn
    obtain rfl := hr.static hn.1.1
    obtain ⟨a, b, rfl⟩ := ha.two hn.1.2
    exact .still ht (.bool hn.2)
  | write hasArgument isBool endsLine =>
    simp only [suits, Bool.and_eq_true, decide_eq_true_eq] at hn
    obtain rfl := hr.static hn.1.1
    cases hasArgument with
    | false => exact ⟨ts, .refl ht, .of_void hn.2⟩
    | true =>
      obtain ⟨a, rfl⟩ := ha.one hn.1.2
      obtain ⟨t, htext⟩ := ht.text isBool a
      simp only [run, List.nil_append, htext]
      exact ⟨ts, .refl ht, .of_void hn.2⟩
  | readLine =>
    simp only [suits, Bool.and_eq_true, decide_eq_true_eq] at hn
    simp only [run]
    split
    · exact ⟨ts, .refl ht, .str hn.2⟩
    · exact .still ht (.of_name hn.2 (by decide) (.null (.inr rfl)))
  | max | min =>
    simp only [suits, Bool.and_eq_true, decide_eq_true_eq] at hn
    obtain rfl := hr.static hn.1.1
    obtain ⟨a, b, rfl⟩ := ha.two hn.1.2
    exact .still ht (.int hn.2)
  | abs =>
    simp only [suits, Bool.and_eq_true, decide_eq_true_eq] at hn
    obtain rfl := hr.static hn.1.1
    obtain ⟨a, rfl⟩ := ha.one hn.1.2
    exact absolute_ends ht hn.2 _ _
  | constructBuilder => cases hn
  | builderAppend =>
    simp only [suits, Bool.and_eq_true, Bool.not_eq_true', decide_eq_true_eq] at hn
    obtain ⟨⟨⟨⟨hst, hvalue⟩, hname⟩, hparams⟩, hret⟩ := hn
    obtain ⟨a, rfl⟩ := ha.one hparams
    obtain ⟨v, rfl, ⟨id, t, rfl, hb, hbelongs⟩ | ⟨hplain, x, hb⟩⟩ := builder_receiver ht hr hst hvalue hname
    · exact append_ends ht hret hb hbelongs module a
    · simp only [run, List.singleton_append, hb]
      exact .confused ht hplain x
  | builderLength =>
    simp only [suits, Bool.and_eq_true, Bool.not_eq_true', decide_eq_true_eq] at hn
    obtain ⟨⟨⟨⟨hst, hvalue⟩, hname⟩, -⟩, hret⟩ := hn
    obtain ⟨v, rfl, ⟨id, t, rfl, hb, -⟩ | ⟨hplain, x, hb⟩⟩ := builder_receiver ht hr hst hvalue hname
    · simp only [run, List.singleton_append, hb]
      exact lengthOf_ends ht hret ⟨rfl, by decide⟩ t _
    · simp only [run, List.singleton_append, hb]
      exact .confused ht hplain x

end Native

/-! ### Calls -/

theorem Symbols.delegate?_of_key {s : Symbols} {t u : Ty} (h : t.key = u.key) :
    s.delegate? (some t) = s.delegate? (some u) :=
  congrArg s.delegates.get? h

theorem Symbols.fieldsOf_of_key {s : Symbols} {t u : Ty} (h : t.key = u.key) : s.fieldsOf t = s.fieldsOf u :=
  congrArg (fun k => (s.fields.get? k).getD []) h

theorem Symbols.allMethods_of_key {s : Symbols} {t u : Ty} (h : t.key = u.key) : s.allMethods t = s.allMethods u :=
  congrArg (fun k => (s.methods.get? k).getD []) h

theorem Symbols.ctorsOf_of_key {s : Symbols} {t u : Ty} (h : t.key = u.key) : s.ctorsOf t = s.ctorsOf u :=
  congrArg (fun k => (s.ctors.get? k).getD []) h

theorem Value.eq_null_of_isNull {v : Value} (h : v.isNull = true) : v = .null := by
  cases v with
  | null => rfl
  | _ => cases h

namespace Machine
variable {m : Machine} {w : World} {r : Method} {args : List Value} {x : Routine}

/-- `Invoke` of a delegate, on an object. -/
theorem opening_invoke (hx : m.routine? r = some x) (hnative : x.native = none) (himpl : x.impl = .runtime)
    (hname : r.name = Method.invokeName) {v : Value} {id : Nat} {o : Obj} (hv : w.heap.deref v = .obj id)
    (ho : w.heap.objects[id]? = some o) :
    m.opening r (v :: args) w = (openDelegate o args, w) := by
  have hctor : ¬Method.invokeName = Method.ctorName := by decide
  simp only [opening, hx, hnative, himpl, if_true, hv, ho, hname, hctor, if_false]

/-- A member that the runtime supplies, called on what is no object. -/
theorem opening_null (hx : m.routine? r = some x) (hnative : x.native = none) (himpl : x.impl = .runtime) {v u : Value}
    (hv : w.heap.deref v = u) (hu : ∀ id, u ≠ .obj id) :
    m.opening r (v :: args) w = (.halt (.fault (.runtime (.nullDelegate r.owner.name r.name))), w) := by
  simp only [opening, hx, hnative, himpl, if_true, hv]

end Machine

namespace Platform
variable {P : Platform} {ts ts' : List Text} {w : World} {r : Method} {recv args : List Value} {use : ResultUse}

/-- A frame runs a typed body, and its arguments and locals are in cells of their types. -/
structure Lives (P : Platform) (ts : List Text) (f : Frame) (Γ : Setting) (d : Draft) : Prop where
  runs : P.Runs f.method f.body Γ d
  arg : ∀ {n : Nat} {t : Ty}, Γ.scope.args[n]? = some t → n < f.argCount ∧ ts[f.args + n]? = some t.key
  «local» : ∀ {n : Nat} {t : Ty}, d.locals[n]? = some t → ts[f.locals + n]? = some t.key

/-- How a call begins whose result has a type: it gives a value of the type, a frame that will, or fails. -/
def Enters (P : Platform) (ts : List Text) (h : Heap) (use : ResultUse) (ret : Option Ty) (args : List Value) :
    Entered × World → Prop
  | (.value v, w) => ∃ ts', P.Later ts h ts' w.heap ∧ w.heap.Returns ret v
  | (.frame f, w) => ∃ ts' Γ d, P.Later ts h ts' w.heap ∧ P.Lives ts' f Γ d ∧ f.pc = 0 ∧ f.stack = [] ∧ f.use = use ∧
      Ty.same (some Γ.scope.ret) ret = true
  | (.halt e, w) => P.Failed ts h args e w

/-- The cells of a new frame are of the types of what they hold. -/
theorem Typed.frameFor (ht : P.Typed ts w.heap) {b : Body} {Γ : Setting} {d : Draft} (hruns : P.Runs r b Γ d)
    (hargs : List.Forall₂ w.heap.Belongs args (Γ.scope.args.map Ty.key)) (levels : Nat) :
    P.Enters ts w.heap use r.ret args (.frame (Machine.frameFor w r b args levels use).1,
      (Machine.frameFor w r b args levels use).2) := by
  have later := ht.allocate hargs
  have hzero : List.Forall₂ (w.heap.allocate args).2.Belongs (d.locals.toList.map fun t => .zero (some t))
      (d.locals.toList.map Ty.key) := by
    rw [List.forall₂_map_left_iff, List.forall₂_map_right_iff, List.forall₂_same]
    exact fun t hmem => hruns.starts t hmem _
  have later' := later.typed.allocate hzero
  rw [← hruns.locals] at later'
  have hcount : args.length = Γ.scope.args.length := by simpa using hargs.length_eq
  have hfirst : (w.heap.allocate args).2.cells.size = ts.length + args.length := by
    rw [Heap.allocate_cells, ht.size]
    simp
  refine ⟨_, Γ, d, later.trans later', ⟨hruns, fun {n t} hn => ?_, fun {n t} hn => ?_⟩, rfl, rfl, rfl, ?_⟩
  · have hlt := (List.getElem?_eq_some_iff.mp hn).1
    refine ⟨by show n < args.length; omega, ?_⟩
    show (_ ++ _)[w.heap.cells.size + n]? = _
    rw [← ht.size, List.getElem?_append_left (by simp; omega), List.getElem?_append_right (Nat.le_add_right _ _),
      Nat.add_sub_cancel_left, List.getElem?_map, hn]
    rfl
  · show (_ ++ _)[(w.heap.allocate args).2.cells.size + n]? = _
    rw [hfirst, List.getElem?_append_right (by simp; omega), hruns.locals]
    simp [hcount, hn]
  · rw [hruns.ret, Ty.same_iff]

theorem Enters.congr {h : Heap} {ret ret' : Option Ty} {args' : List Value} {e : Entered × World}
    (he : P.Enters ts h use ret args e)
    (hr : Ty.same ret ret' = true) (ha : args.getLast? = some .null → args'.getLast? = some .null) :
      P.Enters ts h use ret' args' e := by
  obtain ⟨e, w⟩ := e
  cases e with
  | value v =>
    obtain ⟨ts', hl, hv⟩ := he
    exact ⟨ts', hl, hv.same hr⟩
  | frame f =>
    obtain ⟨ts', Γ, d, hl, hf, hpc, hs, hu, hret⟩ := he
    rw [Ty.same_iff] at hret hr
    exact ⟨ts', Γ, d, hl, hf, hpc, hs, hu, Ty.same_iff.mpr (hret.trans hr)⟩
  | halt e =>
    refine ⟨he.fault, fun hp => ?_, he.typed⟩
    obtain ⟨f, rfl, hf, hnull⟩ := he.expected hp
    exact ⟨f, rfl, hf, fun hc => ha (hnull hc)⟩

/-- The arguments of code, its receiver first. -/
theorem Runs.given {b : Body} {Γ : Setting} {d : Draft} (hruns : P.Runs r b Γ d) {h : Heap}
    (hvalue : r.owner.isValue = false)
    (hobject : r.owner.name ≠ TypeName.object) (hr : P.Receivers h r recv) (ha : h.Takes args r.params) :
    List.Forall₂ h.Belongs (recv ++ args) (Γ.scope.args.map Ty.key) := by
  have receiver : h.Takes recv (if r.isStatic then [] else [some r.owner]) := by
    split
    · rw [hr.static ‹_›]
      exact .nil
    · rename_i hst
      obtain ⟨v, rfl, hv⟩ := hr.instance (by simpa using hst)
      exact .cons ⟨_, rfl, hv.belongs hvalue hobject⟩ .nil
  have given : h.Takes (recv ++ args) (Γ.scope.args.map some) := by
    rw [hruns.args]
    exact List.rel_append receiver ha
  rw [Heap.Takes, List.forall₂_map_right_iff] at given
  rw [List.forall₂_map_right_iff]
  refine given.imp fun v t ⟨u, hu, hv⟩ => ?_
  cases hu
  exact hv

/-- A delegate of a type that is described calls a method of its signature, or has no receiver. -/
theorem Instance.enters {o : Obj} {D : Delegate} {r : Method} {id : Nat} {levels : Nat} (ho : P.Instance ts w.heap o)
    (ht : P.Typed ts w.heap)
    (hD : P.symbols.delegate? (some o.type) = some D) (ha : w.heap.Takes args D.params)
    (calls : ∀ {q : Method} {recv args : List Value}, P.Provides q → P.Receivers w.heap q recv →
      w.heap.Takes args q.params →
      P.Enters ts w.heap use q.ret (recv ++ args) (P.machine.enter use levels q (recv ++ args) w)) :
    P.Enters ts w.heap use D.ret (.obj id :: args)
      (P.machine.entered use levels r (.obj id :: args) (Machine.openDelegate o args, w)) := by
  obtain ⟨q, hq, hprovided, htarget, hsame, hret⟩ := ho.delegate hD
  have hargs : w.heap.Takes args q.params := ha.same (by rw [Ty.sameList_iff, Ty.sameList_iff.mp hsame])
  have last : ∀ {a : Value} {as : List Value}, (a :: as).getLast? = some .null →
      (.obj id :: a :: as).getLast? = some .null :=
    fun hlast => by simpa using hlast
  simp only [Machine.openDelegate, hq]
  cases hst : q.isStatic with
  | true =>
    rw [hst, if_pos rfl] at htarget
    rw [if_pos rfl]
    refine (calls hprovided htarget hargs).congr hret fun hlast => ?_
    cases args with
    | nil => cases hlast
    | cons a args => exact last hlast
  | false =>
    rw [hst, if_neg Bool.false_ne_true] at htarget
    rw [if_neg Bool.false_ne_true]
    obtain ⟨u, hu, hrecv⟩ := htarget.instance hst
    cases hu
    cases hnull : o.target.isNull with
    | true =>
      rw [if_pos rfl]
      exact .confused ht (fun hp => hrecv.notNull hp (Value.eq_null_of_isNull hnull)) _
    | false =>
      rw [if_neg Bool.false_ne_true]
      refine (calls hprovided htarget hargs).congr hret fun hlast => ?_
      cases args with
      | nil =>
        have htarget : o.target = .null := Option.some.inj hlast
        rw [htarget] at hnull
        cases hnull
      | cons a args => exact last (by simpa using hlast)

/-- A call of a method that the machine provides. -/
theorem Provides.enters (hr : P.Provides r) (ht : P.Typed ts w.heap) (hrecv : P.Receivers w.heap r recv)
    (ha : w.heap.Takes args r.params) (use : ResultUse) (levels : Nat) :
    P.Enters ts w.heap use r.ret (recv ++ args) (P.machine.enter use levels r (recv ++ args) w) := by
  induction levels generalizing r recv args with
  | zero => exact .expected_still ht (Native.expected_of rfl rfl _)
  | succ levels ih =>
    rw [Machine.enter_succ]
    cases hr with
    | @native x n hx hn hsuits =>
      have ends := Native.run_typed ht hsuits hrecv ha P.machine.module
      simp only [Machine.opening, hx, hn]
      generalize n.run P.machine.module w (recv ++ args) = result at ends
      obtain ⟨result, w'⟩ := result
      cases result with
      | ok v => exact ends
      | error e => exact ends
    | @code x b Γ d hx hnative himpl hbody hvalue hobject hruns =>
      simp only [Machine.opening, hx, hnative, himpl, if_false, hbody]
      exact ht.frameFor hruns (hruns.given hvalue hobject hrecv ha) levels
    | @invoke x D hx hnative himpl hname hst hvalue hobject href harray hD hparams hret =>
      obtain ⟨v, rfl, hv⟩ := hrecv.instance hst
      have hbelongs := hv.belongs hvalue hobject
      rcases hbelongs.reference? href with rfl | ⟨id, o, rfl, ho, -, hkey⟩ | ⟨id, a, rfl, -, hkey⟩
      · rw [List.singleton_append, Machine.opening_null hx hnative himpl rfl fun _ he => Value.noConfusion he]
        exact .confused ht (fun hp => hv.notNull hp rfl) _
      · rw [List.singleton_append, Machine.opening_invoke hx hnative himpl hname rfl ho, hret]
        have hD' : P.symbols.delegate? (some o.type) = some D := by rw [← hD, Symbols.delegate?_of_key hkey]
        exact (ht.object ho).enters ht hD' (hparams ▸ ha) ih
      · rw [List.singleton_append, Machine.opening_null hx hnative himpl rfl fun _ he => Value.noConfusion he]
        exact .confused ht (fun hp => harray hp a.elem (hkey.symm.trans a.elem.key_array.symm)) _

end Platform
end CilCompiler
