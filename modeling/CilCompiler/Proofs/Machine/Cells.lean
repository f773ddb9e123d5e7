import CilCompiler.Proofs.Machine.Halting
import CilCompiler.Proofs.Machine.Levels
import CilCompiler.Proofs.Machine.VerifiedStack

/-! What frames carry along. Running changes nothing of a frame but its stack and its place, so what is so of frames
    when calls begin is so of all frames of a run (`Machine.run_each`): a frame of a method that needs a receiver has
    one (`Machine.received_carries`).

Who writes to a cell. The fields of objects and the elements of arrays have cells of their own, and so have the
arguments and locals of frames. Code writes to cells of objects and arrays, and to those of its own frame with `stloc`
and `starg`, whatever addresses it holds: nothing stores through an address. All else is added behind the cells that
there are. So a cell of a frame that is no object's and no array's at first never becomes one's, and other frames
leave it alone (`Heap.Spares`). -/

namespace CilCompiler

/-- All frames of a run have a property. -/
def Progress.Each (P : Frame → Prop) : Progress → Prop
  | .running s => ∀ f ∈ s.frames, P f
  | .done .. | .halted .. => True

/-- The frame has its receiver, if the method needs one. -/
def Frame.Received (f : Frame) : Prop := f.method.isStatic = false → 0 < f.argCount

namespace Machine

/-- Frames have a property from when their calls begin, and keep it. -/
structure Carries (m : Machine) (P : Frame → Prop) : Prop where
  moved : ∀ {f : Frame} {stack : List Value} {pc : Nat}, P f → P { f with stack, pc }
  entered : ∀ {use : ResultUse} {levels : Nat} {r : Method} {args : List Value} {w w' : World} {f : Frame}, r.Given args →
    m.enter use levels r args w = (.frame f, w') → P f

variable {m : Machine} {P : Frame → Prop} {frames : List Frame}

theorem deliver_each (h : m.Carries P) (hf : ∀ f ∈ frames, P f) (w : World) (steps : Nat) (use : ResultUse) (v : Value) :
    (deliver frames w steps use v).Each P := by
  cases frames with
  | nil => cases use <;> trivial
  | cons f rest =>
    obtain ⟨hf, hrest⟩ := List.forall_mem_cons.mp hf
    refine List.forall_mem_cons.mpr ⟨?_, hrest⟩
    cases use with
    | drop => exact hf
    | push =>
      have moved : P { f with stack := v :: f.stack, pc := f.pc } := h.moved hf
      exact moved
    | object o =>
      have moved : P { f with stack := o :: f.stack, pc := f.pc } := h.moved hf
      exact moved

theorem proceed_each (h : m.Carries P) (hf : ∀ f ∈ frames, P f) {use : ResultUse} {levels : Nat} {r : Method}
    {args : List Value}
    {w : World} (hnew : ∀ {f : Frame} {w' : World}, m.enter use levels r args w = (.frame f, w') → P f) (steps : Nat) :
    (proceed frames steps use (m.enter use levels r args w)).Each P := by
  cases he : m.enter use levels r args w with
  | mk e w' =>
  cases e with
  | value v => exact deliver_each h hf ..
  | frame f => exact List.forall_mem_cons.mpr ⟨hnew he, hf⟩
  | halt e => trivial

theorem step_each (h : m.Carries P) {s : Running} (hs : (Progress.running s).Each P) : (m.step s).Each P := by
  obtain ⟨frames, w, steps⟩ := s
  cases frames with
  | nil => trivial
  | cons f rest =>
    obtain ⟨hf, hrest⟩ := List.forall_mem_cons.mp hs
    unfold step
    dsimp only
    split
    · trivial
    rename_i i hi
    split
    · trivial
    have stays := Frame.exec_stays (m := m) (f := f) (w := w) i
    have moved : ∀ {g : Frame} {pc : Nat}, g = { f with stack := g.stack } → ∀ e ∈ { g with pc } :: rest, P e := by
      intro g pc hg
      have hmoved : P { f with stack := g.stack, pc } := h.moved hf
      refine List.forall_mem_cons.mpr ⟨?_, hrest⟩
      rw [hg]
      exact hmoved
    cases he : f.exec m w i with
    | mk e w' =>
    rw [he] at stays
    cases e with
    | next g => exact moved stays
    | jump g n => exact moved stays.1
    | call g use r args => exact proceed_each h (moved stays.1) (h.entered stays.2) _
    | ret v => exact deliver_each h hrest ..
    | fail c => trivial
    | missing => trivial

theorem run_each (h : m.Carries P) (fuel : Nat) {p : Progress} (hp : p.Each P) : (m.run fuel p).Each P := by
  induction fuel generalizing p with
  | zero => cases p <;> exact hp
  | succ fuel ih =>
    cases p with
    | running s => exact ih (step_each h hp)
    | done v w => exact hp
    | halted e w => exact hp

/-! ### Beginnings -/

theorem invoke_each (h : m.Carries P) (w : World) (r : Method) (args : List Value) : (m.invoke w r args).Each P := by
  unfold invoke
  split
  · trivial
  split
  · trivial
  · rename_i hlen
    refine proceed_each h (fun f hf => by cases hf) (h.entered fun hst => ?_) _
    rintro rfl
    simp [Method.argCount, hst] at hlen

theorem construct_each (h : m.Carries P) (w : World) (t : Ty) (args : List Value) : (m.construct w t args).Each P := by
  unfold construct
  split
  · trivial
  split
  · trivial
  split
  · trivial
  · exact proceed_each h (fun f hf => by cases hf) (h.entered fun _ => List.cons_ne_nil _ _) _

theorem start_each (h : m.Carries P) (w : World) : (m.start w).Each P := by
  unfold start
  split
  · trivial
  split
  · trivial
  · exact invoke_each h ..

/-! ### Receivers -/

/-- A delegate passes on a receiver to a method that needs one. -/
theorem openDelegate_given {o : Obj} {args args' : List Value} {q : Method} (h : openDelegate o args = .onward q args') :
    q.Given args' := by
  unfold openDelegate at h
  split at h
  · cases h
  · split at h
    · rename_i hst
      cases h
      exact fun hinst => by rw [hst] at hinst; cases hinst
    · split at h
      · cases h
      · cases h
        exact fun _ => List.cons_ne_nil _ _

theorem opening_given {r q : Method} {args args' : List Value} {w w' : World}
    (h : m.opening r args w = (.onward q args', w')) :
    q.Given args' := by
  unfold opening at h
  split at h
  · cases h
  split at h
  · split at h <;> cases h
  split at h
  · split at h
    · cases h
    split at h
    · split at h
      · cases h
      split at h
      · split at h <;> cases h
      split at h
      · exact openDelegate_given (congrArg Prod.fst h)
      · cases h
    · cases h
  · split at h
    · cases h
    · split at h <;> cases h

theorem received_carries (m : Machine) : m.Carries Frame.Received where
  moved h := h
  entered {use levels r args w w' f} hgiven h := by
    induction levels generalizing r args w with
    | zero => cases h
    | succ levels ih =>
      rw [enter_succ] at h
      cases ho : m.opening r args w with
      | mk o w₁ =>
      rw [ho] at h
      cases o with
      | value v => cases h
      | halt e => cases h
      | onward q args' => exact ih (opening_given ho) h
      | code b =>
        cases h
        exact fun hst => List.length_pos_of_ne_nil (hgiven hst)

end Machine

/-! ### Cells of a heap -/

namespace Heap

theorem allocate_cells (h : Heap) (vs : List Value) : (h.allocate vs).2.cells = h.cells ++ vs.toArray := by
  simp [Heap.allocate]

/-- A cell is a field of an object or an element of an array. -/
def Owned (h : Heap) (n : Nat) : Prop :=
  (∃ o ∈ h.objects, o.first ≤ n ∧ n < o.first + o.count) ∨ ∃ a ∈ h.arrays, a.first ≤ n ∧ n < a.first + a.count

/-- The cells of objects and arrays are there. -/
def Inside (h : Heap) : Prop := ∀ n, h.Owned n → n < h.cells.size

theorem empty_inside : Inside {} := by
  rintro n (⟨o, ho, -⟩ | ⟨a, ha, -⟩)
  · exact absurd ho (Array.not_mem_empty o)
  · exact absurd ha (Array.not_mem_empty a)

/-- What is left of a heap by code that writes to the cells of objects and arrays and to the `written` ones: no other
    cell is changed, and objects and arrays that are made have cells that were not there before. -/
structure Spares (h h' : Heap) (written : Nat → Prop) : Prop where
  size : h.cells.size ≤ h'.cells.size
  owned : ∀ {n : Nat}, h'.Owned n → h.Owned n ∨ h.cells.size ≤ n ∧ n < h'.cells.size
  kept : ∀ {n : Nat}, n < h.cells.size → ¬h.Owned n → ¬written n → h'.load (.cell n) = h.load (.cell n)

namespace Spares
variable {h h' h'' : Heap} {W W' : Nat → Prop} {vs : List Value}

theorem refl (h : Heap) (W : Nat → Prop) : h.Spares h W := ⟨Nat.le_refl _, .inl, fun _ _ _ => rfl⟩

/-- A cell that is nobody's does not become somebody's. -/
theorem free (hs : h.Spares h' W) {n : Nat} (hn : n < h.cells.size) (hfree : ¬h.Owned n) : ¬h'.Owned n := by
  intro howned
  rcases hs.owned howned with hold | ⟨hnew, -⟩
  · exact hfree hold
  · omega

theorem inside (hs : h.Spares h' W) (hh : h.Inside) : h'.Inside := by
  intro n howned
  rcases hs.owned howned with hold | ⟨-, hlt⟩
  · exact Nat.lt_of_lt_of_le (hh n hold) hs.size
  · exact hlt

theorem trans (hs : h.Spares h' W) (hs' : h'.Spares h'' W) : h.Spares h'' W where
  size := Nat.le_trans hs.size hs'.size
  owned howned := by
    rcases hs'.owned howned with hmid | ⟨hle, hlt⟩
    · rcases hs.owned hmid with hold | ⟨hle, hlt⟩
      · exact .inl hold
      · exact .inr ⟨hle, Nat.lt_of_lt_of_le hlt hs'.size⟩
    · exact .inr ⟨Nat.le_trans hs.size hle, hlt⟩
  kept hn hfree hw := by
    rw [hs'.kept (Nat.lt_of_lt_of_le hn hs.size) (hs.free hn hfree) hw, hs.kept hn hfree hw]

/-- Only writes to cells that there were count. -/
theorem mono (hs : h.Spares h' W) (hw : ∀ {n : Nat}, n < h.cells.size → W n → W' n) : h.Spares h' W' :=
  ⟨hs.size, hs.owned, fun hn hfree hn' => hs.kept hn hfree fun h => hn' (hw hn h)⟩

/-- Later writes to cells that there were not at first do not count. -/
theorem later (hs : h.Spares h' W) (hs' : h'.Spares h'' W') (hw : ∀ {n : Nat}, n < h.cells.size → W' n → W n) :
    h.Spares h'' W := by
  have hsize := hs.size
  have hmid : h'.Spares h'' fun n => W n ∨ h.cells.size ≤ n := hs'.mono fun {n} _ hn => by
    by_cases hlt : n < h.cells.size
    · exact .inl (hw hlt hn)
    · exact .inr (by omega)
  refine ((hs.mono fun _ hn => .inl hn).trans hmid).mono fun {n} hn hor => ?_
  rcases hor with hn' | hle
  · exact hn'
  · omega

/-! ### What code does to a heap -/

theorem store {n : Nat} (v : Value) (hn : h.Owned n ∨ W n) : h.Spares (h.store (.cell n) v) W where
  size := by simp [Heap.store]
  owned := .inl
  kept {k} hk hfree hw := by
    have hne : n ≠ k := by
      rintro rfl
      exact hn.elim hfree hw
    simp [Heap.store, Heap.load, hne]

theorem storeStatic (f : Field) (v : Value) : h.Spares (h.store (.static f) v) W :=
  ⟨Nat.le_refl _, .inl, fun _ _ _ => rfl⟩

/-- Cells are added behind those there are. -/
theorem append (hc : h'.cells = h.cells ++ vs.toArray)
    (ho : ∀ {n : Nat}, h'.Owned n → h.Owned n ∨ h.cells.size ≤ n ∧ n < h.cells.size + vs.length) : h.Spares h' W where
  size := by simp [hc]
  owned howned := by
    rw [hc, Array.size_append, List.size_toArray]
    exact ho howned
  kept {n} hn _ _ := by simp [Heap.load, hc, Array.getElem?_append_left hn]

theorem allocate (h : Heap) (vs : List Value) : h.Spares (h.allocate vs).2 W := .append (allocate_cells h vs) .inl

/-- An object that is made has its fields in cells that are added. -/
theorem addObject {o : Obj} (hfirst : o.first = h.cells.size) (hcount : o.count ≤ vs.length) :
    h.Spares ((h.allocate vs).2.addObject o).2 W := by
  refine .append (allocate_cells h vs) fun {n} howned => ?_
  rcases howned with ⟨o', ho', hn⟩ | harray
  · rcases Array.mem_push.mp ho' with hold | rfl
    · exact .inl (.inl ⟨o', hold, hn⟩)
    · exact .inr (by omega)
  · exact .inl (.inr harray)

theorem addArray (h : Heap) (elem : Ty) (count : Nat) : h.Spares (h.addArray elem count).2 W := by
  refine .append (allocate_cells h _) fun {n} howned => ?_
  rw [List.length_replicate]
  rcases howned with hobject | ⟨a, ha, hn⟩
  · exact .inl (.inl hobject)
  · rcases Array.mem_push.mp ha with hold | rfl
    · exact .inl (.inr ⟨a, hold, hn⟩)
    · exact .inr hn

/-- A change of an object leaves it its cells. -/
theorem modifyObject (h : Heap) (id : Nat) {f : Obj → Obj} (hf : ∀ o, (f o).first = o.first ∧ (f o).count = o.count) :
    h.Spares (h.modifyObject id f) W := by
  refine ⟨Nat.le_refl _, fun {n} howned => ?_, fun _ _ _ => rfl⟩
  rcases howned with ⟨o, ho, hn⟩ | harray
  · obtain ⟨i, hi⟩ := Array.mem_iff_getElem?.mp ho
    rw [show (h.modifyObject id f).objects = h.objects.modify id f from rfl, Array.getElem?_modify] at hi
    refine .inl (.inl ?_)
    split at hi
    · obtain ⟨o', ho', rfl⟩ := Option.map_eq_some_iff.mp hi
      rw [(hf o').1, (hf o').2] at hn
      exact ⟨o', Array.mem_of_getElem? ho', hn⟩
    · exact ⟨o, Array.mem_of_getElem? hi, hn⟩
  · exact .inl (.inr harray)

end Spares
end Heap

/-- Objects get as many cells as they have slots. -/
def Machine.Fitted (m : Machine) : Prop :=
  ∀ {t : Ty} {d : TypeDef}, m.def? t = some d → d.slots ≤ (d.fields.toList.filter fun f => !f.isStatic).length

namespace World
variable {w : World} {W : Nat → Prop}

theorem makeObject_spares {d : TypeDef} (hd : d.slots ≤ (d.fields.toList.filter fun f => !f.isStatic).length) (module : Nat)
    {change : Obj → Obj} (hc : ∀ o, (change o).first = o.first ∧ (change o).count = o.count) :
    w.heap.Spares (w.makeObject module d change).2.heap W := by
  refine .addObject (hc _).1 ?_
  rw [(hc _).2, List.length_map]
  exact hd

theorem numberOf_heap (w : World) (module : Nat) (r : Option Method) : (w.numberOf module r).2.heap = w.heap := by
  unfold numberOf
  split
  · rfl
  · dsimp only
    split
    · rfl
    · rfl

end World

/-! ### Instructions -/

namespace Frame

theorem local?_ofNat {f : Frame} {k : Nat} (hlt : k < f.body.locals.size) (hle : k ≤ 65534) :
    f.local? (Int32.ofNat k) = some (f.locals + k) := by
  have hk : (Int32.ofNat k).toInt = k := Int32.toInt_ofNat_of_lt (by omega)
  simp only [local?, hk]
  rw [if_pos ⟨by omega, by omega⟩]
  simp

theorem arg?_ofNat {f : Frame} {k : Nat} (hlt : k < f.argCount) (hle : k ≤ 65534) :
    f.arg? (Int32.ofNat k) = some (f.args + k) := by
  have hk : (Int32.ofNat k).toInt = k := Int32.toInt_ofNat_of_lt (by omega)
  simp only [arg?, hk]
  rw [if_pos ⟨by omega, by omega⟩]
  simp

/-- The cell of its own that a frame writes to with an instruction. -/
def written? (f : Frame) (i : Instr) : Option Nat :=
  match i.op with
  | .stloc => f.local? i.operand.number
  | .starg => f.arg? i.operand.number
  | _ => none

variable {m : Machine} {f : Frame} {w : World} {op : Opcode} {W : Nat → Prop}

theorem storeTo_spares {a : Address} (ha : ∀ n, a = .cell n → W n) : w.heap.Spares (f.storeTo w a).2.heap W := by
  unfold storeTo
  split
  · cases a with
    | cell n => exact .store _ (.inr (ha n rfl))
    | static x => exact .storeStatic x _
  · exact .refl _ _

theorem storeCell_spares {c : Option Nat} (hc : ∀ n, c = some n → W n) : w.heap.Spares (f.storeCell w c).2.heap W := by
  cases c with
  | none => exact .refl _ _
  | some n =>
    refine storeTo_spares fun k hk => ?_
    cases hk
    exact hc n rfl

theorem execConvert_spares : w.heap.Spares (f.execConvert m w op).2.heap W := by
  unfold execConvert
  split
  · split
    · exact .refl _ _
    · dsimp only
      rw [World.numberOf_heap]
      exact .refl _ _
    · exact .refl _ _
  · exact .refl _ _

theorem execNew_spares (hm : m.Fitted) (c : Method) : w.heap.Spares (f.execNew m w c).2.heap W := by
  unfold execNew
  split
  · rename_i hd _
    split
    · split
      · dsimp only
        exact World.makeObject_spares (hm hd) _ fun _ => ⟨rfl, rfl⟩
      · exact .refl _ _
    · exact World.makeObject_spares (hm hd) _ fun _ => ⟨rfl, rfl⟩
  · exact .refl _ _

/-- The cell of a field is the object's. -/
theorem fieldCell_owned {h : Heap} {x : Field} {v : Value} {c : Nat} (hc : fieldCell h op x v = .ok c) : h.Owned c := by
  unfold fieldCell at hc
  split at hc
  · split at hc
    · cases hc
    · rename_i o ho
      split at hc
      · split at hc
        · cases hc
          exact .inl ⟨o, Array.mem_of_getElem? ho, by omega, by omega⟩
        · cases hc
      · cases hc
  · cases hc

/-- The cell of an element is the array's. -/
theorem elementCell_owned {h : Heap} {a v : Value} {c : Nat} (hc : elementCell h op a v = .ok c) : h.Owned c := by
  unfold elementCell at hc
  split at hc
  · split at hc
    · split at hc
      · cases hc
      · rename_i x hx
        split at hc
        · cases hc
          exact .inr ⟨x, Array.mem_of_getElem? hx, by omega, by omega⟩
        · cases hc
    · cases hc
  · cases hc

theorem storeFound_spares {found : Except Effect Nat} (hf : ∀ {c : Nat}, found = .ok c → w.heap.Owned c) (rest : List Value)
    (v : Value) : w.heap.Spares (f.storeFound w rest v found).2.heap W := by
  cases found with
  | ok c => exact .store v (.inl (hf rfl))
  | error e => exact .refl _ _

theorem execField_spares (x : Field) : w.heap.Spares (f.execField w op x).2.heap W := by
  unfold execField
  split
  · exact .refl _ _
  · exact .refl _ _
  · exact storeFound_spares fieldCell_owned _ _
  · exact .refl _ _

theorem execElement_spares : w.heap.Spares (f.execElement w op).2.heap W := by
  unfold execElement
  split
  · exact .refl _ _
  · exact .refl _ _
  · exact storeFound_spares elementCell_owned _ _
  · exact .refl _ _

theorem execNewArray_spares (t : Ty) : w.heap.Spares (f.execNewArray w t).2.heap W := by
  unfold execNewArray
  split
  · split
    · split
      · exact .refl _ _
      · exact .addArray _ _ _
    · exact .refl _ _
  · exact .refl _ _

theorem execBox_spares (hm : m.Fitted) (t : Ty) : w.heap.Spares (f.execBox m w t).2.heap W := by
  unfold execBox
  split
  · split
    · split
      · rename_i d hd
        dsimp only
        exact World.makeObject_spares (hm hd) _ fun _ => ⟨rfl, rfl⟩
      · exact .refl _ _
    · exact .refl _ _
  · exact .refl _ _

/-- An instruction in its long form. -/
theorem execLong_spares (hm : m.Fitted) (i : Instr) :
    w.heap.Spares (f.execLong m w i).2.heap fun n => f.written? i = some n := by
  obtain ⟨op, x⟩ := i
  cases op
  case starg | stloc => exact storeCell_spares fun _ hn => hn
  case convI4 => exact execConvert_spares
  case ldelem | ldelema | stelem => exact execElement_spares
  case call =>
    cases x <;> exact .refl _ _
  case newobj =>
    cases x with
    | ctor c => exact execNew_spares hm c
    | _ => exact .refl _ _
  case ldfld | ldflda | stfld =>
    cases x with
    | field y => exact execField_spares y
    | _ => exact .refl _ _
  case stsfld =>
    cases x with
    | field y => exact storeTo_spares fun n hn => by cases hn
    | _ => exact .refl _ _
  case newarr =>
    cases x with
    | type t => exact execNewArray_spares t
    | _ => exact .refl _ _
  case box =>
    cases x with
    | type t => exact execBox_spares hm t
    | _ => exact .refl _ _
  case callvirt | ldvirtftn | ldstr | br | ldftn | ldsfld | ldsflda => cases x <;> exact .refl _ _
  -- What is left looks at the world and leaves it as it is.
  all_goals exact .refl _ _

/-- An instruction writes to objects, to arrays, and to its own frame where it is a store to it. -/
theorem exec_spares (hm : m.Fitted) (i : Instr) :
    w.heap.Spares (f.exec m w i).2.heap fun n => f.written? i.expanded = some n := execLong_spares hm i.expanded

end Frame

/-! ### Calls -/

theorem Native.run_spares (module : Nat) (w : World) (n : Native) (args : List Value) (W : Nat → Prop) :
    w.heap.Spares (n.run module w args).2.heap W := by
  unfold run
  split
  all_goals try exact .refl _ _
  · dsimp only
    rw [World.numberOf_heap]
    exact .refl _ _
  · split
    · exact .refl _ _
    · exact .refl _ _
  · split
    · exact .refl _ _
    · exact .refl _ _
  · split
    · dsimp only
      split
      · exact .modifyObject _ _ fun _ => ⟨rfl, rfl⟩
      · exact .refl _ _
    · exact .refl _ _
  · split
    · split
      · exact .modifyObject _ _ fun _ => ⟨rfl, rfl⟩
      · exact .refl _ _
    · exact .refl _ _

/-- A cell is an argument or a local of a frame. -/
def Frame.HasCell (f : Frame) (n : Nat) : Prop :=
  f.args ≤ n ∧ n < f.args + f.argCount ∨ f.locals ≤ n ∧ n < f.locals + f.body.locals.size

/-- The cells of a frame are there, first those of the arguments and then those of the locals, and are no object's and no
    array's. -/
structure Frame.Stored (f : Frame) (h : Heap) : Prop where
  apart : f.args + f.argCount ≤ f.locals
  there : f.locals + f.body.locals.size ≤ h.cells.size
  free : ∀ {n : Nat}, f.HasCell n → ¬h.Owned n

namespace Frame.Stored
variable {f : Frame} {h h' : Heap} {W : Nat → Prop}

theorem lt (hf : f.Stored h) {n : Nat} (hn : f.HasCell n) : n < h.cells.size := by
  have := hf.apart
  have := hf.there
  rcases hn with hn | hn
  · omega
  · omega

theorem later (hf : f.Stored h) (hs : h.Spares h' W) : f.Stored h' :=
  ⟨hf.apart, Nat.le_trans hf.there hs.size, fun hn => hs.free (hf.lt hn) (hf.free hn)⟩

theorem congr {g : Frame} (hf : f.Stored h) (ha : g.args = f.args) (hc : g.argCount = f.argCount) (hl : g.locals = f.locals)
    (hb : g.body = f.body) : g.Stored h := by
  refine ⟨by rw [ha, hc, hl]; exact hf.apart, by rw [hl, hb]; exact hf.there, fun hn => hf.free ?_⟩
  rwa [HasCell, ha, hc, hl, hb] at hn

end Frame.Stored

namespace Machine
variable {m : Machine} {w w' : World} {use : ResultUse} {r : Method} {args : List Value} {W : Nat → Prop}

/-- Where the cells of a frame are, and what they hold at first. -/
theorem frameFor_cells {b : Body} {levels : Nat} {f : Frame} (hf : frameFor w r b args levels use = (f, w')) :
    f.args = w.heap.cells.size ∧ f.locals = w.heap.cells.size + args.length ∧ w'.heap.cells =
      w.heap.cells ++ args.toArray ++ (b.locals.toList.map fun t => Value.zero (some t)).toArray := by
  have hsize : (w.heap.allocate args).2.cells.size = w.heap.cells.size + args.length := by
    rw [Heap.allocate_cells]
    simp
  have hcells : ((w.heap.allocate args).2.allocate (b.locals.toList.map fun t => .zero (some t))).2.cells =
      w.heap.cells ++ args.toArray ++ (b.locals.toList.map fun t => Value.zero (some t)).toArray := by
    rw [Heap.allocate_cells, Heap.allocate_cells]
  cases hf
  exact ⟨rfl, hsize, hcells⟩

theorem bindDelegate_spares (w : World) (id : Nat) (args : List Value) (W : Nat → Prop) :
    w.heap.Spares (bindDelegate w id args).2.heap W := by
  unfold bindDelegate
  split
  · exact .modifyObject _ _ fun _ => ⟨rfl, rfl⟩
  · exact .refl _ _

theorem opening_spares (m : Machine) (r : Method) (args : List Value) (w : World) (W : Nat → Prop) :
    w.heap.Spares (m.opening r args w).2.heap W := by
  unfold opening
  split
  · exact .refl _ _
  · rename_i x hx
    split
    · rename_i n hn
      have spares := n.run_spares m.module w args W
      split
      · rename_i he
        rwa [he] at spares
      · rename_i he
        rwa [he] at spares
    · split
      · split
        · exact .refl _ _
        · split
          · split
            · exact .refl _ _
            · split
              · have spares := bindDelegate_spares w ‹Nat› ‹List Value› W
                split
                · rename_i he
                  rwa [he] at spares
                · rename_i he
                  rwa [he] at spares
              · split
                · exact .refl _ _
                · exact .refl _ _
          · exact .refl _ _
      · split
        · exact .refl _ _
        · split
          · exact .refl _ _
          · exact .refl _ _

theorem frameFor_spares (w : World) (r : Method) (b : Body) (args : List Value) (levels : Nat) (use : ResultUse)
    (W : Nat → Prop) :
    w.heap.Spares (frameFor w r b args levels use).2.heap W :=
  (Heap.Spares.allocate w.heap args).trans (.allocate _ _)

/-- A frame for a body has cells that are added. -/
theorem frameFor_stored {b : Body} {levels : Nat} {f : Frame} (hf : frameFor w r b args levels use = (f, w')) :
    (∀ {n : Nat}, f.HasCell n → w.heap.cells.size ≤ n) ∧ (w.heap.Inside → f.Stored w'.heap) := by
  obtain ⟨hargs, hlocals, hcells⟩ := frameFor_cells hf
  have hcount : f.argCount = args.length ∧ f.body = b ∧ w'.heap.objects = w.heap.objects ∧
      w'.heap.arrays = w.heap.arrays := by
    cases hf
    exact ⟨rfl, rfl, rfl, rfl⟩
  obtain ⟨hcount, hbody, hobjects, harrays⟩ := hcount
  have new : ∀ {n : Nat}, f.HasCell n → w.heap.cells.size ≤ n := by
    rintro n (hn | hn)
    · omega
    · omega
  refine ⟨new, fun hw => ⟨by omega, ?_, fun {n} hn howned => ?_⟩⟩
  · rw [hcells, hbody]
    simp
    omega
  · have hlt : n < w.heap.cells.size := hw n (by rwa [Heap.Owned, hobjects, harrays] at howned)
    have := new hn
    omega

/-- A call leaves the cells of frames alone, and a frame that it begins with has cells that are added. -/
theorem enter_spares {levels : Nat} {e : Entered} (h : m.enter use levels r args w = (e, w')) (W : Nat → Prop) :
    w.heap.Spares w'.heap W ∧
      ∀ f, e = .frame f → (∀ {n : Nat}, f.HasCell n → w.heap.cells.size ≤ n) ∧ (w.heap.Inside → f.Stored w'.heap) := by
  induction levels generalizing r args w with
  | zero =>
    cases h
    exact ⟨.refl _ _, fun f hf => by cases hf⟩
  | succ levels ih =>
    rw [enter_succ] at h
    have spares := opening_spares m r args w W
    generalize m.opening r args w = o at h spares
    obtain ⟨o, w₁⟩ := o
    cases o with
    | value v =>
      cases h
      exact ⟨spares, fun f hf => by cases hf⟩
    | halt e =>
      cases h
      exact ⟨spares, fun f hf => by cases hf⟩
    | onward q args' =>
      obtain ⟨later, stored⟩ := ih h
      refine ⟨spares.trans later, fun f hf => ?_⟩
      obtain ⟨new, hf⟩ := stored f hf
      exact ⟨fun hn => Nat.le_trans spares.size (new hn), fun hw => hf (spares.inside hw)⟩
    | code b =>
      have later := frameFor_spares w₁ r b args levels use W
      cases hf : frameFor w₁ r b args levels use with
      | mk g w₂ =>
      rw [hf] at later
      simp only [entered, hf] at h
      cases h
      refine ⟨spares.trans later, fun f he => ?_⟩
      cases he
      obtain ⟨new, stored⟩ := frameFor_stored hf
      exact ⟨fun hn => Nat.le_trans spares.size (new hn), fun hw => stored (spares.inside hw)⟩

/-! ### Steps -/

/-- How a run goes on after an instruction of the innermost call. -/
def goOn (m : Machine) (f : Frame) (rest : List Frame) (steps : Nat) : Effect × World → Progress
  | (.next g, w) => .running { frames := { g with pc := g.pc + 1 } :: rest, world := w, steps }
  | (.jump g n, w) => .running { frames := { g with pc := n } :: rest, world := w, steps }
  | (.call g use r args, w) => proceed ({ g with pc := g.pc + 1 } :: rest) steps use (m.enter use g.levels r args w)
  | (.ret v, w) => deliver rest w steps f.use v
  | (.fail c, w) => .halted (faultAt f.method f.pc c) w
  | (.missing, w) => .halted .missing w

/-- A step halts where it stands, or goes on as the instruction says. -/
theorem step_cases (m : Machine) (f : Frame) (rest : List Frame) (w : World) (steps : Nat) :
    (∃ h, m.step { frames := f :: rest, world := w, steps } = .halted h w) ∨
      ∃ i, f.body.code[f.pc]? = some i ∧
        m.step { frames := f :: rest, world := w, steps } = m.goOn f rest (steps + 1) (f.exec m w i) := by
  unfold step
  dsimp only
  split
  · exact .inl ⟨_, rfl⟩
  · rename_i i hi
    split
    · exact .inl ⟨_, rfl⟩
    · refine .inr ⟨i, hi, ?_⟩
      generalize f.exec m w i = out
      obtain ⟨e, w'⟩ := out
      cases e <;> rfl

end Machine

/-! ### Runs -/

/-- The cells of objects, arrays and frames are there, and no cell of a frame is an object's or an array's. -/
def Progress.Stored : Progress → Prop
  | .running s => s.world.heap.Inside ∧ ∀ f ∈ s.frames, f.Stored s.world.heap
  | .done _ w | .halted _ w => w.heap.Inside

namespace Machine
variable {m : Machine} {w w' : World} {use : ResultUse} {r : Method} {args : List Value} {frames : List Frame} {steps : Nat}
  {W : Nat → Prop}

theorem deliver_stored (hw : w.heap.Inside) (hf : ∀ f ∈ frames, f.Stored w.heap) (v : Value) :
    (deliver frames w steps use v).Stored := by
  cases frames with
  | nil => cases use <;> exact hw
  | cons f rest =>
    obtain ⟨hf, hrest⟩ := List.forall_mem_cons.mp hf
    refine ⟨hw, List.forall_mem_cons.mpr ⟨?_, hrest⟩⟩
    cases use <;> exact hf.congr rfl rfl rfl rfl

theorem proceed_stored (hw : w.heap.Inside) (hf : ∀ f ∈ frames, f.Stored w.heap) (levels : Nat) :
    (proceed frames steps use (m.enter use levels r args w)).Stored := by
  cases he : m.enter use levels r args w with
  | mk e w' =>
  obtain ⟨spares, new⟩ := enter_spares he fun _ => False
  have hf' : ∀ f ∈ frames, f.Stored w'.heap := fun f hmem => (hf f hmem).later spares
  cases e with
  | value v => exact deliver_stored (spares.inside hw) hf' v
  | frame g => exact ⟨spares.inside hw, List.forall_mem_cons.mpr ⟨(new g rfl).2 hw, hf'⟩⟩
  | halt h => exact spares.inside hw

theorem step_stored (hm : m.Fitted) {s : Running} (h : (Progress.running s).Stored) : (m.step s).Stored := by
  obtain ⟨frames, w, steps⟩ := s
  obtain ⟨hw, hf⟩ := h
  cases frames with
  | nil => exact hw
  | cons f rest =>
    rcases step_cases m f rest w steps with ⟨h, hs⟩ | ⟨i, -, hs⟩
    · rw [hs]
      exact hw
    · rw [hs]
      have spares := f.exec_spares (w := w) hm i
      have stays := f.exec_stays (m := m) (w := w) i
      generalize f.exec m w i = out at spares stays
      obtain ⟨e, w'⟩ := out
      have hw' : w'.heap.Inside := spares.inside hw
      have hf' : ∀ g ∈ f :: rest, g.Stored w'.heap := fun g hg => (hf g hg).later spares
      obtain ⟨hhead, hrest⟩ := List.forall_mem_cons.mp hf'
      have moved : ∀ {g : Frame} {pc : Nat}, g = { f with stack := g.stack } →
          ∀ k ∈ { g with pc } :: rest, k.Stored w'.heap := by
        intro g pc hg
        refine List.forall_mem_cons.mpr ⟨?_, hrest⟩
        rw [hg]
        exact hhead.congr rfl rfl rfl rfl
      cases e with
      | next g => exact ⟨hw', moved stays⟩
      | jump g n => exact ⟨hw', moved stays.1⟩
      | call g use r args => exact proceed_stored hw' (moved stays.1) _
      | ret v => exact deliver_stored hw' hrest v
      | fail c => exact hw'
      | missing => exact hw'

theorem run_stored (hm : m.Fitted) (fuel : Nat) {p : Progress} (h : p.Stored) : (m.run fuel p).Stored := by
  induction fuel generalizing p with
  | zero => cases p <;> exact h
  | succ fuel ih =>
    cases p with
    | running s => exact ih (step_stored hm h)
    | done v w => exact h
    | halted e w => exact h

/-- The beginnings of runs in a world. A method that needs a receiver gets one. -/
inductive BeginsIn (m : Machine) (w : World) : Progress → Prop
  | call (use : ResultUse) (levels : Nat) {r : Method} {args : List Value} : r.Given args →
      BeginsIn m w (proceed [] 0 use (m.enter use levels r args w))
  | invoke (r : Method) (args : List Value) : BeginsIn m w (m.invoke w r args)
  | construct (t : Ty) (args : List Value) : BeginsIn m w (m.construct w t args)
  | start : BeginsIn m w (m.start w)

theorem BeginsIn.each {P : Frame → Prop} (hP : m.Carries P) {p : Progress} (h : m.BeginsIn w p) : p.Each P := by
  cases h with
  | call use levels hgiven => exact proceed_each hP (fun f hf => by cases hf) (hP.entered hgiven) _
  | invoke r args => exact invoke_each hP ..
  | construct t args => exact construct_each hP ..
  | start => exact start_each hP _

theorem BeginsIn.stored (hm : m.Fitted) (hw : w.heap.Inside) {p : Progress} (h : m.BeginsIn w p) : p.Stored := by
  have none : ∀ {w' : World}, ∀ f ∈ ([] : List Frame), f.Stored w'.heap := fun f hf => by cases hf
  have invoked : ∀ r args, (m.invoke w r args).Stored := by
    intro r args
    unfold Machine.invoke
    split
    · exact hw
    · split
      · exact hw
      · exact proceed_stored hw none _
  cases h with
  | call use levels _ => exact proceed_stored hw none _
  | invoke r args => exact invoked r args
  | construct t args =>
    unfold Machine.construct
    split
    · exact hw
    · rename_i d hd
      split
      · exact hw
      · split
        · exact hw
        · have spares := World.makeObject_spares (w := w) (W := fun _ => False) (hm hd) m.module fun o =>
            (⟨rfl, rfl⟩ : o.first = o.first ∧ o.count = o.count)
          exact proceed_stored (spares.inside hw) none _
  | start =>
    unfold Machine.start
    split
    · exact hw
    · split
      · exact hw
      · exact invoked _ _

end Machine
end CilCompiler
