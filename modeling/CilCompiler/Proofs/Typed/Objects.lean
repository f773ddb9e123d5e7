import CilCompiler.Proofs.Typed.Instructions

/-! Instructions of typed code that make or open objects: instances and delegates, fields, arrays and boxes; and the
    instruction of any kind (`Platform.types_acts`). -/

namespace CilCompiler

/-- A builder gets its text as if it was made with it. -/
theorem World.makeObject_buffer (w : World) (module : Nat) (d : TypeDef) (buffer : Option Text) :
    ((w.makeObject module d fun o => o).2.heap.modifyObject (w.makeObject module d fun o => o).1 fun o =>
      { o with buffer }) =
      (w.makeObject module d fun o => { o with buffer }).2.heap := by
  simp only [makeObject, Heap.modifyObject, Heap.addObject, modifyState, Heap.mk.injEq, true_and, and_true]
  refine Array.ext_getElem? fun i => ?_
  simp only [Array.getElem?_modify, Array.getElem?_push]
  grind

namespace Platform
variable {P : Platform} {ts ts' : List Text} {h h' : Heap} {Γ : Setting} {d : Draft} {use : ResultUse} {ret : Option Ty}
  {args : List Value} {e : Entered × World}

/-! ### Instances -/

/-- What a call comes to in a heap that has become another before. -/
theorem Enters.before (he : P.Enters ts' h' use ret args e) (hl : P.Later ts h ts' h') : P.Enters ts h use ret args e := by
  obtain ⟨e, w⟩ := e
  cases e with
  | value v =>
    obtain ⟨ts'', hl', hv⟩ := he
    exact ⟨ts'', hl.trans hl', hv⟩
  | frame f =>
    obtain ⟨ts'', Γ, d, hl', hf⟩ := he
    exact ⟨ts'', Γ, d, hl.trans hl', hf⟩
  | halt e =>
    refine ⟨he.fault, he.expected, fun hp => ?_⟩
    obtain ⟨ts'', hl'⟩ := he.typed hp
    exact ⟨ts'', hl.trans hl'⟩

/-- A call that goes on keeps the heap. -/
theorem Enters.keeps (he : P.Enters ts h use ret args e) : (∃ x, e.1 = .halt x) ∨ h.Keeps e.2.heap := by
  obtain ⟨e, w⟩ := e
  cases e with
  | value v =>
    obtain ⟨ts', hl, -⟩ := he
    exact .inr hl.keeps
  | frame f =>
    obtain ⟨ts', Γ, d, hl, -⟩ := he
    exact .inr hl.keeps
  | halt e => exact .inl ⟨e, rfl⟩

section Instances
variable {w w' : World} {f : Frame} {i : Instr} {S S' : List Slot} {t : Ty} {c : Method} {x : Routine}
    {y : TypeDef} {id module : Nat}

/-- A new object of a type that is no delegate's. -/
theorem Instance.fresh {u : Ty} (ho : P.Owns u t) (hdelegate : P.symbols.delegate? (some t) = none) {first count tag : Nat}
    (hfields : P.Fields ts u first count) {buffer : Option Text}
    (hb : P.plain → u.key = TypeName.stringBuilder → buffer ≠ none) :
    P.Instance ts h { type := u, first, count, tag, buffer } where
  admits := ho.admits
  notArray := ho.notArray
  fields := hfields
  box hv := by cases hv
  object _ := ho.reference
  delegate hD := by
    rw [Symbols.delegate?_of_key ho.key, hdelegate] at hD
    cases hD
  builder := hb

/-- An object is made, and a constructor is called on it. -/
theorem object_leads (ht : P.Typed ts w.heap) (hvoid : t.isVoid = false) (howner : P.Owns c.owner t)
    (hdelegate : P.symbols.delegate? (some t) = none) (hbuilder : c.owner.key ≠ TypeName.stringBuilder)
    (hy : y.type = c.owner)
    (hlays : P.Lays y) (hc : P.Provides c) (hst : c.isStatic = false) (ha : w.heap.Takes args c.params)
    (hnew : w.makeObject module y (fun o => o) = (id, w')) (levels : Nat) :
    P.Leads ts w.heap (.object (.obj id)) (.obj id :: args) [.value (some t)]
      (P.machine.enter (.object (.obj id)) levels c (.obj id :: args) w') := by
  obtain ⟨first, tag, hget⟩ := w.makeObject_get module y fun o => o
  rw [← hy] at howner hbuilder
  obtain ⟨ts', later⟩ := ht.makeObject module hlays (fun o => o) fun _ hfields =>
    .fresh howner hdelegate hfields fun _ hn => absurd hn hbuilder
  rw [hnew] at hget later
  have hself : w'.heap.Belongs (.obj id) t.key := howner.key ▸ .object hget rfl howner.reference
  have hrecv : P.Receivers w'.heap c [.obj id] := by
    unfold Receivers
    rw [if_neg (by rw [hst]; exact Bool.false_ne_true)]
    refine ⟨_, rfl, fun _ he => Value.noConfusion he, .inr (.inr ?_)⟩
    rwa [← hy, howner.key]
  have enters := hc.enters later.typed hrecv (ha.later later.keeps) (.object (.obj id)) levels
  exact ⟨c.ret, enters.before later, enters.keeps.imp_right fun hk => .object hvoid (hk.belongs hself)⟩

/-- A builder is made, with the text of an argument. -/
theorem builder_leads (ht : P.Typed ts w.heap) (hvoid : t.isVoid = false) (howner : P.Owns c.owner t)
    (hdelegate : P.symbols.delegate? (some t) = none) (hy : y.type = c.owner) (hlays : P.Lays y)
    (hx : P.machine.routine? c = some x)
    (hnative : x.native = some .constructBuilder) (hnew : w.makeObject module y (fun o => o) = (id, w')) (levels : Nat) :
    P.Leads ts w.heap (.object (.obj id)) (.obj id :: args) [.value (some t)]
      (P.machine.enter (.object (.obj id)) levels c (.obj id :: args) w') := by
  rw [← hy] at howner
  cases levels with
  | zero =>
    have expected : Halt.Expected _ (.obj id :: args) :=
      Native.expected_of (c := .depthExceeded P.machine.maxDepth c.owner.name c.name) rfl rfl _
    refine ⟨none, ⟨⟨_, rfl⟩, fun _ => expected, fun hp => ?_⟩, .inl ⟨_, rfl⟩⟩
    -- The object has been made, and is no builder yet.
    obtain ⟨ts', later⟩ := ht.makeObject module hlays (fun o => o) fun _ hfields =>
      .fresh howner hdelegate hfields fun hplain => absurd hplain hp
    rw [hnew] at later
    exact ⟨ts', later⟩
  | succ levels =>
    -- The new object is no box, so every argument has a text.
    have plain : ∀ {i : Nat} {o : Obj} {v : Value}, w'.heap.objects[i]? = some o → o.boxed = some v →
        (∃ n, v = .int n) ∨ ∃ q, v = .func q := by
      intro i o v ho hv
      have hw : (w.makeObject module y fun o => o).2 = w' := by rw [hnew]
      rw [← hw] at ho
      replace ho : (w.heap.objects.push _)[i]? = some o := ho
      rw [Array.getElem?_push] at ho
      split at ho
      · cases ho
        cases hv
      · exact ((ht.object ho).box hv).2
    have built : ∀ text, P.Leads ts w.heap (.object (.obj id)) (.obj id :: args) [.value (some t)]
        (.value .null, { w' with heap := w'.heap.modifyObject id fun o => { o with buffer := some text } }) := by
      intro text
      obtain ⟨first, tag, hget⟩ := w.makeObject_get module y fun o => { o with buffer := some text }
      obtain ⟨ts', later⟩ := ht.makeObject module hlays (fun o => { o with buffer := some text }) fun _ hfields =>
        .fresh howner hdelegate hfields fun _ _ => Option.some_ne_none _
      rw [← World.makeObject_buffer, hnew] at later hget
      have hid : (w.makeObject module y fun o => { o with buffer := some text }).1 = id := congrArg Prod.fst hnew
      rw [hid] at hget
      exact ⟨none, ⟨ts', later, fun t ht _ => by cases ht⟩,
          .inr (.object hvoid (howner.key ▸ .object hget rfl howner.reference))⟩
    rw [Machine.enter_succ]
    cases args with
    | nil =>
      simp only [Machine.opening, hx, hnative, Native.run, Heap.deref]
      exact built _
    | cons b args =>
      obtain ⟨text, htext⟩ := shown_of_plain plain false b
      simp only [Machine.opening, hx, hnative, Native.run, Heap.deref, htext]
      exact built text

theorem construct_acts (hP : P.Sound) (ht : P.Typed ts w.heap) {types : List (Option Ty)} (hT : P.Admits t)
    (hvalue : t.isValue = false)
    (hvoid : t.isVoid = false) (hdelegate : P.symbols.delegate? (some t) = none) (hc : c ∈ P.symbols.ctorsOf t)
    (hfits : Ty.fits c.params types = true) (hparams : ∀ p ∈ c.params, ∃ t, p = some t ∧ P.Admits t)
    (hS : P.Stacked ts w.heap (Slot.arguments types ++ S) f.stack) :
    P.Acts ts w.heap Γ (.value (some t) :: S) f i (f.execNew P.machine w c) := by
  obtain ⟨args, rest, hstack, hargs, hrest⟩ := hS.arguments
  have htakes := takes_of_fits hP hargs hfits hparams
  obtain ⟨howner, hst, hbuilds⟩ := hP.ctor hT hvalue hdelegate hc
  obtain ⟨y, hy, hytype, hlays⟩ := hP.definition howner.admits howner.notArray
  have hpop : f.popN? c.params.length = some (args, { f with stack := rest }) := by
    rw [← htakes.length_eq]
    exact popN?_of_stack hstack
  obtain ⟨x, hx, himpl⟩ : ∃ x, P.machine.routine? c = some x ∧ x.impl ≠ .runtime := by
    cases hbuilds with
    | builder _ hx _ himpl => exact ⟨_, hx, himpl⟩
    | object _ hx himpl _ => exact ⟨_, hx, himpl⟩
  cases hnew : w.makeObject P.machine.module y (fun o => o) with
  | mk id w' =>
  simp only [Frame.execNew, hpop, hy, hx, himpl, decide_false, Bool.and_false, Bool.false_eq_true, if_false, hnew]
  refine ⟨[.value (some t)], S, rfl, hrest, fun hlast => ?_, fun levels => ?_⟩
  · cases args with
    | nil => cases hlast
    | cons a args =>
      rw [hstack]
      exact head_of_last (by simpa using hlast)
  · cases hbuilds with
    | builder _ hx hnative _ => exact builder_leads ht hvoid howner hdelegate hytype hlays hx hnative hnew levels
    | object hbuilder _ _ hc => exact object_leads ht hvoid howner hdelegate hbuilder hytype hlays hc hst htakes hnew levels

/-! ### Delegates -/

variable {m : Method} {s p : Slot} {D : Delegate}

theorem target_ne_bound (hs : Setting.Target t s) (r : Method) : s ≠ .bound r := by
  cases hs <;> exact fun he => Slot.noConfusion he

theorem dup_acts (ht : P.Typed ts w.heap) (hs : Setting.Target t s) (hS : P.Stacked ts w.heap (s :: S) f.stack) :
    P.Acts ts w.heap Γ (s :: s :: S) f i (f.execDup, w) := by
  obtain ⟨v, rest, hstack, hv, hrest⟩ := hS.top (target_ne_bound hs)
  simp only [Frame.execDup, hstack]
  exact .next ht (.cons hv (.cons hv hrest))

/-- A method is taken from an object that is there twice. -/
theorem boundPointer_acts (hP : P.Sound) (ht : P.Typed ts w.heap) (hf : P.Lives ts f Γ d) (hst : m.isStatic = false)
    (hm : Γ.MethodOn t m) (hs : Setting.Target t s) (hS : P.Stacked ts w.heap (s :: s :: S) f.stack)
    (htwice : ∃ v rest, f.stack = v :: v :: rest) :
    P.Acts ts w.heap Γ (.bound m :: s :: S) f { op := .ldvirtftn, operand := .method m }
      (f.execVirtualPointer P.machine w.heap m, w) := by
  obtain ⟨v, _, hstack, -, hS⟩ := hS.top (target_ne_bound hs)
  obtain ⟨v', rest, rfl, hv, hrest⟩ := hS.top (target_ne_bound hs)
  obtain ⟨u, more, htwice⟩ := htwice
  rw [hstack] at htwice
  cases htwice
  obtain ⟨hT, c, hc, hmem⟩ := methodOn hf hm
  have taken : v ≠ .null → w.heap.deref v = v → P.Admits (P.machine.typeOf w.heap v) →
      (P.machine.typeOf w.heap v).key = t.key →
      t.isValue = true ∧ (P.machine.typeOf w.heap v).isValue = true ∨ w.heap.Belongs v t.key →
      P.Acts ts w.heap Γ (.bound m :: s :: S) f { op := .ldvirtftn, operand := .method m }
        (f.execVirtualPointer P.machine w.heap m, w) := by
    intro hnull hderef hU hkey hbelongs
    have hnull' : (w.heap.deref v).isNull = false := by
      rw [hderef]
      cases v with
      | null => exact absurd rfl hnull
      | _ => rfl
    simp only [Frame.execVirtualPointer, hstack, hnull', Bool.false_eq_true, if_false]
    exact .next ht (.bound (dispatch hP hT hc hmem hst hU hkey hnull hbelongs) hv hrest)
  cases hs with
  | object hvalue =>
    cases hv with
    | value _ hbelongs =>
    by_cases hnull : v = .null
    · subst hnull
      simp only [Frame.execVirtualPointer, hstack, Heap.deref, Value.isNull, if_true]
      exact .fail (.of_null rfl (by rw [hstack]; rfl))
    · obtain ⟨hU, hkey⟩ := ht.typeOf hP hT hvalue hbelongs hnull
      exact taken hnull (hbelongs.knows.deref _) hU hkey (.inr hbelongs)
  | boxed hvalue =>
    cases hv with
    | @boxed _ id u hb =>
    obtain ⟨o, ho, rfl, -⟩ := hb.box
    have htype : P.machine.typeOf w.heap (.obj id) = o.type := by simp [Machine.typeOf, Heap.deref, ho]
    exact taken (fun he => Value.noConfusion he) rfl (by rwa [htype]) (by rw [htype]) (.inl ⟨hvalue, by rwa [htype]⟩)

/-- A method and its receiver on the stack, as a delegate wants them. -/
theorem Stacked.pair (hS : P.Stacked ts h (p :: s :: S) f.stack) (hp : Ty.sameList m.params D.params = true)
    (hr : Ty.same m.ret D.ret = true) (hps : p = .static m ∧ s = .value none ∨ p = .bound m) :
    ∃ q v rest, f.stack = .func (some q) :: v :: rest ∧ P.Stacked ts h S rest ∧ P.Provides q ∧
      P.Receivers h q (if q.isStatic then [] else [v]) ∧ Ty.sameList q.params D.params = true ∧
        Ty.same q.ret D.ret = true := by
  rcases hps with ⟨rfl, rfl⟩ | rfl
  · obtain ⟨_, _, hstack, hv, hS⟩ := hS.top fun _ he => Slot.noConfusion he
    obtain ⟨v, rest, rfl, -, hrest⟩ := hS.value
    cases hv with
    | static hm hst =>
    refine ⟨m, v, rest, hstack, hrest, hm, ?_, hp, hr⟩
    rw [if_pos hst]
    unfold Receivers
    rw [if_pos hst]
  · generalize hstack : f.stack = vs at hS
    cases hS with
    | cons hv _ => cases hv
    | @bound _ q _ _ v rest hq hv hrest =>
    refine ⟨q, v, rest, rfl, hrest, hq.provided, ?_, ?_, ?_⟩
    · have hst : ¬q.isStatic = true := by rw [hq.isStatic]; exact Bool.false_ne_true
      rw [if_neg hst]
      unfold Receivers
      rw [if_neg hst]
      exact ⟨v, rfl, hq.receives⟩
    · rw [Ty.sameList_iff, Ty.sameList_iff.mp hq.params, Ty.sameList_iff.mp hp]
    · rw [Ty.same_iff, Ty.same_iff.mp hq.ret, Ty.same_iff.mp hr]

theorem delegate_acts (hP : P.Sound) (ht : P.Typed ts w.heap) (hT : P.Admits t) (hvoid : t.isVoid = false)
    (hD : P.symbols.delegate? (some t) = some D) (htwo : D.ctor.params.length = 2)
    (hp : Ty.sameList m.params D.params = true)
    (hr : Ty.same m.ret D.ret = true) (hps : p = .static m ∧ s = .value none ∨ p = .bound m)
    (hS : P.Stacked ts w.heap (p :: s :: S) f.stack) :
    P.Acts ts w.heap Γ (.value (some t) :: S) f i (f.execNew P.machine w D.ctor) := by
  obtain ⟨q, v, rest, hstack, hrest, hq, hrecv, hp, hr⟩ := hS.pair hp hr hps
  obtain ⟨howner, hbuilder, hdelegate, x, hx, himpl⟩ := hP.delegate hT hD
  obtain ⟨y, hy, hytype, hlays⟩ := hP.definition howner.admits howner.notArray
  have hpop : f.popN? D.ctor.params.length = some ([v, .func (some q)], { f with stack := rest }) := by
    rw [htwo]
    have pair : f.stack = [v, .func (some q)].reverse ++ rest := by rw [hstack]; rfl
    exact popN?_of_stack pair
  simp only [Frame.execNew, hpop, hy, hx, hdelegate, himpl, decide_true, Bool.and_self, if_true]
  rw [← hytype] at howner
  obtain ⟨first, tag, hget⟩ := w.makeObject_get P.machine.module y fun o => { o with target := v, method := some q }
  obtain ⟨ts', later⟩ :=
    ht.makeObject P.machine.module hlays (fun o => { o with target := v, method := some q }) fun hk hfields =>
    { admits := howner.admits
      notArray := howner.notArray
      fields := hfields
      box := fun hv => by cases hv
      object := fun _ => howner.reference
      delegate := fun hD' => by
        cases hD.symm.trans ((Symbols.delegate?_of_key howner.key).symm.trans hD')
        exact ⟨q, rfl, hq, hrecv.later hk, hp, hr⟩
      builder := fun _ hn => absurd (howner.key.symm.trans hn) hbuilder }
  exact ⟨ts', later, .cons (.value hvoid (howner.key ▸ .object hget rfl howner.reference))
      (hrest.later later.cells later.keeps)⟩

/-! ### Fields -/

variable {x : Field} {u : Ty}

/-- A field of a type, as the platform has it. -/
theorem fieldOn (hf : P.Lives ts f Γ d) (hx : Γ.FieldOn t x) :
    P.Admits t ∧ (∃ c ∈ Ty.lineage P.object t, x ∈ P.symbols.fieldsOf c) ∧ ∃ u, x.type = some u ∧ P.Admits u ∧
      u.isVoid = false := by
  obtain ⟨u, hu, hU⟩ := hx.type hf.runs.ok
  obtain ⟨ht, c, hc, hmem⟩ := hx
  rw [hf.runs.admits] at ht
  rw [hf.runs.object] at hc
  rw [hf.runs.symbols] at hmem
  exact ⟨ht, ⟨c, hc, hmem⟩, u, hu, hf.runs.admits ▸ hU.admits, hU.notVoid⟩

/-- The receiver of a field is null, or an object that has the field in a cell of its type, or an array that is taken
    for one. -/
theorem field_found (hP : P.Sound) (ht : P.Typed ts h) (hf : P.Lives ts f Γ d) (hst : x.isStatic = false)
    (hx : Γ.FieldOn t x) (hs : s = .value (some t) ∨ s = .address t) {v : Value} (hv : P.Fits ts h s v) :
    v = .null ∨ (∃ id o slot u, v = .obj id ∧ h.objects[id]? = some o ∧ x.slot = some slot ∧
      slot < o.count ∧ x.type = some u ∧
      ts[o.first + slot]? = some u.key) ∨ ¬P.plain ∧ ∃ id, v = .arr id := by
  obtain ⟨hT, ⟨c, hc, hmem⟩, -⟩ := fieldOn hf hx
  obtain ⟨rfl, harray, href⟩ := hP.field hT hc hmem hst
  rcases hs with rfl | rfl
  · cases hv with
    | value _ hv =>
    rcases hv.reference? href with rfl | ⟨id, o, rfl, ho, -, hkey⟩ | ⟨id, a, rfl, -, hkey⟩
    · exact .inl rfl
    · obtain ⟨slot, u, hslot, hlt, hu, hcell⟩ := (ht.object ho).fields (Symbols.fieldsOf_of_key hkey ▸ hmem) hst
      exact .inr (.inl ⟨id, o, slot, u, rfl, ho, hslot, hlt, hu, hcell⟩)
    · exact .inr (.inr ⟨fun hp => hP.apart hp hT (harray hp) a.elem (hkey.symm.trans a.elem.key_array.symm), id, rfl⟩)
  · cases hv with
    | place hvalue hvoid _ =>
    rw [value_key hP hT hvalue hvoid] at href
    cases href

theorem fieldCell_found (hP : P.Sound) (ht : P.Typed ts h) (hf : P.Lives ts f Γ d) (hst : x.isStatic = false)
    (hx : Γ.FieldOn t x) (hs : s = .value (some t) ∨ s = .address t) {v : Value} (hv : P.Fits ts h s v) (op : Opcode) :
    v = .null ∧ Frame.fieldCell h op x v = .error (.fail (.fieldOf op.mnemonic x.name (Value.kindName .null))) ∨
      (∃ c u, Frame.fieldCell h op x v = .ok c ∧ x.type = some u ∧ ts[c]? = some u.key) ∨
      ¬P.plain ∧ ∃ y, Frame.fieldCell h op x v = .error (.fail y) := by
  rcases field_found hP ht hf hst hx hs hv with rfl | ⟨id, o, slot, u, rfl, ho, hslot, hlt, hu, hcell⟩ | ⟨hplain, id, rfl⟩
  · exact .inl ⟨rfl, rfl⟩
  · exact .inr (.inl ⟨o.first + slot, u, by simp [Frame.fieldCell, Heap.deref, ho, hslot, hlt], hu, hcell⟩)
  · exact .inr (.inr ⟨hplain, _, rfl⟩)

theorem loadField_acts (hP : P.Sound) (ht : P.Typed ts w.heap) (hf : P.Lives ts f Γ d) (hst : x.isStatic = false)
    (hx : Γ.FieldOn t x) (hs : s = .value (some t) ∨ s = .address t) (hS : P.Stacked ts w.heap (s :: S) f.stack) :
    P.Acts ts w.heap Γ (.value x.type :: S) f { op := .ldfld, operand := .field x } (f.execField w .ldfld x) := by
  obtain ⟨v, rest, hstack, hv, hrest⟩ := hS.top (by rintro r rfl; rcases hs with hs | hs <;> cases hs)
  simp only [Frame.execField, hstack]
  rcases fieldCell_found hP ht hf hst hx hs hv .ldfld with ⟨rfl, hnull⟩ | ⟨c, u, hc, hu, hcell⟩ | ⟨hplain, y, hc⟩
  · rw [hnull]
    exact .fail (.of_null rfl (by rw [hstack]; rfl))
  · obtain ⟨-, -, u', hu', -, hvoid⟩ := fieldOn hf hx
    cases hu.symm.trans hu'
    rw [hc, hu]
    exact .next ht (.cons (.value hvoid (ht.load hcell)) hrest)
  · rw [hc]
    exact .confused hplain y

theorem loadFieldAddress_acts (hP : P.Sound) (ht : P.Typed ts w.heap) (hf : P.Lives ts f Γ d) (hst : x.isStatic = false)
    (hx : Γ.FieldOn t x) (hs : s = .value (some t) ∨ s = .address t) (hu : x.type = some u) (hvalue : u.isValue = true)
    (hS : P.Stacked ts w.heap (s :: S) f.stack) :
    P.Acts ts w.heap Γ (.address u :: S) f { op := .ldflda, operand := .field x } (f.execField w .ldflda x) := by
  obtain ⟨v, rest, hstack, hv, hrest⟩ := hS.top (by rintro r rfl; rcases hs with hs | hs <;> cases hs)
  simp only [Frame.execField, hstack]
  rcases fieldCell_found hP ht hf hst hx hs hv .ldflda with ⟨rfl, hnull⟩ | ⟨c, u', hc, hu', hcell⟩ | ⟨hplain, y, hc⟩
  · rw [hnull]
    exact .fail (.of_null rfl (by rw [hstack]; rfl))
  · obtain ⟨-, -, _, hu'', -, hvoid⟩ := fieldOn hf hx
    cases hu.symm.trans hu'
    cases hu.symm.trans hu''
    rw [hc]
    exact .next ht (.cons (.place hvalue hvoid (.cell hcell)) hrest)
  · rw [hc]
    exact .confused hplain y

theorem storeField_acts (hP : P.Sound) (ht : P.Typed ts w.heap) (hf : P.Lives ts f Γ d) (hst : x.isStatic = false)
    (hx : Γ.FieldOn t x) {o : Option Ty} (ha : Ty.accepts x.type o = true)
    (hS : P.Stacked ts w.heap (.value o :: .value (some t) :: S) f.stack) :
    P.Acts ts w.heap Γ S f { op := .stfld, operand := .field x } (f.execField w .stfld x) := by
  obtain ⟨v, _, hstack, hv, hS⟩ := hS.value
  obtain ⟨recv, rest, rfl, hrecv, hrest⟩ := hS.value
  simp only [Frame.execField, hstack]
  rcases fieldCell_found hP ht hf hst hx (.inl rfl) hrecv .stfld with ⟨rfl, hnull⟩ | ⟨c, u, hc, hu, hcell⟩ | ⟨hplain, y, hc⟩
  · rw [hnull]
    exact .fail (.of_null rfl (by rw [hstack]; rfl))
  · obtain ⟨-, -, u', hu', hU, -⟩ := fieldOn hf hx
    cases hu.symm.trans hu'
    rw [hu] at ha
    have later := ht.store hcell (hv.accepted hP hU ha)
    rw [hc]
    exact ⟨ts, later, hrest.later later.cells later.keeps⟩
  · rw [hc]
    exact .confused hplain y

/-- A static field is a place of its type. -/
theorem static_place (hP : P.Sound) (hf : P.Lives ts f Γ d) (hst : x.isStatic = true) (hx : Γ.FieldOn t x)
    (hu : x.type = some u) :
    Place ts u (.static x) := by
  obtain ⟨hT, ⟨c, hc, hmem⟩, -⟩ := fieldOn hf hx
  exact .static hu (hP.initial hT hc hmem hst hu)

theorem loadStatic_acts (hP : P.Sound) (ht : P.Typed ts w.heap) (hf : P.Lives ts f Γ d) (hst : x.isStatic = true)
    (hx : Γ.FieldOn t x) (hS : P.Stacked ts w.heap S f.stack) :
    P.Acts ts w.heap Γ (.value x.type :: S) f i (.next (f.push (w.heap.load (.static x))), w) := by
  obtain ⟨-, -, u, hu, -, hvoid⟩ := fieldOn hf hx
  rw [hu]
  exact .push ht hS (.value hvoid ((static_place hP hf hst hx hu).load ht))

theorem loadStaticAddress_acts (hP : P.Sound) (ht : P.Typed ts w.heap) (hf : P.Lives ts f Γ d) (hst : x.isStatic = true)
    (hx : Γ.FieldOn t x) (hu : x.type = some u) (hvalue : u.isValue = true) (hS : P.Stacked ts w.heap S f.stack) :
    P.Acts ts w.heap Γ (.address u :: S) f i (.next (f.push (.addr (.static x))), w) := by
  obtain ⟨-, -, _, hu', -, hvoid⟩ := fieldOn hf hx
  cases hu.symm.trans hu'
  exact .push ht hS (.place hvalue hvoid (static_place hP hf hst hx hu))

theorem storeStatic_acts (hP : P.Sound) (ht : P.Typed ts w.heap) (hf : P.Lives ts f Γ d)
    (hx : Γ.FieldOn t x) {o : Option Ty}
    (ha : Ty.accepts x.type o = true) (hS : P.Stacked ts w.heap (.value o :: S) f.stack) :
    P.Acts ts w.heap Γ S f i (f.storeTo w (.static x)) := by
  obtain ⟨v, rest, hstack, hv, hrest⟩ := hS.value
  obtain ⟨-, -, u, hu, hU, -⟩ := fieldOn hf hx
  rw [hu] at ha
  have later := ht.storeStatic (f := x) ⟨u, hu, hv.accepted hP hU ha⟩
  simp only [Frame.storeTo, hstack]
  exact ⟨ts, later, hrest.later later.cells later.keeps⟩

/-! ### Arrays -/

variable {e n : Ty}

theorem newArray_acts (hP : P.Sound) (ht : P.Typed ts w.heap) (ha : P.Admits (.array e)) (hn : n.name = TypeName.int32)
    (hS : P.Stacked ts w.heap (.value (some n) :: S) f.stack) :
    P.Acts ts w.heap Γ (.value (some (.array e)) :: S) f i (f.execNewArray w e) := by
  obtain ⟨v, rest, hstack, hv, hrest⟩ := hS.value
  cases hv with
  | value _ hv =>
  obtain ⟨k, rfl⟩ := hv.number? (.inl (Ty.key_host hn (by decide)))
  simp only [Frame.execNewArray, hstack, Heap.deref]
  split
  · exact .fail (.of_code rfl i f.stack)
  · obtain ⟨later, harr⟩ := ht.addArray ha (hP.starts (hP.element ha)) k.toInt.toNat
    have hvoid : (Ty.array e).isVoid = false := decide_eq_false (TypeName.array_ne (by decide))
    exact ⟨_, later, .cons (.value hvoid harr) (hrest.later later.cells later.keeps)⟩

theorem length_acts (hP : P.Sound) (ht : P.Typed ts w.heap) (hu : u.name = TypeName.int32)
    (hS : P.Stacked ts w.heap (.value (some (.array e)) :: S) f.stack) :
    P.Acts ts w.heap Γ (.value (some u) :: S) f { op := .ldlen } (f.execLength w.heap, w) := by
  obtain ⟨v, rest, hstack, hv, hrest⟩ := hS.value
  cases hv with
  | value _ hv =>
  have hnumber : u.IsNumber := .inl hu
  rcases ht.array? hP hv with rfl | ⟨id, a, rfl, ha, -⟩ | ⟨hplain, id, rfl⟩
  · simp only [Frame.execLength, hstack, Heap.deref]
    exact .fail (.of_null rfl (by rw [hstack]; rfl))
  · simp only [Frame.execLength, hstack, Heap.deref, ha]
    exact .next ht (.cons (.value hnumber.notVoid (.number hnumber.key)) hrest)
  · simp only [Frame.execLength, hstack, Heap.deref]
    exact .confused hplain _

/-- An element is in a cell of its type, if the array is not null, no object is taken for it, and the index is one of
    its. -/
theorem elementCell_found (hP : P.Sound) (ht : P.Typed ts h) (hn : n.name = TypeName.int32)
    {array index : Value} (hv : P.Fits ts h (.value (some (.array e))) array) (hindex : P.Fits ts h (.value (some n)) index)
    (op : Opcode) :
    array = .null ∧ Frame.elementCell h op array index = .error (.fail (.elementOf op.mnemonic (Value.kindName .null))) ∨
      (∃ k size, Frame.elementCell h op array index = .error (.fail (.indexOutside k size))) ∨
      (∃ c, Frame.elementCell h op array index = .ok c ∧ ts[c]? = some e.key) ∨
      ¬P.plain ∧ ∃ x, Frame.elementCell h op array index = .error (.fail x) := by
  cases hv with
  | value _ hv =>
  cases hindex with
  | value _ hindex =>
  obtain ⟨k, rfl⟩ := hindex.number? (.inl (Ty.key_host hn (by decide)))
  rcases ht.array? hP hv with rfl | ⟨id, a, rfl, hget, hkey⟩ | ⟨hplain, id, rfl⟩
  · exact .inl ⟨rfl, rfl⟩
  · simp only [Frame.elementCell, Heap.deref, hget]
    split
    · rename_i hk
      exact .inr (.inr (.inl ⟨_, rfl, hkey ▸ (ht.array hget).element (by omega)⟩))
    · exact .inr (.inl ⟨_, _, rfl⟩)
  · exact .inr (.inr (.inr ⟨hplain, _, rfl⟩))

theorem loadElement_acts (hP : P.Sound) (ht : P.Typed ts w.heap) (hn : n.name = TypeName.int32)
    (hS : P.Stacked ts w.heap (.value (some n) :: .value (some (.array e)) :: S) f.stack) {x : Operand}
    (hS' : S' = [] ∨ e.isVoid = false ∧ S' = .value (some e) :: S) :
    P.Acts ts w.heap Γ S' f { op := .ldelem, operand := x } (f.execElement w .ldelem) := by
  obtain ⟨index, _, hstack, hindex, hS⟩ := hS.value
  obtain ⟨array, rest, rfl, hv, hrest⟩ := hS.value
  simp only [Frame.execElement, hstack]
  rcases elementCell_found hP ht hn hv hindex .ldelem with ⟨rfl, hnull⟩ | ⟨k, size, hout⟩ | ⟨c, hc, hcell⟩ | ⟨hplain, y, hc⟩
  · rw [hnull]
    exact .fail (.of_null rfl (by rw [hstack]; rfl))
  · rw [hout]
    exact .fail (.of_code rfl _ f.stack)
  · rw [hc]
    rcases hS' with rfl | ⟨hvoid, rfl⟩
    · exact .next ht .any
    · exact .next ht (.cons (.value hvoid (ht.load hcell)) hrest)
  · rw [hc]
    exact .confused hplain y

theorem loadElementAddress_acts (hP : P.Sound) (ht : P.Typed ts w.heap) (hn : n.name = TypeName.int32)
    (hvoid : e.isVoid = false) (hvalue : e.isValue = true)
    (hS : P.Stacked ts w.heap (.value (some n) :: .value (some (.array e)) :: S) f.stack) {x : Operand} :
    P.Acts ts w.heap Γ (.address e :: S) f { op := .ldelema, operand := x } (f.execElement w .ldelema) := by
  obtain ⟨index, _, hstack, hindex, hS⟩ := hS.value
  obtain ⟨array, rest, rfl, hv, hrest⟩ := hS.value
  simp only [Frame.execElement, hstack]
  rcases elementCell_found hP ht hn hv hindex .ldelema with ⟨rfl, hnull⟩ | ⟨k, size, hout⟩ | ⟨c, hc,
      hcell⟩ | ⟨hplain, y, hc⟩
  · rw [hnull]
    exact .fail (.of_null rfl (by rw [hstack]; rfl))
  · rw [hout]
    exact .fail (.of_code rfl _ f.stack)
  · rw [hc]
    exact .next ht (.cons (.place hvalue hvoid (.cell hcell)) hrest)
  · rw [hc]
    exact .confused hplain y

theorem storeElement_acts (hP : P.Sound) (ht : P.Typed ts w.heap) (he : P.Admits e) (hn : n.name = TypeName.int32)
    {o : Option Ty} (hacc : Ty.accepts (some e) o = true)
    (hS : P.Stacked ts w.heap (.value o :: .value (some n) :: .value (some (.array e)) :: S) f.stack) {x : Operand} :
    P.Acts ts w.heap Γ S f { op := .stelem, operand := x } (f.execElement w .stelem) := by
  obtain ⟨v, _, hstack, hvalue, hS⟩ := hS.value
  obtain ⟨index, _, rfl, hindex, hS⟩ := hS.value
  obtain ⟨array, rest, rfl, hv, hrest⟩ := hS.value
  simp only [Frame.execElement, hstack]
  rcases elementCell_found hP ht hn hv hindex .stelem with ⟨rfl, hnull⟩ | ⟨k, size, hout⟩ | ⟨c, hc, hcell⟩ | ⟨hplain, y, hc⟩
  · rw [hnull]
    exact .fail (.of_null rfl (by rw [hstack]; rfl))
  · rw [hout]
    exact .fail (.of_code rfl _ f.stack)
  · have later := ht.store hcell (hvalue.accepted hP he hacc)
    rw [hc]
    exact ⟨ts, later, hrest.later later.cells later.keeps⟩
  · rw [hc]
    exact .confused hplain y

/-! ### Boxes -/

theorem box_acts (hP : P.Sound) (ht : P.Typed ts w.heap) (hT : P.Admits t) (hvalue : t.isValue = true)
    (hS : P.Stacked ts w.heap (.value (some t) :: S) f.stack) :
    P.Acts ts w.heap Γ (.boxed t :: S) f i (f.execBox P.machine w t) := by
  obtain ⟨v, rest, hstack, hv, hrest⟩ := hS.value
  cases hv with
  | value hvoid hv =>
  have harray : t.isArray = false := by
    cases t with
    | array => cases hvalue
    | root => rfl
    | derived => rfl
  have hplain := value_plain hP hT hvalue hvoid hv
  have href := value_key hP hT hvalue hvoid
  obtain ⟨y, hy, rfl, hlays⟩ := hP.definition hT harray
  simp only [Frame.execBox, hstack, hvalue, if_true, hy, hv.knows.deref]
  obtain ⟨first, tag, hget⟩ := w.makeObject_get P.machine.module y fun o => { o with boxed := some v }
  obtain ⟨ts', later⟩ := ht.makeObject P.machine.module hlays (fun o => { o with boxed := some v }) fun _ hfields =>
    { admits := hT
      notArray := harray
      fields := hfields
      box := fun hv' => by
        cases hv'
        exact ⟨hvalue, hplain⟩
      object := fun hnone => by cases hnone
      delegate := fun hD => by
        obtain ⟨howner, -⟩ := hP.delegate hT hD
        have := howner.reference
        rw [howner.key, href] at this
        cases this
      builder := fun _ hn => by
        rw [show y.type.key = TypeName.stringBuilder from hn] at href
        cases href }
  exact ⟨ts', later, .cons (.boxed ⟨⟨_, hget, rfl, rfl⟩, hplain⟩) (hrest.later later.cells later.keeps)⟩

/-! ### Any instruction -/

/-- A value is returned that is accepted where the result of the method is wanted. -/
theorem return_acts (hP : P.Sound) (hf : P.Lives ts f Γ d) {o : Option Ty} (ha : Ty.accepts (some Γ.scope.ret) o = true)
    (hS : P.Stacked ts w.heap (.value o :: S) f.stack) : P.Acts ts w.heap Γ S' f i (.ret (f.stack.headD .null), w) := by
  obtain ⟨v, rest, hstack, hv, -⟩ := hS.value
  refine ⟨rfl, fun t hr _ => ?_⟩
  cases hr
  rw [hstack]
  exact hv.accepted hP (hf.runs.admits ▸ hf.runs.ok.ret) ha

/-- The cell of an argument that code names. -/
theorem Lives.arg_cell (hf : P.Lives ts f Γ d) {n : Nat} {t : Ty} (hn : n ≤ 65534) (ht : Γ.scope.args[n]? = some t) :
    f.arg? (Int32.ofNat n) = some (f.args + n) ∧ ts[f.args + n]? = some t.key ∧ P.Admits t ∧ t.isVoid = false := by
  have hholds := args_hold hf.runs.ok ht
  obtain ⟨hlt, hcell⟩ := hf.arg ht
  exact ⟨Frame.arg?_ofNat hlt hn, hcell, hf.runs.admits ▸ hholds.admits, hholds.notVoid⟩

/-- The cell of a local that code names. -/
theorem Lives.local_cell (hf : P.Lives ts f Γ d) {n : Nat} {t : Ty} (hn : n ≤ 65534) (ht : d.locals[n]? = some t) :
    f.local? (Int32.ofNat n) = some (f.locals + n) ∧ ts[f.locals + n]? = some t.key ∧ P.Admits t ∧ t.isVoid = false := by
  have hholds := hf.runs.complete.locals ht
  have hlt : n < f.body.locals.size := by
    rw [hf.runs.locals]
    exact (Array.getElem?_eq_some_iff.mp ht).1
  exact ⟨Frame.local?_ofNat hlt hn, hf.local ht, hf.runs.admits ▸ hholds.admits, hholds.notVoid⟩

/-- An instruction that is no branch does what its type says, where the method of an object is taken if that object is
    there twice. -/
theorem types_acts (hP : P.Sound) (ht : P.Typed ts w.heap) (hf : P.Lives ts f Γ d) {labels : Nat}
    (hi : Γ.Types d.locals labels i S S') (hb : i.op.isBranch = false)
    (htwice : i.op = .ldvirtftn → ∃ v rest, f.stack = v :: v :: rest) (hS : P.Stacked ts w.heap S f.stack) :
    P.Acts ts w.heap Γ S' f i (f.execLong P.machine w i) := by
  have hΓ := hf.runs.ok
  have admits : ∀ {t : Ty}, Γ.Admits t → P.Admits t := fun h => hf.runs.admits ▸ h
  have string : Γ.scope.roles.string.isVoid = false := by
    rw [Ty.isVoid, hΓ.string]
    rfl
  cases hi with
  | null => exact .push ht hS .null
  | @int v t S hrole =>
    have hnumber : t.IsNumber := by
      rcases hrole with rfl | rfl
      · exact .inl hΓ.int32
      · exact .inr hΓ.boolean
    exact .push ht hS (.value hnumber.notVoid (.number hnumber.key))
  | str => exact .push ht hS (.value string (Ty.key_host hΓ.string (by decide) ▸ .string))
  | arg hn harg =>
    obtain ⟨hcell, htype, -, hvoid⟩ := hf.arg_cell hn harg
    simp only [Frame.execLong, Operand.number, hcell]
    exact loadCell_acts ht hS htype hvoid
  | argAddress hn harg hvalue =>
    obtain ⟨hcell, htype, -, hvoid⟩ := hf.arg_cell hn harg
    simp only [Frame.execLong, Operand.number, hcell]
    exact loadCellAddress_acts ht hS htype hvoid hvalue
  | setArg hn harg ha =>
    obtain ⟨hcell, htype, hT, -⟩ := hf.arg_cell hn harg
    simp only [Frame.execLong, Operand.number, hcell]
    exact storeCell_acts hP ht hS htype hT ha
  | loc hn hloc =>
    obtain ⟨hcell, htype, -, hvoid⟩ := hf.local_cell hn hloc
    simp only [Frame.execLong, Operand.number, hcell]
    exact loadCell_acts ht hS htype hvoid
  | locAddress hn hloc hvalue =>
    obtain ⟨hcell, htype, -, hvoid⟩ := hf.local_cell hn hloc
    simp only [Frame.execLong, Operand.number, hcell]
    exact loadCellAddress_acts ht hS htype hvoid hvalue
  | setLoc hn hloc ha =>
    obtain ⟨hcell, htype, hT, -⟩ := hf.local_cell hn hloc
    simp only [Frame.execLong, Operand.number, hcell]
    exact storeCell_acts hP ht hS htype hT ha
  | dup hs => exact dup_acts ht hs hS
  | @arithmetic op a b S hop hx hy =>
    have acts : P.Acts ts w.heap Γ (.value (some a) :: S) f { op } (f.execBinary w.heap op, w) :=
      execBinary_acts ht (List.mem_append_left [Opcode.cgt, Opcode.clt] hop) hx hy hx hS
    simp only [List.mem_cons, List.not_mem_nil, or_false] at hop
    rcases hop with rfl | rfl | rfl | rfl | rfl | rfl | rfl <;> exact acts
  | @order op a b S hop hx hy =>
    have acts : P.Acts ts w.heap Γ (.value (some Γ.scope.roles.boolean) :: S) f { op } (f.execBinary w.heap op, w) :=
      execBinary_acts ht (List.mem_append_right [Opcode.add, .sub, .mul, .div, .rem, .and, .or] hop) hx hy
        (.inr hΓ.boolean) hS
    simp only [List.mem_cons, List.not_mem_nil, or_false] at hop
    rcases hop with rfl | rfl <;> exact acts
  | equal hname => exact execEqual_acts ht hname hS
  | @unary op a S hop hx =>
    simp only [List.mem_cons, List.not_mem_nil, or_false] at hop
    rcases hop with rfl | rfl <;> exact execUnary_acts ht hx _ hS
  | callStatic hst hm hfits => exact callStatic_acts hP ht hf hst hm hfits hS
  | callInstance hst hm hfits hr =>
    have acts := callInstance_acts hP ht hf hst hm hfits hr hS
    cases hr with
    | object => exact acts
    | place => exact acts
  | callBase _ hc hp => exact callBase_acts hP ht hf hc hp hS
  | @construct t c types S hT hvalue hdelegate hc hfits =>
    rw [hf.runs.symbols] at hdelegate
    have hparams : ∀ p ∈ c.params, ∃ t, p = some t ∧ P.Admits t := fun p hp => by
      obtain ⟨t, rfl, hT⟩ := hΓ.params (.inr (.inl hc)) p hp
      exact ⟨t, rfl, admits hT.admits⟩
    exact construct_acts hP ht (admits hT) hvalue (hΓ.constructed hc) hdelegate (hf.runs.symbols ▸ hc) hfits hparams hS
  | staticPointer hst hm =>
    obtain ⟨hT, c, hc, hmem⟩ := methodOn hf hm
    exact .push ht hS (.static (hP.method hT hc hmem).1 hst)
  | boundPointer hst hm hs => exact boundPointer_acts hP ht hf hst hm hs hS (htwice rfl)
  | delegate hT hD _ hp hr hps =>
    obtain ⟨hvoid, htwo⟩ := hΓ.delegate hD
    rw [hf.runs.symbols] at hD
    exact delegate_acts hP ht (admits hT) hvoid hD htwo hp hr hps hS
  | field hst hx hs => exact loadField_acts hP ht hf hst hx hs hS
  | fieldAddress hst hx hs hu hvalue => exact loadFieldAddress_acts hP ht hf hst hx hs hu hvalue hS
  | setField hst hx ha => exact storeField_acts hP ht hf hst hx ha hS
  | staticField hst hx => exact loadStatic_acts hP ht hf hst hx hS
  | staticFieldAddress hst hx hu hvalue => exact loadStaticAddress_acts hP ht hf hst hx hu hvalue hS
  | setStaticField _ hx ha => exact storeStatic_acts hP ht hf hx ha hS
  | array ha hn => exact newArray_acts hP ht (admits ha) hn hS
  | length => exact length_acts hP ht hΓ.int32 hS
  | element hvoid _ hn => exact loadElement_acts hP ht hn hS (.inr ⟨hvoid, rfl⟩)
  | voidElement _ _ hn => exact loadElement_acts hP ht hn hS (.inl rfl)
  | elementAddress hvoid _ hvalue hn => exact loadElementAddress_acts hP ht hn hvoid hvalue hS
  | setElement ha hn hacc => exact storeElement_acts hP ht (admits (hΓ.element ha)) hn hacc hS
  | box hT hvalue => exact box_acts hP ht (admits hT) hvalue hS
  | leave hvoid =>
    refine ⟨rfl, fun t hr hn => ?_⟩
    cases hr
    rw [hvoid] at hn
    cases hn
  | «return» _ ha => exact return_acts hP hf ha hS
  | jump => cases hb
  | test hop =>
    simp only [List.mem_cons, List.not_mem_nil, or_false] at hop
    rcases hop with rfl | rfl <;> cases hb

/-- A branch has an empty stack behind it, wherever it goes. -/
theorem branch_acts (ht : P.Typed ts w.heap) {locals : Array Ty} {labels : Nat} (hi : Γ.Types locals labels i S S')
    (hb : i.op.isBranch = true) {j : Instr} (hop : j.op = i.op) {n : Nat} (hn : j.operand = .offset n)
    (hS : P.Stacked ts w.heap S f.stack) : P.Acts ts w.heap Γ S' f j (f.execLong P.machine w j) := by
  obtain ⟨op, x⟩ := j
  cases hop
  cases hn
  cases hi with
  | jump _ => exact ⟨rfl, .any⟩
  | test hop _ _ =>
    obtain ⟨v, rest, hstack, -, -⟩ := hS.value
    simp only [List.mem_cons, List.not_mem_nil, or_false] at hop
    rcases hop with rfl | rfl
    all_goals
      simp only [Frame.execLong, Frame.execBranch, hstack]
      split
      · exact ⟨rfl, .any⟩
      · exact .next ht .any
  | arithmetic hop _ _ | order hop _ _ | unary hop _ =>
    simp only [List.mem_cons, List.not_mem_nil, or_false] at hop
    rcases hop with rfl | rfl | rfl | rfl | rfl | rfl | rfl <;> cases hb
  | callInstance _ _ _ hr => cases hr <;> cases hb
  | _ => cases hb

end Instances
end Platform
end CilCompiler
