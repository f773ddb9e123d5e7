import CilCompiler.Proofs.Emission
import CilCompiler.Proofs.Symbols
import CilCompiler.Proofs.Typed.Draft

/-!
Lowering keeps bodies typed. `Setting.Sound` says that the work done so far is a typed body with given slots
on its stack, that named locals are locals of the body, and that only admitted types have been entered. This
module has what the steps of lowering do when they succeed, and what an emission does to sound work.
-/

namespace CilCompiler

/-! ### Steps of lowering that succeed -/

namespace Lower
variable {α β : Type} {c : Scope} {w w' : Work}

theorem bind_of_ok {x : Lower α} {f : α → Lower β} {a : α} (h : x c w = .ok (a, w')) : (x >>= f) c w = f a c w' := by
  show (x c w >>= fun r => f r.1 c r.2) = _
  rw [h]
  rfl

theorem read_run : (read : Lower Scope) c w = .ok (c, w) := rfl

theorem symbols_run : symbols c w = .ok (w.symbols, w) := rfl

theorem local?_run (name : Text) : local? name c w = .ok (w.local? name, w) := rfl

theorem fieldAlong_run (t : Ty) (name : Text) :
    fieldAlong t name c w = .ok (w.symbols.fieldAlong c.roles.object t name, w) := rfl

theorem bind_ok {x : Lower α} {f : α → Lower β} {b : β} :
    (x >>= f) c w = .ok (b, w') ↔ ∃ a w₁, x c w = .ok (a, w₁) ∧ f a c w₁ = .ok (b, w') := by
  show (x c w >>= fun r => f r.1 c r.2) = _ ↔ _
  rw [bind_eq_ok]
  exact ⟨fun ⟨(a, w₁), h, h'⟩ => ⟨a, w₁, h, h'⟩, fun ⟨a, w₁, h, h'⟩ => ⟨(a, w₁), h, h'⟩⟩

theorem map_ok {x : Lower α} {f : α → β} {b : β} :
    (f <$> x) c w = .ok (b, w') ↔ ∃ a w₁, x c w = .ok (a, w₁) ∧ f a = b ∧ w₁ = w' := by
  show (x c w >>= fun r => Except.ok (f r.1, r.2)) = _ ↔ _
  rw [bind_eq_ok]
  constructor
  · rintro ⟨⟨a, w₁⟩, h, h'⟩
    cases h'
    exact ⟨a, _, h, rfl, rfl⟩
  · rintro ⟨a, w₁, h, rfl, rfl⟩
    exact ⟨(a, w₁), h, rfl⟩

theorem pure_ok {a b : α} : (pure a : Lower α) c w = .ok (b, w') ↔ a = b ∧ w = w' := by
  show Except.ok (a, w) = Except.ok (b, w') ↔ _
  simp

theorem ite_ok {p : Prop} [Decidable p] {x y : Lower α} {r : Except Fault (α × Work)} :
    (if p then x else y) c w = r ↔ p ∧ x c w = r ∨ ¬p ∧ y c w = r := by
  by_cases h : p <;> simp [h]

theorem fail_ok {f : Fault} {r : α × Work} : (fail f : Lower α) c w = .ok r ↔ False :=
  ⟨fun h => (by cases h), False.elim⟩

theorem read_ok {a : Scope} : (read : Lower Scope) c w = .ok (a, w') ↔ c = a ∧ w = w' := by
  show Except.ok (c, w) = Except.ok (a, w') ↔ _
  simp

theorem symbols_ok {s : Symbols} : symbols c w = .ok (s, w') ↔ w.symbols = s ∧ w = w' := by
  show Except.ok (w.symbols, w) = Except.ok (s, w') ↔ _
  simp

theorem local?_ok {name : Text} {l : Option LocalSlot} : local? name c w = .ok (l, w') ↔ w.local? name = l ∧ w = w' := by
  show Except.ok (w.local? name, w) = Except.ok (l, w') ↔ _
  simp

theorem ofExcept_ok {x : Except Fault α} {a : α} : ofExcept x c w = .ok (a, w') ↔ x = .ok a ∧ w = w' := by
  unfold ofExcept
  rw [map_eq_ok]
  simp

theorem fieldAlong_ok {t : Ty} {name : Text} {r : Except Fault Field} :
    fieldAlong t name c w = .ok (r, w') ↔ w.symbols.fieldAlong c.roles.object t name = r ∧ w = w' := by
  show Except.ok (_, w) = Except.ok (r, w') ↔ _
  simp

theorem requireInstance_ok {what : Text} {u : Unit} :
    requireInstance what c w = .ok (u, w') ↔ c.isStatic = false ∧ w = w' := by
  unfold requireInstance
  cases c.isStatic <;> simp

theorem lookupType_ok {name : Text} {t : Ty} :
    lookupType name c w = .ok (t, w') ↔ ∃ s, w.symbols.lookup name = .ok (t, s) ∧ w' = { w with symbols := s } := by
  unfold lookupType
  rw [map_eq_ok]
  constructor
  · rintro ⟨⟨t', s⟩, h, he⟩
    cases he
    exact ⟨s, h, rfl⟩
  · rintro ⟨s, h, rfl⟩
    exact ⟨(t, s), h, rfl⟩

theorem emit_ok {e : Emission} {u : Unit} (hc : c.site.backend = .dynamic) :
    emit e c w = .ok (u, w') ↔ ∃ i, e.encode c.site = .ok i ∧ w' = { w with draft := w.draft.push i } := by
  unfold emit Draft.emit
  cases e.encode c.site with
  | error f => simp
  | ok i => simp [Draft.record, hc, eq_comm]

/-- Whatever module a body belongs to, an emission adds its instruction; a listing counts its values. -/
theorem emit_eq {e : Emission} {u : Unit} (h : emit e c w = .ok (u, w')) :
    ∃ i n k, e.encode c.site = .ok i ∧ w' = { w with draft := { w.draft.push i with depth := n, peak := k } } := by
  unfold emit Draft.emit at h
  cases he : e.encode c.site with
  | error f =>
    simp only [he] at h
    cases h
  | ok i =>
    simp only [he] at h
    unfold Draft.record at h
    cases hb : c.site.backend with
    | dynamic =>
      simp only [hb] at h
      cases h
      exact ⟨i, _, _, rfl, rfl⟩
    | textual =>
      simp only [hb] at h
      by_cases hpops : w.draft.depth < (i.effect c.site.method.ret).1
      · simp [hpops] at h
      · split at h
        · rename_i d hd
          rw [if_neg hpops] at hd
          split at hd
          · cases hd
          · cases hd
            cases h
            exact ⟨i, _, _, rfl, rfl⟩
        · cases h

/-- A listing finds the values that an instruction takes, and counts those that it leaves. -/
theorem emit_counts {e : Emission} {u : Unit} {i : Instr} (hc : c.site.backend = .textual) (he : e.encode c.site = .ok i)
    (h : emit e c w = .ok (u, w')) : w'.draft.depth = i.depthAfter c.site.method.ret w.draft.depth := by
  unfold emit Draft.emit at h
  simp only [he, Draft.record, hc] at h
  by_cases hpops : w.draft.depth < (i.effect c.site.method.ret).1
  · simp [hpops] at h
  · split at h
    · rename_i d hd
      rw [if_neg hpops] at hd
      split at hd
      · cases hd
      · cases hd
        cases h
        rfl
    · cases h

theorem emit_pushes {e : Emission} {u : Unit} (h : emit e c w = .ok (u, w')) :
    ∃ i, e.encode c.site = .ok i ∧ w'.draft.code = w.draft.code.push i ∧ w'.draft.marks = w.draft.marks := by
  obtain ⟨i, n, k, hi, rfl⟩ := emit_eq h
  exact ⟨i, hi, rfl, rfl⟩

theorem emit_symbols {e : Emission} {u : Unit} (h : emit e c w = .ok (u, w')) : w'.symbols = w.symbols := by
  unfold emit at h
  split at h
  · cases h
    rfl
  · cases h

theorem declareLocal_ok {name : Text} {t : Ty} {l : LocalSlot} (h : declareLocal name t c w = .ok (l, w')) :
    l = { method := c.site.method, index := w.draft.locals.size, type := t } ∧
      w' = { w with draft := { w.draft with locals := w.draft.locals.push t },
                    locals := if name.isEmpty then w.locals else (name, l) :: w.locals } := by
  obtain ⟨⟨l', d⟩, h, he⟩ := map_eq_ok.mp h
  obtain ⟨_, -, h⟩ := bind_eq_ok.mp h
  cases h
  cases he
  exact ⟨rfl, rfl⟩

/-- Only a body that can be run has labels. -/
theorem defineLabel_dynamic {l : Label} (h : defineLabel c w = .ok (l, w')) : c.site.backend = .dynamic := by
  obtain ⟨_, h, -⟩ := map_eq_ok.mp h
  unfold Draft.defineLabel at h
  split at h
  · cases h
  · assumption

theorem markLabel_dynamic {l : Label} {u : Unit} (h : markLabel l c w = .ok (u, w')) : c.site.backend = .dynamic := by
  obtain ⟨_, h, -⟩ := map_eq_ok.mp h
  unfold Draft.mark at h
  split at h
  · cases h
  · assumption

theorem defineLabel_ok {l : Label} (h : defineLabel c w = .ok (l, w')) :
    l = { method := c.site.method, id := w.draft.marks.size } ∧
      w' = { w with draft := { w.draft with marks := w.draft.marks.push none } } := by
  have hc := defineLabel_dynamic h
  obtain ⟨⟨l', d⟩, h, he⟩ := map_eq_ok.mp h
  simp only [Draft.defineLabel, hc] at h
  obtain ⟨_, -, h⟩ := bind_eq_ok.mp h
  cases h
  cases he
  exact ⟨rfl, rfl⟩

theorem markLabel_ok {l : Label} {u : Unit} (h : markLabel l c w = .ok (u, w')) :
    w.draft.marks[l.id]? = some none ∧
      w' = { w with draft := { w.draft with marks := w.draft.marks.setIfInBounds l.id (some w.draft.code.size) } } := by
  have hc := markLabel_dynamic h
  obtain ⟨d, hd, he⟩ := map_eq_ok.mp h
  cases he
  unfold Draft.mark at hd
  rw [hc] at hd
  dsimp only at hd
  split at hd
  · split at hd
    · rename_i hm
      cases hd
      exact ⟨hm, rfl⟩
    · cases hd
  · cases hd

theorem expect_ok {dst src : Option Ty} {what : Text} {u : Unit} (h : expect dst src what c w = .ok (u, w')) :
    Ty.isVoidOpt src = false ∧ Ty.accepts dst src = true ∧ w = w' := by
  unfold expect at h
  split at h
  · cases h
  · rename_i hv
    split at h
    · rename_i ha
      exact ⟨by simpa using hv, ha, (pure_ok.mp h).2⟩
    · cases h

end Lower

/-! ### Sound work -/

/-- What lowering an expression leaves as it was: labels, names, and the code and locals there were. -/
structure Work.Kept (w w' : Work) : Prop where
  marks : w'.draft.marks = w.draft.marks
  names : w'.locals = w.locals
  locals : ∀ {n : Nat} {t : Ty}, w.draft.locals[n]? = some t → w'.draft.locals[n]? = some t
  code : w.draft.code.toList <+: w'.draft.code.toList

theorem Work.Kept.refl (w : Work) : w.Kept w := ⟨rfl, rfl, fun h => h, List.prefix_refl _⟩

theorem Work.Kept.trans {a b c : Work} (h : a.Kept b) (h' : b.Kept c) : a.Kept c :=
  ⟨h'.marks.trans h.marks, h'.names.trans h.names, fun hn => h'.locals (h.locals hn), h.code.trans h'.code⟩

/-- Lowering has gone on: code, marked labels and names that were there are there still. -/
structure Work.Grows (w w' : Work) : Prop where
  code : w.draft.code.toList <+: w'.draft.code.toList
  marks : ∀ {id p : Nat}, w.draft.marks[id]? = some (some p) → w'.draft.marks[id]? = some (some p)
  names : w.locals <:+ w'.locals

theorem Work.Grows.refl (w : Work) : w.Grows w := ⟨List.prefix_refl _, fun h => h, List.suffix_refl _⟩

theorem Work.Grows.trans {a b c : Work} (h : a.Grows b) (h' : b.Grows c) : a.Grows c :=
  ⟨h.code.trans h'.code, fun hm => h'.marks (h.marks hm), h.names.trans h'.names⟩

theorem Work.Kept.grows {w w' : Work} (h : w.Kept w') : w.Grows w' :=
  ⟨h.code, fun hm => by rw [h.marks]; exact hm, h.names ▸ List.suffix_refl _⟩

namespace Lower
variable {c : Scope} {w w' : Work}

theorem emit_kept {e : Emission} {u : Unit} (h : emit e c w = .ok (u, w')) : w.Kept w' := by
  obtain ⟨i, _, _, -, rfl⟩ := emit_eq h
  exact ⟨rfl, rfl, fun hn => hn, by simp [Draft.push]⟩

theorem declareLocal_grows {name : Text} {t : Ty} {l : LocalSlot}
    (h : declareLocal name t c w = .ok (l, w')) : w.Grows w' := by
  obtain ⟨-, rfl⟩ := declareLocal_ok h
  refine ⟨List.prefix_refl _, fun hm => hm, ?_⟩
  dsimp only
  split
  · exact List.suffix_refl _
  · exact List.suffix_cons _ _

theorem defineLabel_grows {l : Label} (h : defineLabel c w = .ok (l, w')) : w.Grows w' := by
  obtain ⟨-, rfl⟩ := defineLabel_ok h
  refine ⟨List.prefix_refl _, fun {id p} hm => ?_, List.suffix_refl _⟩
  have hlt := (Array.getElem?_eq_some_iff.mp hm).1
  show (w.draft.marks.push none)[id]? = some (some p)
  rw [Array.getElem?_push, if_neg (by omega)]
  exact hm

theorem markLabel_grows {l : Label} {u : Unit} (h : markLabel l c w = .ok (u, w')) : w.Grows w' := by
  obtain ⟨hfree, rfl⟩ := markLabel_ok h
  refine ⟨List.prefix_refl _, fun {id p} hm => ?_, List.suffix_refl _⟩
  show (w.draft.marks.setIfInBounds l.id _)[id]? = some (some p)
  rw [Array.getElem?_setIfInBounds, if_neg fun he => by rw [he, hm] at hfree; cases hfree]
  exact hm

end Lower

namespace Setting

/-- A location may have the type: it is admitted and not void. -/
structure Holds (Γ : Setting) (t : Ty) : Prop where
  admits : Γ.Admits t
  notVoid : t.isVoid = false

/-- The symbols of the setting, possibly with admitted array types added. -/
structure Reads (Γ : Setting) (s : Symbols) : Prop where
  grown : Γ.symbols.Extends s
  admits : s.All Γ.Admits

/-- Whatever a name stands for is admitted. -/
def Named (Γ : Setting) (n : Text) : Prop := Γ.symbols.Names Γ.Admits n

/-- What lowering relies on. Types are admitted wherever they can come from: roles, elements of arrays,
    parameters, fields and signatures. -/
structure Ok (Γ : Setting) : Prop where
  int32 : Γ.scope.roles.int32.name = TypeName.int32
  boolean : Γ.scope.roles.boolean.name = TypeName.boolean
  string : Γ.scope.roles.string.name = TypeName.string
  roles : Γ.Admits Γ.scope.roles.int32 ∧ Γ.Admits Γ.scope.roles.boolean ∧ Γ.Admits Γ.scope.roles.string
  element : ∀ {e : Ty}, Γ.Admits (.array e) → Γ.Admits e
  owner : Γ.Holds Γ.scope.owner
  ownerObject : Γ.scope.owner.isValue = false
  ret : Γ.Admits Γ.scope.ret
  ctor : Γ.scope.site.method.isCtor = true → Γ.scope.isStatic = false
  arg : ∀ {n : Text} {i : Nat} {t : Ty}, (n, i, t) ∈ Γ.scope.params → Γ.scope.args[i]? = some t ∧ Γ.Holds t
  field : ∀ {c : Ty} {f : Field}, f ∈ Γ.symbols.fieldsOf c → ∃ t, f.type = some t ∧ Γ.Holds t
  ret? : ∀ {c : Ty} {m : Method}, m ∈ Γ.symbols.allMethods c → ∃ t, m.ret = some t ∧ Γ.Admits t
  params : ∀ {c : Ty} {m : Method}, m ∈ Γ.symbols.allMethods c ∨ m ∈ Γ.symbols.ctorsOf c ∨ m ∈ Γ.scope.ctorsOf c →
    ∀ p ∈ m.params, ∃ t, p = some t ∧ Γ.Holds t
  constructed : ∀ {t : Ty} {c : Method}, c ∈ Γ.symbols.ctorsOf t → t.isVoid = false
  delegate : ∀ {t : Ty} {d : Delegate}, Γ.symbols.delegate? (some t) = some d →
    t.isVoid = false ∧ d.ctor.params.length = 2
  concat : ∀ {m : Method}, m ∈ Γ.symbols.allMethods Γ.scope.roles.string → m.name = "Concat" →
    m.ret = some Γ.scope.roles.string

/-- The work done so far is a typed body with `S` on its stack; a listing has counted at least as many values. -/
structure Sound (Γ : Setting) (w : Work) (S : List Slot) : Prop where
  reads : Γ.Reads w.symbols
  names : ∀ {n : Text} {l : LocalSlot}, (n, l) ∈ w.locals → w.draft.locals[l.index]? = some l.type
  locals : ∀ {n : Nat} {t : Ty}, w.draft.locals[n]? = some t → Γ.Holds t
  typed : Γ.Typed w.draft S
  built : Γ.scope.site.backend = .dynamic → w.draft.Built Γ.scope.site.method
  counted : Γ.scope.site.backend = .textual → S.length ≤ w.draft.depth

variable {Γ : Setting} {w w' : Work} {S S' : List Slot}

theorem Sound.emit (h : Γ.Sound w S) {e : Emission} {u : Unit} (he : Lower.emit e Γ.scope w = .ok (u, w'))
    (ht : ∀ {i : Instr}, e.encode Γ.scope.site = .ok i → Γ.Types w.draft.locals w.draft.marks.size e.long S S') :
    w.Kept w' ∧ Γ.Sound w' S' := by
  refine ⟨Lower.emit_kept he, ?_⟩
  obtain ⟨i, n, k, hi, hw⟩ := Lower.emit_eq he
  have typed : Γ.Typed (w.draft.push i) S' := h.typed.push (by rw [Emission.encode_long hi]; exact ht hi)
  refine ⟨by rw [hw]; exact h.reads, fun hl => ?_, fun hl => ?_, ?_, fun hdyn => ?_, fun htext => ?_⟩
  · rw [hw] at hl ⊢
    exact h.names hl
  · rw [hw] at hl
    exact h.locals hl
  · rw [hw]
    exact typed.mono rfl (fun hn => hn) (Nat.le_refl _) fun hm => .inl hm
  · obtain ⟨j, hj, rfl⟩ := (Lower.emit_ok hdyn).mp he
    have hd : (w.draft.emit Γ.scope.site e).2 = w.draft.push j := by simp [Draft.emit, hj, Draft.record, hdyn]
    rw [← hd]
    exact .emit e (h.built hdyn) hdyn rfl
  · rw [Lower.emit_counts htext hi he, Instr.depthAfter, ← i.effect_expanded, ← Instr.depthAfter]
    rw [← Emission.encode_long hi] at ht
    exact (ht hi).counted _ (h.counted htext)

/-- A local that is added is a place of its type, and what was on the stack stays there. -/
theorem Sound.declareLocal (h : Γ.Sound w S) {name : Text} {t : Ty} {l : LocalSlot} (ht : Γ.Holds t)
    (hd : Lower.declareLocal name t Γ.scope w = .ok (l, w')) :
    w'.draft.locals[l.index]? = some t ∧ l.type = t ∧ Γ.Sound w' S ∧ w'.draft.marks = w.draft.marks ∧
      w'.draft.code = w.draft.code ∧
      (∀ {n : Nat} {u : Ty}, w.draft.locals[n]? = some u → w'.draft.locals[n]? = some u) ∧
      w'.locals = if name.isEmpty then w.locals else (name, l) :: w.locals := by
  obtain ⟨⟨_, _⟩, hb, he⟩ := map_eq_ok.mp hd
  have built := fun hdyn => (h.built hdyn).declareLocal hdyn rfl hb
  cases he
  obtain ⟨rfl, hw⟩ := Lower.declareLocal_ok hd
  cases hw
  have kept : ∀ {n : Nat} {u : Ty}, w.draft.locals[n]? = some u → (w.draft.locals.push t)[n]? = some u := by
    intro n u hn
    have hlt := (Array.getElem?_eq_some_iff.mp hn).1
    rw [Array.getElem?_push, if_neg (by omega)]
    exact hn
  have last : (w.draft.locals.push t)[w.draft.locals.size]? = some t := by simp
  refine ⟨last, rfl, ⟨h.reads, fun {n l'} hl => ?_, fun {n u} hu => ?_, h.typed.declareLocal t, built, h.counted⟩,
      rfl, rfl, kept, rfl⟩
  · dsimp only at hl
    split at hl
    · exact kept (h.names hl)
    · rcases List.mem_cons.mp hl with he | hl
      · cases he
        exact last
      · exact kept (h.names hl)
  · have hu : (w.draft.locals.push t)[n]? = some u := hu
    rw [Array.getElem?_push] at hu
    split at hu
    · cases hu
      exact ht
    · exact h.locals hu

/-- A name that is looked up stands for an admitted type. -/
theorem Sound.lookupType (h : Γ.Sound w S) {name : Text} {t : Ty} (hn : Γ.Named name)
    (hl : Lower.lookupType name Γ.scope w = .ok (t, w')) : Γ.Admits t ∧ w.Kept w' ∧ Γ.Sound w' S := by
  obtain ⟨s, hs, rfl⟩ := Lower.lookupType_ok.mp hl
  obtain ⟨ht, ha⟩ := hn _ _ _ h.reads.grown.grown h.reads.admits hs
  exact ⟨ht, ⟨rfl, rfl, fun hn => hn, List.prefix_refl _⟩, ⟨h.reads.grown.trans (Symbols.lookup_extends hs), ha⟩,
      h.names, h.locals, h.typed, h.built, h.counted⟩

theorem Sound.loadThis (h : Γ.Sound w S) (hi : Γ.scope.isStatic = false) {u : Unit}
    (he : Lower.emitThis Γ.scope w = .ok (u, w')) : w.Kept w' ∧ Γ.Sound w' (.value (some Γ.scope.owner) :: S) := by
  refine h.emit he fun _ => ?_
  exact .arg (Nat.zero_le _) (by simp [Scope.args, hi])

/-- The value on top is put into a temporary, whose address takes its place. -/
theorem Sound.spillAddress {t : Ty} (ht : Γ.Holds t) (hv : t.isValue = true)
    (h : Γ.Sound w (.value (some t) :: S)) {u : Unit} (hs : Lower.spillAddress t Γ.scope w = .ok (u, w')) :
    w.Kept w' ∧ Γ.Sound w' (.address t :: S) := by
  obtain ⟨l, w₁, hl, hs⟩ := Lower.bind_ok.mp hs
  obtain ⟨_, w₂, h2, h3⟩ := Lower.bind_ok.mp hs
  obtain ⟨hidx, -, h1, hm, hcode, hk, hnames⟩ := h.declareLocal ht hl
  have k1 : w.Kept w₁ := ⟨hm, hnames, hk, hcode ▸ List.prefix_refl _⟩
  obtain ⟨k2, h2⟩ := h1.emit h2 fun hi => .setLoc (Emission.local_le hi) hidx (by simp [Ty.accepts, Ty.same])
  obtain ⟨k3, h3⟩ := h2.emit h3 fun hi => .locAddress (Emission.local_le hi) (k2.locals hidx) hv
  exact ⟨(k1.trans k2).trans k3, h3⟩

end Setting
end CilCompiler
