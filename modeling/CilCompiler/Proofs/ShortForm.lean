import CilCompiler.Proofs.Emission

/-!
Short forms are undone when they are run. An instruction is run as its long form, so what a constant, a local or an argument
is written as shows only in the code: the constant is pushed, and of the slots of a frame exactly the one of the number is
used (`short_forms_undone`). Which form is taken is fixed by the number: none of the operand for the smallest, a byte where
there is a form with one.
-/

namespace CilCompiler

/-- What an instruction does with a slot of its frame. -/
inductive SlotUse where
  | load
  | store
  | address
deriving DecidableEq

/-- Uses the slot in a cell: pushes what it holds, stores the value on the stack in it, or pushes its address. -/
def SlotUse.run (u : SlotUse) (f : Frame) (w : World) (cell : Nat) : Effect × World :=
  match u with
  | .load => (.next (f.push (w.heap.load (.cell cell))), w)
  | .store => f.storeTo w (.cell cell)
  | .address => (.next (f.push (.addr (.cell cell))), w)

namespace Opcode

/-- What the opcode does with a local, of those that are given the number of one. -/
def localUse? : Opcode → Option SlotUse
  | .ldloc => some .load
  | .stloc => some .store
  | .ldloca => some .address
  | _ => none

/-- What the opcode does with an argument, of those that are given the number of one. -/
def argUse? : Opcode → Option SlotUse
  | .ldarg => some .load
  | .starg => some .store
  | .ldarga => some .address
  | _ => none

/-- Whether the opcode has its operand in a byte. -/
def isByteForm : Opcode → Bool
  | .ldcS | .ldargS | .ldargaS | .stargS => true
  | _ => false

end Opcode

namespace ShortForm

/-! ### Constants -/

theorem ofInt_exec (m : Machine) (w : World) (f : Frame) (v : Int32) :
    f.exec m w (ofInt v) = (.next (f.push (.int v)), w) := by
  rw [Frame.exec, ofInt_expanded]
  rfl

theorem small_cases {v : Int32} (h : -1 ≤ v ∧ v ≤ 8) :
    v = -1 ∨ v = 0 ∨ v = 1 ∨ v = 2 ∨ v = 3 ∨ v = 4 ∨ v = 5 ∨ v = 6 ∨ v = 7 ∨ v = 8 := by
  have hlow : -1 ≤ v.toInt := Int32.le_iff_toInt_le.mp h.1
  have hhigh : v.toInt ≤ 8 := Int32.le_iff_toInt_le.mp h.2
  rw [← Int32.ofInt_toInt v]
  generalize v.toInt = n at hlow hhigh
  obtain rfl | rfl | rfl | rfl | rfl | rfl | rfl | rfl | rfl | rfl :
      n = -1 ∨ n = 0 ∨ n = 1 ∨ n = 2 ∨ n = 3 ∨ n = 4 ∨ n = 5 ∨ n = 6 ∨ n = 7 ∨ n = 8 := by omega
  all_goals decide

/-- A constant is written without an operand, with a byte, or in full. -/
theorem ofInt_cases (v : Int32) :
    ((-1 ≤ v ∧ v ≤ 8) ∧ (ofInt v).operand = .none ∧ (ofInt v).op.isByteForm = false) ∨
      (¬(-1 ≤ v ∧ v ≤ 8) ∧ (-128 ≤ v ∧ v ≤ 127) ∧ ofInt v = { op := .ldcS, operand := .int v }) ∨
      (¬(-1 ≤ v ∧ v ≤ 8) ∧ ¬(-128 ≤ v ∧ v ≤ 127) ∧ ofInt v = { op := .ldc, operand := .int v }) := by
  by_cases hsmall : -1 ≤ v ∧ v ≤ 8
  · refine .inl ⟨hsmall, ?_⟩
    obtain rfl | rfl | rfl | rfl | rfl | rfl | rfl | rfl | rfl | rfl := small_cases hsmall <;> exact ⟨rfl, rfl⟩
  · right
    have hne {c : Int32} (hc : -1 ≤ c ∧ c ≤ 8) : v ≠ c := fun h => hsmall (h ▸ hc)
    unfold ofInt
    -- None of the ten constants that have a form of their own.
    iterate 10 rw [if_neg (hne (by decide))]
    split
    · exact .inl ⟨hsmall, ‹_›, rfl⟩
    · exact .inr ⟨hsmall, ‹_›, rfl⟩

/-! ### Slots -/

theorem ofLocal_isOk {op : Opcode} {index : Int} :
    (∃ i, ofLocal op index = .ok i) ↔ (0 ≤ index ∧ index ≤ 65534) ∧ (op = .ldloc ∨ op = .stloc ∨ op = .ldloca) := by
  unfold ofLocal maxIndex
  constructor
  · rintro ⟨i, h⟩
    split at h
    · cases h
    · refine ⟨by omega, ?_⟩
      dsimp only at h
      split at h
      · exact .inl rfl
      · exact .inr (.inl rfl)
      · exact .inr (.inr rfl)
      · cases h
  · rintro ⟨hrange, hop⟩
    rw [if_neg (by omega)]
    rcases hop with rfl | rfl | rfl <;> exact ⟨_, rfl⟩

theorem ofArg_isOk {op : Opcode} {index : Int} :
    (∃ i, ofArg op index = .ok i) ↔ (0 ≤ index ∧ index ≤ 65534) ∧ (op = .ldarg ∨ op = .starg ∨ op = .ldarga) := by
  unfold ofArg maxIndex
  constructor
  · rintro ⟨i, h⟩
    split at h
    · cases h
    · refine ⟨by omega, ?_⟩
      dsimp only at h
      split at h
      · exact .inl rfl
      · exact .inr (.inl rfl)
      · exact .inr (.inr rfl)
      · cases h
  · rintro ⟨hrange, hop⟩
    rw [if_neg (by omega)]
    rcases hop with rfl | rfl | rfl <;> exact ⟨_, rfl⟩

/-- A local is written without an operand or with its number. -/
theorem ofLocal_cases {op : Opcode} {index : Int} {i : Instr} (h : ofLocal op index = .ok i) :
    (i.operand = .none ↔ (op = .ldloc ∨ op = .stloc) ∧ index ≤ 3) ∧ i.op.isByteForm = false := by
  obtain ⟨hrange, hop⟩ := ofLocal_isOk.mp ⟨i, h⟩
  unfold ofLocal maxIndex at h
  rw [if_neg (by omega)] at h
  rcases hop with rfl | rfl | rfl
  case' inl => have hshort : Opcode.ldloc = .ldloc ∨ Opcode.ldloc = .stloc := .inl rfl
  case' inr.inl => have hshort : Opcode.stloc = .ldloc ∨ Opcode.stloc = .stloc := .inr rfl
  case inl | inr.inl =>
    dsimp only at h
    injection h with h
    subst h
    -- One form without operand for each of four numbers.
    iterate 4
      split
      · exact ⟨iff_of_true rfl ⟨hshort, by omega⟩, rfl⟩
    exact ⟨iff_of_false nofun (by omega), rfl⟩
  case inr.inr =>
    cases h
    exact ⟨iff_of_false nofun (by simp), rfl⟩

/-- An argument is written without an operand, with its number in a byte, or with its number in full. -/
theorem ofArg_cases {op : Opcode} {index : Int} {i : Instr} (h : ofArg op index = .ok i) :
    (i.operand = .none ↔ op = .ldarg ∧ index ≤ 3) ∧ (i.op.isByteForm ↔ ¬(op = .ldarg ∧ index ≤ 3) ∧ index ≤ 255) := by
  obtain ⟨hrange, hop⟩ := ofArg_isOk.mp ⟨i, h⟩
  unfold ofArg maxIndex at h
  rw [if_neg (by omega)] at h
  dsimp only at h
  rcases hop with rfl | rfl | rfl
  case inl =>
    injection h with h
    subst h
    iterate 4
      split
      · exact ⟨iff_of_true rfl ⟨rfl, by omega⟩, iff_of_false nofun fun hbyte => hbyte.1 ⟨rfl, by omega⟩⟩
    have hlarge : ¬(Opcode.ldarg = .ldarg ∧ index ≤ 3) := fun hshort => by omega
    refine ⟨iff_of_false nofun hlarge, ?_⟩
    by_cases hbyte : index ≤ 255
    · rw [decide_eq_true hbyte]
      exact iff_of_true rfl ⟨hlarge, hbyte⟩
    · rw [decide_eq_false hbyte]
      exact iff_of_false nofun fun h => hbyte h.2
  case inr.inl | inr.inr =>
    cases h
    refine ⟨iff_of_false nofun nofun, ?_⟩
    by_cases hbyte : index ≤ 255
    · rw [decide_eq_true hbyte]
      exact iff_of_true rfl ⟨nofun, hbyte⟩
    · rw [decide_eq_false hbyte]
      exact iff_of_false nofun fun h => hbyte h.2

theorem slot_number {count : Nat} {first : Nat} {index : Int} (h : 0 ≤ index ∧ index ≤ 65534) (hlt : index < count) :
    (if 0 ≤ (Int32.ofNat index.toNat).toInt ∧ (Int32.ofNat index.toNat).toInt < count
      then some (first + (Int32.ofNat index.toNat).toInt.toNat) else none) = some (first + index.toNat) := by
  have hn : (Int32.ofNat index.toNat).toInt = index.toNat := Int32.toInt_ofNat_of_lt (by omega)
  rw [hn, if_pos (by omega), Int.toNat_natCast]

/-- Running what a local is written as uses its slot. -/
theorem ofLocal_exec {op : Opcode} {index : Int} {i : Instr} (h : ofLocal op index = .ok i) (m : Machine)
    (w : World) {f : Frame}
    (hslot : index < f.body.locals.size) :
    ∃ u, op.localUse? = some u ∧ f.exec m w i = u.run f w (f.locals + index.toNat) := by
  obtain ⟨hrange, hop⟩ := ofLocal_isOk.mp ⟨i, h⟩
  have hindex : index = index.toNat := (Int.toNat_of_nonneg hrange.1).symm
  have hcell : f.local? (Int32.ofNat index.toNat) = some (f.locals + index.toNat) := slot_number hrange hslot
  rw [hindex] at h
  rw [Frame.exec, (ofLocal_expanded h).1]
  rcases hop with rfl | rfl | rfl
  · exact ⟨.load, rfl, by simp only [Frame.execLong, Operand.number, hcell]; rfl⟩
  · exact ⟨.store, rfl, by simp only [Frame.execLong, Operand.number, hcell]; rfl⟩
  · exact ⟨.address, rfl, by simp only [Frame.execLong, Operand.number, hcell]; rfl⟩

/-- Running what an argument is written as uses its slot. -/
theorem ofArg_exec {op : Opcode} {index : Int} {i : Instr} (h : ofArg op index = .ok i) (m : Machine)
    (w : World) {f : Frame}
    (hslot : index < f.argCount) :
    ∃ u, op.argUse? = some u ∧ f.exec m w i = u.run f w (f.args + index.toNat) := by
  obtain ⟨hrange, hop⟩ := ofArg_isOk.mp ⟨i, h⟩
  have hindex : index = index.toNat := (Int.toNat_of_nonneg hrange.1).symm
  have hcell : f.arg? (Int32.ofNat index.toNat) = some (f.args + index.toNat) := slot_number hrange hslot
  rw [hindex] at h
  rw [Frame.exec, (ofArg_expanded h).1]
  rcases hop with rfl | rfl | rfl
  · exact ⟨.load, rfl, by simp only [Frame.execLong, Operand.number, hcell]; rfl⟩
  · exact ⟨.store, rfl, by simp only [Frame.execLong, Operand.number, hcell]; rfl⟩
  · exact ⟨.address, rfl, by simp only [Frame.execLong, Operand.number, hcell]; rfl⟩

/-! ### All forms -/

/-- Running what is written undoes the writing: a constant of any size is pushed, and of a frame's slots exactly the one of
    the number is loaded, stored or addressed. There is a form for the numbers up to 65534, without an operand for the
    smallest and with a byte for what is left of those that fit. -/
theorem short_forms_undone :
    (∀ v : Int32,
      (∀ m w f, Frame.exec m w f (ofInt v) = (.next (f.push (.int v)), w)) ∧
        ((ofInt v).operand = .none ↔ -1 ≤ v ∧ v ≤ 8) ∧
        ((ofInt v).op.isByteForm ↔ ¬(-1 ≤ v ∧ v ≤ 8) ∧ -128 ≤ v ∧ v ≤ 127)) ∧
      (∀ (op : Opcode) (index : Int),
        ((∃ i, ofLocal op index = .ok i) ↔ (0 ≤ index ∧ index ≤ 65534) ∧ (op = .ldloc ∨ op = .stloc ∨ op = .ldloca)) ∧
          ∀ i, ofLocal op index = .ok i →
            (∀ m w (f : Frame), index < f.body.locals.size →
              ∃ u, op.localUse? = some u ∧ f.exec m w i = u.run f w (f.locals + index.toNat)) ∧
            (i.operand = .none ↔ (op = .ldloc ∨ op = .stloc) ∧ index ≤ 3) ∧ i.op.isByteForm = false) ∧
      ∀ (op : Opcode) (index : Int),
        ((∃ i, ofArg op index = .ok i) ↔ (0 ≤ index ∧ index ≤ 65534) ∧ (op = .ldarg ∨ op = .starg ∨ op = .ldarga)) ∧
          ∀ i, ofArg op index = .ok i →
            (∀ m w (f : Frame), index < f.argCount →
              ∃ u, op.argUse? = some u ∧ f.exec m w i = u.run f w (f.args + index.toNat)) ∧
            (i.operand = .none ↔ op = .ldarg ∧ index ≤ 3) ∧
            (i.op.isByteForm ↔ ¬(op = .ldarg ∧ index ≤ 3) ∧ index ≤ 255) := by
  refine ⟨fun v => ⟨fun m w f => ofInt_exec m w f v, ?_⟩, fun op index => ⟨ofLocal_isOk, fun i h => ?_⟩,
    fun op index => ⟨ofArg_isOk, fun i h => ?_⟩⟩
  · rcases ofInt_cases v with ⟨hsmall, hoperand, hbyte⟩ | ⟨hlarge, hrange, hform⟩ | ⟨hlarge, hrange, hform⟩
    · simp [hsmall, hoperand, hbyte]
    · simp [hlarge, hrange, hform, Opcode.isByteForm]
    · simp [hlarge, hrange, hform, Opcode.isByteForm]
  · exact ⟨fun m w f => ofLocal_exec h m w, ofLocal_cases h⟩
  · exact ⟨fun m w f => ofArg_exec h m w, ofArg_cases h⟩

end ShortForm
end CilCompiler
