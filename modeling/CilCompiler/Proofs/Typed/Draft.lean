import CilCompiler.Lowering.Stmt
import CilCompiler.Machine.Effect
import CilCompiler.Proofs.Depths
import CilCompiler.Proofs.Symbols

/-! Typed code, and bodies in the making. A slot says what kind of value is on the stack at a place: a value or null,
    the address of a place, a boxed value, or a method that a delegate is to be made of. `Setting.Types` says which
    slots an instruction, in its long form, takes and leaves. Types count by name, as they do in a program. A
    certificate gives the slots on the stack in front of every instruction and behind the last one. Every instruction
    turns the slots in front of it into those behind it, also one that control cannot reach, and labels are marked
    only where the stack is empty. What is recorded keeps the certificate. -/

namespace CilCompiler

/-- What is known of a value on the stack. -/
inductive Slot where
  /-- A value of a type, or null. -/
  | value (t : Option Ty)
  /-- The address of a value of a value type. -/
  | address (t : Ty)
  /-- An object that holds a value of a value type. -/
  | boxed (t : Ty)
  /-- A static method. -/
  | static (m : Method)
  /-- A method of the object below. -/
  | bound (m : Method)
deriving DecidableEq

/-- The slot an expression leaves. -/
def Pushed.slot (p : Pushed) : Slot :=
  match p.type with
  | some t => if p.isAddress then .address t else .value (some t)
  | none => .value none

/-- The slots of arguments, the last one on top. -/
def Slot.arguments (types : List (Option Ty)) : List Slot := (types.map Slot.value).reverse

/-- What a call leaves. -/
def Method.result (m : Method) : List Slot := if m.returnsVoid then [] else [.value m.ret]

/-- The types of arguments of a body, the receiver first. -/
def Scope.args (c : Scope) : List Ty := (if c.isStatic then [] else [c.owner]) ++ c.params.map fun p => p.2.2

/-- Whether a type holds numbers. -/
def Ty.IsNumber (t : Ty) : Prop := t.name = TypeName.int32 ∨ t.name = TypeName.boolean

/-- What the code of a body may refer to. -/
structure Setting where
  scope : Scope
  /-- The members that types have. -/
  symbols : Symbols
  /-- The types that values have. -/
  Admits : Ty → Prop

namespace Setting

/-- A method can be called on values of a type: the type or one of its bases has it. -/
def MethodOn (Γ : Setting) (t : Ty) (m : Method) : Prop :=
  Γ.Admits t ∧ ∃ c ∈ Ty.lineage Γ.scope.roles.object t, m ∈ Γ.symbols.allMethods c

/-- Values of a type have a field: the type or one of its bases declares it. -/
def FieldOn (Γ : Setting) (t : Ty) (f : Field) : Prop :=
  Γ.Admits t ∧ ∃ c ∈ Ty.lineage Γ.scope.roles.object t, f ∈ Γ.symbols.fieldsOf c

/-- A receiver as an instruction calls on it: an object, or the address of a value. -/
inductive Receiver (t : Ty) : Opcode → Slot → Prop
  | object : t.isValue = false → Receiver t .callvirt (.value (some t))
  | place : t.isValue = true → Receiver t .call (.address t)

/-- An object that a method is taken from. -/
inductive Target (t : Ty) : Slot → Prop
  | object : t.isValue = false → Target t (.value (some t))
  | boxed : t.isValue = true → Target t (.boxed t)

/-- An instruction in its long form takes `pre` off the stack and leaves `post`. The numbers of arguments and
    locals fit an instruction; `labels` is the number of labels there are. -/
inductive Types (Γ : Setting) (locals : Array Ty) (labels : Nat) : Instr → List Slot → List Slot → Prop
  | null {S} : Types Γ locals labels { op := .ldnull } S (.value none :: S)
  | int {v t S} : t = Γ.scope.roles.int32 ∨ t = Γ.scope.roles.boolean →
      Types Γ locals labels { op := .ldc, operand := .int v } S (.value (some t) :: S)
  | str {s S} : Types Γ locals labels { op := .ldstr, operand := .str s } S (.value (some Γ.scope.roles.string) :: S)
  | arg {n t S} : n ≤ 65534 → Γ.scope.args[n]? = some t →
      Types Γ locals labels { op := .ldarg, operand := .int (Int32.ofNat n) } S (.value (some t) :: S)
  | argAddress {n t S} : n ≤ 65534 → Γ.scope.args[n]? = some t → t.isValue = true →
      Types Γ locals labels { op := .ldarga, operand := .int (Int32.ofNat n) } S (.address t :: S)
  | setArg {n t u S} : n ≤ 65534 → Γ.scope.args[n]? = some t → Ty.accepts (some t) u = true →
      Types Γ locals labels { op := .starg, operand := .int (Int32.ofNat n) } (.value u :: S) S
  | loc {n t S} : n ≤ 65534 → locals[n]? = some t →
      Types Γ locals labels { op := .ldloc, operand := .int (Int32.ofNat n) } S (.value (some t) :: S)
  | locAddress {n t S} : n ≤ 65534 → locals[n]? = some t → t.isValue = true →
      Types Γ locals labels { op := .ldloca, operand := .int (Int32.ofNat n) } S (.address t :: S)
  | setLoc {n t u S} : n ≤ 65534 → locals[n]? = some t → Ty.accepts (some t) u = true →
      Types Γ locals labels { op := .stloc, operand := .int (Int32.ofNat n) } (.value u :: S) S
  | dup {t s S} : Target t s → Types Γ locals labels { op := .dup } (s :: S) (s :: s :: S)
  | arithmetic {op a b S} : op ∈ [Opcode.add, .sub, .mul, .div, .rem, .and, .or] → a.IsNumber → b.IsNumber →
      Types Γ locals labels { op } (.value (some b) :: .value (some a) :: S) (.value (some a) :: S)
  | order {op a b S} : op ∈ [Opcode.cgt, .clt] → a.IsNumber → b.IsNumber →
      Types Γ locals labels { op } (.value (some b) :: .value (some a) :: S) (.value (some Γ.scope.roles.boolean) :: S)
  | equal {a b t S} : t.name = TypeName.boolean →
      Types Γ locals labels { op := .ceq } (.value b :: .value a :: S) (.value (some t) :: S)
  | unary {op a S} : op ∈ [Opcode.neg, .not] → a.IsNumber →
      Types Γ locals labels { op } (.value (some a) :: S) (.value (some a) :: S)
  | callStatic {t m types S} : m.isStatic = true → Γ.MethodOn t m → Ty.fits m.params types = true →
      Types Γ locals labels { op := .call, operand := .method m } (Slot.arguments types ++ S) (m.result ++ S)
  | callInstance {t op s m types S} : m.isStatic = false → Γ.MethodOn t m → Ty.fits m.params types = true →
      Receiver t op s → Types Γ locals labels { op, operand := .method m } (Slot.arguments types ++ s :: S) (m.result ++ S)
  | callBase {c S} : Γ.scope.isStatic = false → c ∈ Γ.symbols.ctorsOf Γ.scope.roles.object → c.params = [] →
      Types Γ locals labels { op := .call, operand := .ctor c } (.value (some Γ.scope.owner) :: S) S
  | construct {t c types S} : Γ.Admits t → t.isValue = false → Γ.symbols.delegate? (some t) = none →
      c ∈ Γ.symbols.ctorsOf t → Ty.fits c.params types = true →
      Types Γ locals labels { op := .newobj, operand := .ctor c } (Slot.arguments types ++ S) (.value (some t) :: S)
  | staticPointer {t m S} : m.isStatic = true → Γ.MethodOn t m →
      Types Γ locals labels { op := .ldftn, operand := .method m } S (.static m :: S)
  | boundPointer {t s m S} : m.isStatic = false → Γ.MethodOn t m → Target t s →
      Types Γ locals labels { op := .ldvirtftn, operand := .method m } (s :: s :: S) (.bound m :: s :: S)
  | delegate {t d m p s S} : Γ.Admits t → Γ.symbols.delegate? (some t) = some d → d.ctor.params.length = 2 →
      Ty.sameList m.params d.params = true →
      Ty.same m.ret d.ret = true → p = .static m ∧ s = .value none ∨ p = .bound m →
      Types Γ locals labels { op := .newobj, operand := .ctor d.ctor } (p :: s :: S) (.value (some t) :: S)
  | field {f t s S} : f.isStatic = false → Γ.FieldOn t f → s = .value (some t) ∨ s = .address t →
      Types Γ locals labels { op := .ldfld, operand := .field f } (s :: S) (.value f.type :: S)
  | fieldAddress {f t u s S} : f.isStatic = false → Γ.FieldOn t f → s = .value (some t) ∨ s = .address t →
      f.type = some u → u.isValue = true →
      Types Γ locals labels { op := .ldflda, operand := .field f } (s :: S) (.address u :: S)
  | setField {f t u S} : f.isStatic = false → Γ.FieldOn t f → Ty.accepts f.type u = true →
      Types Γ locals labels { op := .stfld, operand := .field f } (.value u :: .value (some t) :: S) S
  | staticField {f t S} : f.isStatic = true → Γ.FieldOn t f →
      Types Γ locals labels { op := .ldsfld, operand := .field f } S (.value f.type :: S)
  | staticFieldAddress {f t u S} : f.isStatic = true → Γ.FieldOn t f → f.type = some u → u.isValue = true →
      Types Γ locals labels { op := .ldsflda, operand := .field f } S (.address u :: S)
  | setStaticField {f t u S} : f.isStatic = true → Γ.FieldOn t f → Ty.accepts f.type u = true →
      Types Γ locals labels { op := .stsfld, operand := .field f } (.value u :: S) S
  | array {e n S} : Γ.Admits (.array e) → n.name = TypeName.int32 →
      Types Γ locals labels { op := .newarr, operand := .type e } (.value (some n) :: S) (.value (some (.array e)) :: S)
  | length {e S} :
      Types Γ locals labels { op := .ldlen } (.value (some (.array e)) :: S) (.value (some Γ.scope.roles.int32) :: S)
  | element {e n S} : e.isVoid = false → Γ.Admits (.array e) → n.name = TypeName.int32 →
      Types Γ locals labels { op := .ldelem, operand := .type e }
        (.value (some n) :: .value (some (.array e)) :: S) (.value (some e) :: S)
  /-- An element that counts as nothing stays on a stack that is empty otherwise. -/
  | voidElement {e n} : e.isVoid = true → Γ.Admits (.array e) → n.name = TypeName.int32 →
      Types Γ locals labels { op := .ldelem, operand := .type e } [.value (some n), .value (some (.array e))] []
  | elementAddress {e n S} : e.isVoid = false → Γ.Admits (.array e) → e.isValue = true → n.name = TypeName.int32 →
      Types Γ locals labels { op := .ldelema, operand := .type e }
        (.value (some n) :: .value (some (.array e)) :: S) (.address e :: S)
  | setElement {e n u S} : Γ.Admits (.array e) → n.name = TypeName.int32 → Ty.accepts (some e) u = true →
      Types Γ locals labels { op := .stelem, operand := .type e }
        (.value u :: .value (some n) :: .value (some (.array e)) :: S) S
  | box {t S} : Γ.Admits t → t.isValue = true →
      Types Γ locals labels { op := .box, operand := .type t } (.value (some t) :: S) (.boxed t :: S)
  | leave : Γ.scope.ret.isVoid = true → Types Γ locals labels { op := .ret } [] []
  | return {u} : Γ.scope.ret.isVoid = false → Ty.accepts (some Γ.scope.ret) u = true →
      Types Γ locals labels { op := .ret } [.value u] []
  | jump {id} : id < labels → Types Γ locals labels { op := .br, operand := .label id } [] []
  | test {op id t} : op ∈ [Opcode.brtrue, .brfalse] → id < labels → t.name = TypeName.boolean →
      Types Γ locals labels { op, operand := .label id } [.value (some t)] []

/-- Locals and labels are added at the end, so what was typed stays so. -/
theorem Types.mono {Γ : Setting} {locals locals' : Array Ty} {labels labels' : Nat} {i : Instr} {S S' : List Slot}
    (hl : ∀ {n : Nat} {t : Ty}, locals[n]? = some t → locals'[n]? = some t) (hn : labels ≤ labels')
    (h : Γ.Types locals labels i S S') : Γ.Types locals' labels' i S S' := by
  cases h with
  | loc h1 h2 => exact .loc h1 (hl h2)
  | locAddress h1 h2 h3 => exact .locAddress h1 (hl h2) h3
  | setLoc h1 h2 h3 => exact .setLoc h1 (hl h2) h3
  | jump h1 => exact .jump (Nat.lt_of_lt_of_le h1 hn)
  | test h1 h2 h3 => exact .test h1 (Nat.lt_of_lt_of_le h2 hn) h3
  | _ => constructor <;> assumption

end Setting

/-! ### Bodies in the making -/

theorem Instr.effect_expanded (ret : Option Ty) (i : Instr) : i.expanded.effect ret = i.effect ret := by
  obtain ⟨op, x⟩ := i
  cases op <;> rfl

namespace Setting

/-- The slots in front of each instruction, and behind the last one. -/
structure Certified (Γ : Setting) (d : Draft) (layout : List (List Slot)) : Prop where
  length : layout.length = d.code.size + 1
  start : layout[0]? = some []
  step : ∀ {pc : Nat} {i : Instr} {S S' : List Slot}, d.code[pc]? = some i → layout[pc]? = some S →
    layout[pc + 1]? = some S' → Γ.Types d.locals d.marks.size i.expanded S S'
  marks : ∀ {id p : Nat}, d.marks[id]? = some (some p) → layout[p]? = some []

/-- The body is typed, and `S` is on the stack behind it. -/
def Typed (Γ : Setting) (d : Draft) (S : List Slot) : Prop :=
  ∃ layout, Γ.Certified d layout ∧ layout[d.code.size]? = some S

variable {Γ : Setting} {d : Draft} {S S' : List Slot} {locals : Array Ty} {labels : Nat} {i : Instr}

theorem typed_new : Γ.Typed {} [] :=
  ⟨[[]], ⟨rfl, rfl, fun hi => by simp at hi, fun hm => by simp at hm⟩, rfl⟩

/-- A label is marked no further than the end. -/
theorem Typed.mark_le (h : Γ.Typed d S) {id p : Nat} (hm : d.marks[id]? = some (some p)) : p ≤ d.code.size := by
  obtain ⟨layout, hc, -⟩ := h
  have := (List.getElem?_eq_some_iff.mp (hc.marks hm)).1
  have := hc.length
  omega

theorem Typed.push (h : Γ.Typed d S) {i : Instr} (hi : Γ.Types d.locals d.marks.size i.expanded S S') :
    Γ.Typed (d.push i) S' := by
  obtain ⟨layout, hc, hS⟩ := h
  have hlen := hc.length
  -- Positions up to the old end keep their slots; the one added stands at the new end.
  have old : ∀ {p : Nat} {T : List Slot}, layout[p]? = some T → (layout ++ [S'])[p]? = some T := by
    intro p T hp
    rw [List.getElem?_append_left (List.getElem?_eq_some_iff.mp hp).1]
    exact hp
  have last : (layout ++ [S'])[d.code.size + 1]? = some S' := by
    rw [← hlen, List.getElem?_append_right (Nat.le_refl _), Nat.sub_self]
    rfl
  refine ⟨layout ++ [S'], ⟨?_, old hc.start, fun {pc j T T'} hj hT hT' => ?_, fun hm => old (hc.marks hm)⟩, ?_⟩
  · simp only [List.length_append, hlen, List.length_singleton, Draft.push, Array.size_push]
  · simp only [Draft.push, Array.getElem?_push] at hj
    split at hj
    · rename_i hpc
      cases hj
      rw [hpc, last] at hT'
      rw [hpc, old hS] at hT
      cases hT
      cases hT'
      exact hi
    · have hlt := (Array.getElem?_eq_some_iff.mp hj).1
      rw [List.getElem?_append_left (by omega)] at hT hT'
      exact hc.step hj hT hT'
  · simpa only [Draft.push, Array.size_push] using last

/-- What is added behind the locals and labels changes no type. -/
theorem Typed.mono (h : Γ.Typed d S) {d' : Draft} (hcode : d'.code = d.code)
    (hl : ∀ {n : Nat} {t : Ty}, d.locals[n]? = some t → d'.locals[n]? = some t) (hn : d.marks.size ≤ d'.marks.size)
    (hm : ∀ {id p : Nat}, d'.marks[id]? = some (some p) → d.marks[id]? = some (some p) ∨ p = d.code.size ∧ S = []) :
    Γ.Typed d' S := by
  obtain ⟨layout, hc, hS⟩ := h
  refine ⟨layout, ⟨by rw [hcode]; exact hc.length, hc.start, fun hi hT hT' => ?_, fun {id p} hp => ?_⟩,
      by rw [hcode]; exact hS⟩
  · rw [hcode] at hi
    exact (hc.step hi hT hT').mono hl hn
  · rcases hm hp with hp | ⟨rfl, rfl⟩
    · exact hc.marks hp
    · exact hS

theorem Typed.declareLocal (h : Γ.Typed d S) (t : Ty) : Γ.Typed { d with locals := d.locals.push t } S :=
  h.mono rfl (fun {n u} hn => by
    have hlt := (Array.getElem?_eq_some_iff.mp hn).1
    show (d.locals.push t)[n]? = some u
    rw [Array.getElem?_push, if_neg (by omega)]
    exact hn) (Nat.le_refl _) fun hm => .inl hm

theorem Typed.defineLabel (h : Γ.Typed d S) : Γ.Typed { d with marks := d.marks.push none } S :=
  h.mono rfl (fun hn => hn) (by simp) fun {id p} hm => by
    rw [Array.getElem?_push] at hm
    split at hm
    · cases hm
    · exact .inl hm

theorem Typed.mark (h : Γ.Typed d []) (id : Nat) :
    Γ.Typed { d with marks := d.marks.setIfInBounds id (some d.code.size) } [] :=
  h.mono rfl (fun hn => hn) (by simp) fun {id' p} hm => by
    rw [Array.getElem?_setIfInBounds] at hm
    split at hm
    · split at hm
      · cases hm
        exact .inr ⟨rfl, rfl⟩
      · cases hm
    · exact .inl hm

/-! ### Counting -/

theorem result_length (m : Method) : m.result.length = if m.returnsVoid then 0 else 1 := by
  unfold Method.result
  split <;> rfl

/-- An instruction finds the values it takes, and leaves a slot for each value it leaves. The exception is an element
    that counts as nothing, in code that takes all there is: it is a value all the same. -/
theorem Types.shifts (h : Γ.Types locals labels i S S') :
    (i.effect (some Γ.scope.ret)).1 ≤ S.length ∧
      (S'.length = i.depthAfter (some Γ.scope.ret) S.length ∨
        S' = [] ∧ S.length = (i.effect (some Γ.scope.ret)).1 ∧ ∃ e : Ty, e.isVoid = true ∧ Γ.Admits (.array e)) := by
  have arguments : ∀ {ps types : List (Option Ty)}, Ty.fits ps types = true →
      (Slot.arguments types).length = ps.length := by
    intro ps types hf
    rw [Ty.fits_length hf]
    simp [Slot.arguments]
  have leaves : ∀ {op : Opcode} {m : Method}, op = .call ∨ op = .callvirt →
      Instr.effect (some Γ.scope.ret) { op, operand := .method m } = (m.argCount, m.result.length) := by
    rintro op m (rfl | rfl) <;> simp only [Instr.effect, stackEffect, result_length]
  cases h with
  | @callStatic t m types S hst hon hf =>
    rw [Instr.depthAfter, leaves (.inl rfl), Method.argCount, if_pos hst]
    simp only [List.length_append, arguments hf]
    exact ⟨by omega, .inl (by omega)⟩
  | @callInstance t op s m types S hst hon hf hr =>
    have hop : op = .call ∨ op = .callvirt := by
      cases hr with
      | object _ => exact .inr rfl
      | place _ => exact .inl rfl
    rw [Instr.depthAfter, leaves hop, Method.argCount, if_neg (by rw [hst]; exact Bool.false_ne_true)]
    simp only [List.length_append, List.length_cons, arguments hf]
    exact ⟨by omega, .inl (by omega)⟩
  | @callBase c S hi hc hp =>
    simp [Instr.depthAfter, Instr.effect, stackEffect, hp]
  | @construct t c types S ht hval hd hc hf =>
    rw [Instr.depthAfter, show Instr.effect (some Γ.scope.ret) { op := .newobj, operand := .ctor c } =
        (c.params.length, 1) from rfl]
    simp only [List.length_append, List.length_cons, arguments hf]
    exact ⟨by omega, .inl (by omega)⟩
  | @delegate t d m p s S ht hd htwo hp hr hps =>
    simp [Instr.depthAfter, Instr.effect, stackEffect, htwo]
  | @arithmetic op a b S hop ha hb =>
    simp only [List.mem_cons, List.not_mem_nil, or_false] at hop
    rcases hop with rfl | rfl | rfl | rfl | rfl | rfl | rfl <;>
        simp [Instr.depthAfter, Instr.effect, stackEffect, Opcode.row]
  | @order op a b S hop ha hb =>
    simp only [List.mem_cons, List.not_mem_nil, or_false] at hop
    rcases hop with rfl | rfl <;> simp [Instr.depthAfter, Instr.effect, stackEffect, Opcode.row]
  | @unary op a S hop ha =>
    simp only [List.mem_cons, List.not_mem_nil, or_false] at hop
    rcases hop with rfl | rfl <;> simp [Instr.depthAfter, Instr.effect, stackEffect, Opcode.row]
  | @test op id t hop hid ht =>
    simp only [List.mem_cons, List.not_mem_nil, or_false] at hop
    rcases hop with rfl | rfl <;> simp [Instr.depthAfter, Instr.effect, stackEffect, Opcode.row]
  | leave hr => simp [Instr.depthAfter, Instr.effect, stackEffect, hr]
  | «return» hr ha => simp [Instr.depthAfter, Instr.effect, stackEffect, hr]
  | voidElement he ha hn => exact ⟨Nat.le_refl _, .inr ⟨rfl, rfl, _, he, ha⟩⟩
  | _ => simp [Instr.depthAfter, Instr.effect, stackEffect, Opcode.row]

theorem Types.of_ret (h : Γ.Types locals labels i S S') (hop : i.op = .ret) : S' = [] := by
  cases h with
  | arithmetic hm _ _ | order hm _ _ | unary hm _ | test hm _ _ =>
    cases (show _ = Opcode.ret from hop)
    simp at hm
  | callInstance _ _ _ hr => cases hr <;> cases hop
  | leave _ | «return» _ _ => rfl
  | _ => cases hop

/-- No more slots are left than values, whatever the method is said to return. -/
theorem Types.counted (h : Γ.Types locals labels i S S') (ret : Option Ty) {depth : Nat} (hd : S.length ≤ depth) :
    S'.length ≤ i.depthAfter ret depth := by
  by_cases hop : i.op = .ret
  · rw [h.of_ret hop]
    exact Nat.zero_le _
  · have heffect : i.effect ret = i.effect (some Γ.scope.ret) := by
      unfold Instr.effect
      split
      · contradiction
      · rfl
    obtain ⟨hpops, hafter | ⟨rfl, -⟩⟩ := h.shifts
    · rw [Instr.depthAfter] at hafter ⊢
      rw [heffect]
      omega
    · exact Nat.zero_le _

end Setting
end CilCompiler
