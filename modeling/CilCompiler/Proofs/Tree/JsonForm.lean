import CilCompiler.Proofs.Json
import CilCompiler.Tree.JsonForm
import Mathlib.Data.List.Forall2

/-!
The JSON form of a program holds its interchange form. `Holds` says that a value can be written and is read as something;
the members of a record are put into it one after another (`Puts`), and a member that is left out leaves what the
record has at first.
-/

namespace CilCompiler.Wire

open Json (IsPlain ArePlain MembersPlain)

/-- The value can be written and is read as `x`. -/
def Holds {α : Type} (read : Json → Option α) (v : Json) (x : α) : Prop := v.IsPlain ∧ read v = some x

theorem holds_text (old : Text) {t : Text} (h : t.isValid = true) : Holds (readText old) (.string t) t := ⟨h, rfl⟩

theorem holds_bool (old b : Bool) : Holds (readBool old) (.bool b) b := ⟨trivial, rfl⟩

/-! ### Numbers -/

theorem digitsValue_concat (ds : List UInt8) (d : UInt8) :
    Json.digitsValue (ds ++ [d]) = Json.digitsValue ds * 10 + (d.toNat - 48) := by
  simp [Json.digitsValue, List.foldl_append]

theorem utf8EncodeChar_digitChar {k : Nat} (hk : k < 10) :
    ∃ b : UInt8, String.utf8EncodeChar (Nat.digitChar k) = [b] ∧ (48 ≤ b ∧ b ≤ 57) ∧ b.toNat - 48 = k := by
  have : ∀ k < 10, String.utf8EncodeChar (Nat.digitChar k) = [UInt8.ofNat (k + 48)] ∧
      (48 ≤ UInt8.ofNat (k + 48) ∧ UInt8.ofNat (k + 48) ≤ 57) ∧ (UInt8.ofNat (k + 48)).toNat - 48 = k := by decide
  exact ⟨_, this k hk⟩

/-- The digits of a number spell it. -/
theorem ofNat_digits (n : Nat) : (Text.ofNat n).bytes.all (fun b => 48 ≤ b && b ≤ 57) = true ∧
    Json.digitsValue (Text.ofNat n).bytes = n := by
  induction n using Nat.strongRecOn with
  | ind n ih =>
    by_cases hn : n < 10
    · obtain ⟨b, he, hb, hv⟩ := utf8EncodeChar_digitChar hn
      simp [Text.ofNat, Text.ofChars, Nat.toDigits_of_lt_base hn, he, hb, Json.digitsValue, hv]
    · obtain ⟨b, he, hb, hv⟩ := utf8EncodeChar_digitChar (Nat.mod_lt n (by decide : 10 > 0))
      obtain ⟨hall, hval⟩ := ih (n / 10) (by omega)
      have hsplit : (Text.ofNat n).bytes = (Text.ofNat (n / 10)).bytes ++ [b] := by
        simp [Text.ofNat, Text.ofChars, Nat.toDigits_of_base_le (b := 10) (by decide) (Nat.le_of_not_lt hn), he]
      rw [hsplit, digitsValue_concat, hval, hv, List.all_append, hall]
      exact ⟨by simp [hb], by omega⟩

theorem nat?_ofNat (n : Nat) : (Json.ofInt (n : Int)).nat? = some n := by
  have hn : ¬(n : Int) < 0 := by omega
  simp [Json.ofInt, Json.nat?, Text.ofInt, hn, ofNat_digits n]

theorem int?_ofInt (i : Int) : (Json.ofInt i).int? = some i := by
  obtain ⟨hall, hval⟩ := ofNat_digits i.natAbs
  by_cases hi : i < 0
  · have hb : (Text.ofInt i).bytes = 45 :: (Text.ofNat i.natAbs).bytes := by
      rw [Text.ofInt, if_pos hi]
      rfl
    simp only [Json.ofInt, Json.int?, hb, hall, if_true, hval, Option.some.injEq]
    omega
  · have hb : (Text.ofInt i).bytes = (Text.ofNat i.natAbs).bytes := by rw [Text.ofInt, if_neg hi]
    simp only [Json.ofInt, Json.int?, hb]
    split
    · rename_i ds hds
      simp [hds] at hall
    · simp only [hall, if_true, hval, Option.some.injEq]
      omega

theorem holds_int (old i : Int32) : Holds (readInt32 old) (Json.ofInt i.toInt) i := by
  refine ⟨⟨_, rfl⟩, ?_⟩
  have hr : readInt32 old (Json.ofInt i.toInt) = (Json.ofInt i.toInt).int?.bind fun i =>
    if -2147483648 ≤ i ∧ i ≤ 2147483647 then some (Int32.ofInt i) else none := rfl
  have hi : -2147483648 ≤ i.toInt ∧ i.toInt ≤ 2147483647 := by
    have := Int32.le_toInt i
    have := Int32.toInt_lt i
    omega
  rw [hr, int?_ofInt, Option.bind_some, if_pos hi, Int32.ofInt_toInt]

theorem holds_nat16 (old : Nat) {n : Nat} (h : n < 65536) : Holds (readNat16 old) (Json.ofInt n) n := by
  refine ⟨⟨_, rfl⟩, ?_⟩
  have hr : readNat16 old (Json.ofInt n) = (Json.ofInt n).nat?.bind fun n => if n < 65536 then some n else none := rfl
  rw [hr, nat?_ofNat, Option.bind_some, if_pos h]

/-! ### Lists -/

section Lists
variable {α : Type} {zero : α} {read : α → Json → Option α}

theorem arePlain_of_holds {vs : List Json} {xs : List α} (h : List.Forall₂ (Holds (read zero)) vs xs) : ArePlain vs := by
  induction h with
  | nil => trivial
  | cons hx _ ih => exact ⟨hx.1, ih⟩

theorem readOver_of_holds {vs : List Json} {xs : List α} (h : List.Forall₂ (Holds (read zero)) vs xs) :
    Slots.readOver zero read [] vs = some xs := by
  induction h with
  | nil => rfl
  | cons hx _ ih => simp [Slots.readOver, hx.2, ih]

/-- A list that is read for the first time. -/
theorem holds_list {vs : List Json} {xs : List α} (h : List.Forall₂ (Holds (read zero)) vs xs) :
    Holds (readList zero read {}) (.array vs) (.ofList xs) := by
  refine ⟨arePlain_of_holds h, ?_⟩
  cases h with
  | nil => rfl
  | cons hx hxs =>
    simp only [readList, Slots.readItems]
    rw [show ({} : Slots α).all = [] from rfl, readOver_of_holds (.cons hx hxs)]
    simp [Slots.refill, Slots.ofList, Slots.all]

end Lists

/-! ### Records -/

/-- What becomes of a record when the values of some members are put into it. -/
def Puts {α : Type} (set : α → Text → Json → Option α) (r : α) (ms : List (Text × Json)) (r' : α) : Prop :=
  MembersPlain ms ∧ ms.foldlM (fun r (k, v) => set r k.folded v) r = some r'

/-- A key in plain small letters. -/
def IsKey (k : Text) : Prop := k.isValid = true ∧ k.folded = k

instance (k : Text) : Decidable (IsKey k) := inferInstanceAs (Decidable (_ ∧ _))

theorem membersPlain_append {ms ms' : List (Text × Json)} (h : MembersPlain ms) (h' : MembersPlain ms') :
    MembersPlain (ms ++ ms') := by
  induction ms with
  | nil => exact h'
  | cons m ms ih => exact ⟨h.1, h.2.1, ih h.2.2⟩

namespace Puts
variable {α : Type} {set : α → Text → Json → Option α} {r r' r'' : α} {ms more : List (Text × Json)}

theorem nil : Puts set r [] r := ⟨trivial, rfl⟩

theorem append (h : Puts set r ms r') (h' : Puts set r' more r'') : Puts set r (ms ++ more) r'' := by
  refine ⟨membersPlain_append h.1 h'.1, ?_⟩
  rw [List.foldlM_append, h.2]
  exact h'.2

/-- A member with the value of one key. -/
theorem member {β : Type} {k : Text} {v : Json} {x : β} {read : Json → Option β} {f : β → α} (hx : Holds read v x)
    (hset : ∀ v, set r k v = (read v).map f) (hk : IsKey k) : Puts set r [(k, v)] (f x) := by
  refine ⟨⟨hk.1, hx.1, trivial⟩, ?_⟩
  simp [hk.2, hset v, hx.2]

theorem cons {m : Text × Json} (h : Puts set r [m] r') (h' : Puts set r' more r'') : Puts set r (m :: more) r'' :=
  h.append h'

/-! An empty value is left out, and the record has it from the beginning. -/

section Optional
variable {k : String} (hk : IsKey (k : Text))
include hk

theorem text {t : Text} {f : Text → α} (ht : t.isValid = true) (hset : ∀ v, set r k v = (readText .empty v).map f)
    (hr : f .empty = r) : Puts set r (textMember k t) (f t) := by
  unfold textMember
  split
  · rename_i h
    obtain rfl : t = .empty := congrArg Text.mk (List.isEmpty_iff.mp h)
    rw [hr]
    exact .nil
  · exact .member (holds_text _ ht) hset hk

theorem bool {b : Bool} {f : Bool → α} (hset : ∀ v, set r k v = (readBool false v).map f) (hr : f false = r) :
    Puts set r (boolMember k b) (f b) := by
  cases b with
  | false =>
    rw [hr]
    exact .nil
  | true => exact .member (holds_bool _ true) hset hk

theorem int {i : Int32} {f : Int32 → α} (hset : ∀ v, set r k v = (readInt32 0 v).map f) (hr : f 0 = r) :
    Puts set r (intMember k i) (f i) := by
  unfold intMember
  split
  · subst i
    rw [hr]
    exact .nil
  · exact .member (holds_int _ i) hset hk

theorem list {β : Type} {vs : List Json} {xs : List β} {read : Json → Option (Slots β)} {f : Slots β → α}
    (hx : Holds read (.array vs) (.ofList xs)) (hn : vs.length = xs.length) (hset : ∀ v, set r k v = (read v).map f)
    (hr : f {} = r) : Puts set r (listMember k vs) (f (.ofList xs)) := by
  unfold listMember
  split
  · rename_i h
    rw [List.isEmpty_iff] at h
    subst h
    rw [List.length_eq_zero_iff.mp hn.symm, ← hr]
    exact .nil
  · exact .member hx hset hk

end Optional

end Puts

/-- A record of members that are put into it. -/
theorem holds_record {α : Type} {set : α → Text → Json → Option α} {r r' : α} {ms : List (Text × Json)}
    (h : Puts set r ms r') :
    Holds (readRecord set r) (.object ms) r' := h

/-! ### Nodes -/

/-- How the value of a key is put into a node. -/
def setNode (n : Node) (k : Text) (v : Json) : Option Node :=
  n.put k { text := fun old => readText old v, bool := fun old => readBool old v, int := fun old => readInt32 old v,
            node := fun old => readNode old v, nodes := fun old => readNodes old v }

theorem readKeys_eq (n : Node) (ms : List (Text × Json)) :
    readKeys n ms = ms.foldlM (fun n (k, v) => setNode n k.folded v) n := by
  induction ms generalizing n with
  | nil => simp [readKeys]
  | cons m ms ih =>
    obtain ⟨k, v⟩ := m
    have hk : readKeys n ((k, v) :: ms) = (setNode n k.folded v).bind fun n => readKeys n ms := by
      rw [readKeys, setNode]
      cases Node.put n k.folded _ <;> rfl
    rw [hk, List.foldlM_cons]
    simp only [ih, Option.bind_eq_bind]

theorem readNodeItems_eq (old : List Node) (vs : List Json) :
    readNodeItems old vs = Slots.readOver .absent readNode old vs := by
  induction vs generalizing old with
  | nil => simp [readNodeItems, Slots.readOver]
  | cons v vs ih =>
    simp only [readNodeItems, Slots.readOver, ih]
    cases readNode (old.headD .absent) v with
    | none => rfl
    | some n => cases Slots.readOver .absent readNode old.tail vs <;> rfl

theorem readNodes_eq (old : Slots Node) (v : Json) : readNodes old v = readList .absent readNode old v := by
  cases v with
  | array vs =>
    cases vs with
    | nil => simp [readNodes, readList]
    | cons v vs =>
      simp only [readNodes, readList, Slots.readItems, Slots.readOver, readNodeItems_eq]
      cases readNode (old.all.headD .absent) v with
      | none => rfl
      | some n => cases Slots.readOver .absent readNode old.all.tail vs <;> rfl
  | _ => simp [readNodes, readList]

/-- The texts of the plain keys are valid. -/
def Keys.IsClean (k : Keys) : Prop :=
  k.name.isValid = true ∧ k.type.isValid = true ∧ k.str.isValid = true ∧ k.op.isValid = true

mutual

/-- The texts of a node are valid, and its lists hide nothing. -/
def Node.IsClean : Node → Prop
  | .absent => True
  | .node kind keys target left right ⟨args, args'⟩ ⟨body, body'⟩ ⟨alternative, alternative'⟩ =>
    kind.isValid = true ∧ keys.IsClean ∧ target.IsClean ∧ left.IsClean ∧ right.IsClean ∧ (Node.AreClean args ∧ args' = []) ∧
      (Node.AreClean body ∧ body' = []) ∧ (Node.AreClean alternative ∧ alternative' = [])

def Node.AreClean : List Node → Prop
  | [] => True
  | n :: ns => n.IsClean ∧ Node.AreClean ns

end

theorem childMember_eq {k : String} {n : Node} (h : n ≠ .absent) : childMember k n = [((k : Text), nodeJson n)] := by
  cases n with
  | absent => exact absurd rfl h
  | node kind keys target left right args body alternative => simp [childMember, nodeJson]

theorem Puts.child {α : Type} {set : α → Text → Json → Option α} {r : α} {k : String} (hk : IsKey (k : Text)) {n : Node}
    {f : Node → α} (hn : Holds (readNode .absent) (nodeJson n) n) (hset : ∀ v, set r k v = (readNode .absent v).map f)
    (hr : f .absent = r) : Puts set r (childMember k n) (f n) := by
  by_cases h : n = .absent
  · subst h
    rw [hr]
    simp only [childMember]
    exact .nil
  · rw [childMember_eq h]
    exact .member hn hset hk

section Node
variable {kind : Text} {keys : Keys} {target left right : Node} {args body alternative : Slots Node}

/-- The plain keys are put into a node that has none. -/
theorem puts_keys (h : keys.IsClean) :
    Puts setNode (.node kind {} target left right args body alternative) (keyMembers keys)
    (.node kind keys target left right args body alternative) := by
  obtain ⟨name, type, int, str, bool, op⟩ := keys
  obtain ⟨hn, ht, hs, ho⟩ := h
  have named : Puts setNode _ (textMember "n" name) _ :=
    .text (by decide) (f := fun x => .node kind { name := x } target left right args body alternative) hn (fun _ => rfl) rfl
  have typed : Puts setNode _ (textMember "t" type) _ :=
    .text (by decide) (f := fun x => .node kind { name, type := x } target left right args body alternative) ht
      (fun _ => rfl) rfl
  have counted : Puts setNode _ (intMember "i" int) _ :=
    .int (by decide) (f := fun x => .node kind { name, type, int := x } target left right args body alternative)
      (fun _ => rfl) rfl
  have spelled : Puts setNode _ (textMember "s" str) _ :=
    .text (by decide) (f := fun x => .node kind { name, type, int, str := x } target left right args body alternative) hs
      (fun _ => rfl) rfl
  have marked : Puts setNode _ (boolMember "b" bool) _ :=
    .bool (by decide) (f := fun x => .node kind { name, type, int, str, bool := x } target left right args body alternative)
      (fun _ => rfl) rfl
  have operated : Puts setNode _ (textMember "o" op) _ :=
    .text (by decide)
      (f := fun x => .node kind { name, type, int, str, bool, op := x } target left right args body alternative)
      ho (fun _ => rfl) rfl
  exact ((((named.append typed).append counted).append spelled).append marked).append operated

end Node

theorem holds_nodeList {ns : List Node} (h : List.Forall₂ (Holds (readNode .absent)) (nodesJson ns) ns) :
    Holds (readNodes {}) (.array (nodesJson ns)) (.ofList ns) := by
  rw [show readNodes {} = readList .absent readNode {} from funext (readNodes_eq {})]
  exact holds_list h

mutual

/-- The JSON form of a node is read as the node. -/
theorem holds_node : (n : Node) → n.IsClean → Holds (readNode .absent) (nodeJson n) n
  | .absent, _ => ⟨by simp [nodeJson, IsPlain], by simp [nodeJson, readNode]⟩
  | .node kind keys target left right ⟨args, args'⟩ ⟨body, body'⟩ ⟨alternative, alternative'⟩, h => by
    obtain ⟨hkind, hkeys, ht, hl, hr, ⟨ha, rfl⟩, ⟨hb, rfl⟩, ⟨he, rfl⟩⟩ := h
    have kinded : Puts setNode Node.blank [("k", .string kind)] _ :=
      .member (f := fun x => .node x {} .absent .absent .absent {} {} {}) (holds_text .empty hkind)
        (fun _ => rfl) (by decide)
    have targeted : Puts setNode _ (childMember "x" target) _ :=
      .child (by decide) (f := fun x => .node kind keys x .absent .absent {} {} {}) (holds_node target ht)
        (fun _ => rfl) rfl
    have lefted : Puts setNode _ (childMember "l" left) _ :=
      .child (by decide) (f := fun x => .node kind keys target x .absent {} {} {}) (holds_node left hl) (fun _ => rfl) rfl
    have righted : Puts setNode _ (childMember "r" right) _ :=
      .child (by decide) (f := fun x => .node kind keys target left x {} {} {}) (holds_node right hr) (fun _ => rfl) rfl
    have given : Puts setNode _ (listMember "a" (nodesJson args)) _ :=
      .list (by decide) (f := fun x => .node kind keys target left right x {} {})
        (holds_nodeList (holds_nodes args ha)) (holds_nodes args ha).length_eq (fun _ => rfl) rfl
    have bodied : Puts setNode _ (listMember "body" (nodesJson body)) _ :=
      .list (by decide) (f := fun x => .node kind keys target left right (.ofList args) x {})
        (holds_nodeList (holds_nodes body hb)) (holds_nodes body hb).length_eq (fun _ => rfl) rfl
    have ended : Puts setNode _ (listMember "else" (nodesJson alternative)) _ :=
      .list (by decide) (f := fun x => .node kind keys target left right (.ofList args) (.ofList body) x)
        (holds_nodeList (holds_nodes alternative he)) (holds_nodes alternative he).length_eq (fun _ => rfl) rfl
    have filled := kinded.cons ((((((puts_keys hkeys).append targeted).append lefted).append righted).append given).append
      bodied |>.append ended)
    refine ⟨by rw [nodeJson]; exact filled.1, ?_⟩
    simp only [nodeJson, readNode, Node.opened]
    rw [readKeys_eq]
    exact filled.2

theorem holds_nodes : (ns : List Node) → Node.AreClean ns → List.Forall₂ (Holds (readNode .absent)) (nodesJson ns) ns
  | [], _ => by simp [nodesJson]
  | n :: ns, h => by
    simp only [nodesJson]
    exact .cons (holds_node n h.1) (holds_nodes ns h.2)

end

end CilCompiler.Wire
