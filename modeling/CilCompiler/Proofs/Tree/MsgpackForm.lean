import CilCompiler.Proofs.Msgpack
import CilCompiler.Tree.MsgpackForm
import Mathlib.Data.List.Forall2

/-!
The binary form of a program holds its interchange form. `Carries` says that bytes are read as something; records carry
what is carried by their entries, which fill the record one after another (`Fills`), and a key that is left out leaves
what the record has at first.
-/

namespace CilCompiler.Wire

open Msgpack (Spells)

/-- The bytes spell a value that is read as `x`. -/
def Carries {α : Type} (read : Msgpack.Value → Option α) (bs : List UInt8) (x : α) : Prop :=
  ∃ v, Spells bs v ∧ read v = some x

/-- What fits into the binary form: lengths have 32 bits. -/
def limit : Nat := 2 ^ 32

theorem carries_text {t : Text} (h : t.size < limit) : Carries unpackText (Msgpack.writeStr t) t :=
  ⟨.str t, Msgpack.spells_str h, rfl⟩

theorem carries_bool (b : Bool) : Carries unpackBool (Msgpack.writeBool b) b := ⟨.bool b, Msgpack.spells_bool b, rfl⟩

theorem carries_int (i : Int32) : Carries unpackInt32 (Msgpack.writeInt32 i) i :=
  ⟨.int i.toInt, Msgpack.spells_int32 i, by simp [unpackInt32]⟩

theorem carries_nat16 {n : Nat} (h : n < 65536) : Carries unpackNat16 (Msgpack.writeNat16 n) n := by
  refine ⟨.int n, Msgpack.spells_nat16 h, ?_⟩
  simp only [unpackNat16]
  congr 1
  omega

/-! ### Lists -/

section Lists
variable {α : Type} {zero : α} {read : α → Msgpack.Value → Option α}

theorem readOver_nil {items : List (List UInt8)} {xs : List α} (h : List.Forall₂ (Carries (read zero)) items xs) :
    ∃ vs, List.Forall₂ Spells items vs ∧ Slots.readOver zero read [] vs = some xs := by
  induction h with
  | nil => exact ⟨[], .nil, rfl⟩
  | cons hx _ ih =>
    obtain ⟨v, hv, hx⟩ := hx
    obtain ⟨vs, hvs, hxs⟩ := ih
    exact ⟨v :: vs, .cons hv hvs, by simp [Slots.readOver, hx, hxs]⟩

/-- A list that is read for the first time. -/
theorem carries_list {items : List (List UInt8)} {xs : List α} (h : List.Forall₂ (Carries (read zero)) items xs)
    (hn : xs.length < limit) : Carries (unpackList zero read {}) (packList items) (.ofList xs) := by
  obtain ⟨vs, hvs, hxs⟩ := readOver_nil h
  refine ⟨.array vs, Msgpack.spells_array hvs (by rwa [h.length_eq]), ?_⟩
  simp only [unpackList, Slots.readItems]
  rw [show ({} : Slots α).all = [] from rfl, hxs]
  simp [Slots.refill, Slots.ofList, Slots.all]

end Lists

/-! ### Records -/

/-- What becomes of a record when the values of some entries, `n` at most, are put into it. -/
def Fills {α : Type} (set : α → Text → Msgpack.Value → Option α) (n : Nat) (r : α) (entries : List Entry) (r' : α) : Prop :=
  entries.length ≤ n ∧
    ∃ es, List.Forall₂ (fun e v => Spells (Msgpack.writeStr e.1) v.1 ∧ Spells e.2 v.2) entries es ∧
      unpackEntries set r es = some r'

section Records
variable {α : Type} {set : α → Text → Msgpack.Value → Option α} {n m : Nat} {r r' r'' : α} {entries more : List Entry}

theorem unpackEntries_append {es es' : List (Msgpack.Value × Msgpack.Value)} (h : unpackEntries set r es = some r') :
    unpackEntries set r (es ++ es') = unpackEntries set r' es' := by
  induction es generalizing r with
  | nil => cases h; rfl
  | cons e es ih =>
    obtain ⟨k, v⟩ := e
    simp only [unpackEntries, Option.bind_eq_bind, Option.bind_eq_some_iff] at h
    obtain ⟨k', hk, s, hs, h⟩ := h
    simp only [List.cons_append, unpackEntries, hk, hs, Option.bind_eq_bind, Option.bind_some]
    exact ih h

namespace Fills

theorem nil : Fills set n r [] r := ⟨Nat.zero_le n, [], .nil, rfl⟩

theorem append (h : Fills set n r entries r') (h' : Fills set m r' more r'') :
    Fills set (n + m) r (entries ++ more) r'' := by
  obtain ⟨hn, es, hes, h⟩ := h
  obtain ⟨hm, es', hes', h'⟩ := h'
  refine ⟨?_, es ++ es', List.rel_append hes hes', by rw [unpackEntries_append h, h']⟩
  rw [List.length_append]
  exact Nat.add_le_add hn hm

/-- An entry with the value of one key. -/
theorem entry {β : Type} {k : Text} {bs : List UInt8} {x : β} {read : Msgpack.Value → Option β} {f : β → α}
    (hx : Carries read bs x) (hset : ∀ v, set r k v = (read v).map f) (hk : k.size < limit) :
      Fills set 1 r [(k, bs)] (f x) := by
  obtain ⟨v, hv, hx⟩ := hx
  refine ⟨Nat.le_refl 1, [(.str k, v)], .cons ⟨Msgpack.spells_str hk, hv⟩ .nil, ?_⟩
  simp [unpackEntries, unpackText, hset v, hx]

theorem cons {e : Entry} (h : Fills set n r [e] r') (h' : Fills set m r' more r'') : Fills set (n + m) r (e :: more) r'' :=
  h.append h'

/-! An empty value is left out, and the record has it from the beginning. -/

section Optional
variable {k : String} (hk : (k : Text).size < limit)
include hk

theorem text {t : Text} {f : Text → α} (ht : t.size < limit) (hset : ∀ v, set r k v = (unpackText v).map f)
    (hr : f .empty = r) : Fills set 1 r (textEntry k t) (f t) := by
  unfold textEntry
  split
  · obtain rfl : t = .empty := by
      cases t
      simp_all [Text.isEmpty, Text.empty]
    rw [hr]
    exact .nil
  · exact .entry (carries_text ht) hset hk

theorem bool {b : Bool} {f : Bool → α} (hset : ∀ v, set r k v = (unpackBool v).map f) (hr : f false = r) :
    Fills set 1 r (boolEntry k b) (f b) := by
  cases b with
  | false =>
    rw [hr]
    exact .nil
  | true => exact .entry (carries_bool true) hset hk

theorem int {i : Int32} {f : Int32 → α} (hset : ∀ v, set r k v = (unpackInt32 v).map f) (hr : f 0 = r) :
    Fills set 1 r (intEntry k i) (f i) := by
  unfold intEntry
  split
  · subst i
    rw [hr]
    exact .nil
  · exact .entry (carries_int i) hset hk

theorem list {β : Type} {items : List (List UInt8)} {xs : List β}
    {read : Msgpack.Value → Option (Slots β)} {f : Slots β → α}
    (hx : Carries read (packList items) (.ofList xs)) (hi : items.length = xs.length)
    (hset : ∀ v, set r k v = (read v).map f) (hr : f {} = r) : Fills set 1 r (listEntry k items) (f (.ofList xs)) := by
  unfold listEntry
  split
  · rename_i h
    rw [List.isEmpty_iff] at h
    subst h
    rw [List.length_nil] at hi
    rw [List.length_eq_zero_iff.mp hi.symm, ← hr]
    exact .nil
  · exact .entry hx hset hk

end Optional

end Fills

theorem spells_record (h : Fills set n r entries r') (hn : n < limit) :
    ∃ es, Spells (packRecord entries) (.map es) ∧ unpackEntries set r es = some r' := by
  obtain ⟨hlen, es, hes, h⟩ := h
  have hes' : List.Forall₂ (fun e v => Spells e.1 v.1 ∧ Spells e.2 v.2)
      (entries.map fun e => (Msgpack.writeStr e.1, e.2)) es := List.forall₂_map_left_iff.mpr hes
  have hs := Msgpack.spells_map hes' (by rw [List.length_map]; exact Nat.lt_of_le_of_lt hlen hn)
  refine ⟨es, ?_, h⟩
  simpa [packRecord, Msgpack.entryBytes, List.flatMap_map] using hs

/-- A record of filled entries. -/
theorem carries_record {zero : α} {keys : List Text} (h : Fills set n r entries r') (hn : n < limit) :
    Carries (unpackRecord zero keys set r) (packRecord entries) r' := by
  obtain ⟨es, hes, h⟩ := spells_record h hn
  exact ⟨.map es, hes, h⟩

end Records

/-! ### Nodes -/

/-- How the value of a key is put into a node. -/
def putNode (n : Node) (k : Text) (v : Msgpack.Value) : Option Node :=
  n.put k { text := fun _ => unpackText v, bool := fun _ => unpackBool v, int := fun _ => unpackInt32 v,
            node := fun old => unpackNode old v, nodes := fun old => unpackNodes old v }

theorem unpackNodeEntries_eq (n : Node) (es : List (Msgpack.Value × Msgpack.Value)) :
    unpackNodeEntries n es = unpackEntries putNode n es := by
  induction es generalizing n with
  | nil => simp [unpackNodeEntries, unpackEntries]
  | cons e es ih =>
    obtain ⟨k, v⟩ := e
    simp only [unpackNodeEntries, unpackEntries]
    cases unpackText k with
    | none => rfl
    | some k =>
      simp only [Option.bind_eq_bind, Option.bind_some]
      unfold putNode
      cases Node.put n k _ with
      | none => rfl
      | some n => exact ih n

theorem unpackNodeItems_eq (old : List Node) (vs : List Msgpack.Value) :
    unpackNodeItems old vs = Slots.readOver .absent unpackNode old vs := by
  induction vs generalizing old with
  | nil => simp [unpackNodeItems, Slots.readOver]
  | cons v vs ih =>
    simp only [unpackNodeItems, Slots.readOver, ih]
    cases unpackNode (old.headD .absent) v with
    | none => rfl
    | some n => cases Slots.readOver .absent unpackNode old.tail vs <;> rfl

theorem unpackNodes_eq (old : Slots Node) (v : Msgpack.Value) :
    unpackNodes old v = unpackList .absent unpackNode old v := by
  cases v <;> simp [unpackNodes, unpackList, Slots.readItems, unpackNodeItems_eq]

/-- The texts of the plain keys fit. -/
def Keys.Fits (k : Keys) : Prop :=
  k.name.size < limit ∧ k.type.size < limit ∧ k.str.size < limit ∧ k.op.size < limit

mutual

/-- The texts and lists of a node fit, and its lists hide nothing. -/
def Node.Fits : Node → Prop
  | .absent => True
  | .node kind keys target left right ⟨args, args'⟩ ⟨body, body'⟩ ⟨alternative, alternative'⟩ =>
    kind.size < limit ∧ keys.Fits ∧ target.Fits ∧ left.Fits ∧ right.Fits ∧
      (args.length < limit ∧ Node.AllFit args ∧ args' = []) ∧
      (body.length < limit ∧ Node.AllFit body ∧ body' = []) ∧
      (alternative.length < limit ∧ Node.AllFit alternative ∧ alternative' = [])

def Node.AllFit : List Node → Prop
  | [] => True
  | n :: ns => n.Fits ∧ Node.AllFit ns

end

theorem childEntry_eq {k : String} {n : Node} (h : n ≠ .absent) : childEntry k n = [((k : Text), packNode n)] := by
  cases n with
  | absent => exact absurd rfl h
  | node kind keys target left right args body alternative => simp [childEntry, packNode]

theorem Fills.child {α : Type} {set : α → Text → Msgpack.Value → Option α} {r : α} {k : String}
    (hk : (k : Text).size < limit)
    {n : Node} {f : Node → α} (hn : Carries (unpackNode .absent) (packNode n) n)
    (hset : ∀ v, set r k v = (unpackNode .absent v).map f) (hr : f .absent = r) : Fills set 1 r (childEntry k n) (f n) := by
  by_cases h : n = .absent
  · subst h
    rw [hr]
    simp only [childEntry]
    exact .nil
  · rw [childEntry_eq h]
    exact .entry hn hset hk

section Node
variable {kind : Text} {keys : Keys} {target left right : Node} {args body alternative : Slots Node}

/-- The plain keys fill a node that has none. -/
theorem fills_keys (h : keys.Fits) :
    Fills putNode 6 (.node kind {} target left right args body alternative) (keyEntries keys)
    (.node kind keys target left right args body alternative) := by
  obtain ⟨name, type, int, str, bool, op⟩ := keys
  obtain ⟨hn, ht, hs, ho⟩ := h
  have named : Fills putNode 1 _ (textEntry "n" name) _ :=
    .text (by decide) (f := fun x => .node kind { name := x } target left right args body alternative) hn (fun _ => rfl) rfl
  have typed : Fills putNode 1 _ (textEntry "t" type) _ :=
    .text (by decide) (f := fun x => .node kind { name, type := x } target left right args body alternative) ht
      (fun _ => rfl) rfl
  have counted : Fills putNode 1 _ (intEntry "i" int) _ :=
    .int (by decide) (f := fun x => .node kind { name, type, int := x } target left right args body alternative)
      (fun _ => rfl) rfl
  have spelled : Fills putNode 1 _ (textEntry "s" str) _ :=
    .text (by decide) (f := fun x => .node kind { name, type, int, str := x } target left right args body alternative) hs
      (fun _ => rfl) rfl
  have marked : Fills putNode 1 _ (boolEntry "b" bool) _ :=
    .bool (by decide) (f := fun x => .node kind { name, type, int, str, bool := x } target left right args body alternative)
      (fun _ => rfl) rfl
  have operated : Fills putNode 1 _ (textEntry "o" op) _ :=
    .text (by decide)
      (f := fun x => .node kind { name, type, int, str, bool, op := x } target left right args body alternative)
      ho (fun _ => rfl) rfl
  exact ((((named.append typed).append counted).append spelled).append marked).append operated

end Node

theorem carries_nodeList {ns : List Node} (h : List.Forall₂ (Carries (unpackNode .absent)) (packNodes ns) ns)
    (hn : ns.length < limit) : Carries (unpackNodes {}) (packList (packNodes ns)) (.ofList ns) := by
  rw [show unpackNodes {} = unpackList .absent unpackNode {} from funext (unpackNodes_eq {})]
  exact carries_list h hn

mutual

/-- The bytes of a node are read as the node. -/
theorem carries_node : (n : Node) → n.Fits → Carries (unpackNode .absent) (packNode n) n
  | .absent, _ => ⟨.nil, by simpa [packNode] using Msgpack.spells_nil, by simp [unpackNode]⟩
  | .node kind keys target left right ⟨args, args'⟩ ⟨body, body'⟩ ⟨alternative, alternative'⟩, h => by
    obtain ⟨hkind, hkeys, ht, hl, hr, ⟨han, ha, rfl⟩, ⟨hbn, hb, rfl⟩, ⟨hen, he, rfl⟩⟩ := h
    have kinded : Fills putNode 1 Node.blank [("k", Msgpack.writeStr kind)] _ :=
      .entry (f := fun x => .node x {} .absent .absent .absent {} {} {}) (carries_text hkind) (fun _ => rfl) (by decide)
    have targeted : Fills putNode 1 _ (childEntry "x" target) _ :=
      .child (by decide) (f := fun x => .node kind keys x .absent .absent {} {} {}) (carries_node target ht)
        (fun _ => rfl) rfl
    have lefted : Fills putNode 1 _ (childEntry "l" left) _ :=
      .child (by decide) (f := fun x => .node kind keys target x .absent {} {} {}) (carries_node left hl) (fun _ => rfl) rfl
    have righted : Fills putNode 1 _ (childEntry "r" right) _ :=
      .child (by decide) (f := fun x => .node kind keys target left x {} {} {}) (carries_node right hr) (fun _ => rfl) rfl
    have given : Fills putNode 1 _ (listEntry "a" (packNodes args)) _ :=
      .list (by decide) (f := fun x => .node kind keys target left right x {} {})
        (carries_nodeList (carries_nodes args ha) han) (carries_nodes args ha).length_eq (fun _ => rfl) rfl
    have bodied : Fills putNode 1 _ (listEntry "body" (packNodes body)) _ :=
      .list (by decide) (f := fun x => .node kind keys target left right (.ofList args) x {})
        (carries_nodeList (carries_nodes body hb) hbn) (carries_nodes body hb).length_eq (fun _ => rfl) rfl
    have ended : Fills putNode 1 _ (listEntry "else" (packNodes alternative)) _ :=
      .list (by decide) (f := fun x => .node kind keys target left right (.ofList args) (.ofList body) x)
        (carries_nodeList (carries_nodes alternative he) hen) (carries_nodes alternative he).length_eq (fun _ => rfl) rfl
    have filled := kinded.cons ((((((fills_keys hkeys).append targeted).append lefted).append righted).append given).append
      bodied |>.append ended)
    obtain ⟨es, hes, hread⟩ := spells_record filled (by decide)
    refine ⟨.map es, by simpa [packNode] using hes, ?_⟩
    simp only [unpackNode, Node.opened]
    rw [unpackNodeEntries_eq]
    exact hread

theorem carries_nodes : (ns : List Node) → Node.AllFit ns → List.Forall₂ (Carries (unpackNode .absent)) (packNodes ns) ns
  | [], _ => by simp [packNodes]
  | n :: ns, h => by
    simp only [packNodes]
    exact .cons (carries_node n h.1) (carries_nodes ns h.2)

end

end CilCompiler.Wire
