import Mathlib.Data.List.DropRight
import Mathlib.Data.List.Forall2
import CilCompiler.Trace.Tracer

/-!
What a ring keeps. A ring holds the most recent events of its history (`Ring.Holds`): one event more either fills the next
place of the buffer or overwrites the oldest event, and both make the same window of the longer history
(`Ring.events_push`). A tracer numbers the events its level admits and passes them to its ring, so behind any events the
ring shows the last of those that were admitted, oldest first, under growing numbers (`most_recent_kept`).
-/

namespace CilCompiler

namespace Trace

/-- The window of a history with one item more is the window of the window with it. -/
theorem rtake_append_rtake {α : Type} (l : List α) (a : α) (n : Nat) :
    (l.rtake n ++ [a]).rtake n = (l ++ [a]).rtake n := by
  cases n with
  | zero => simp
  | succ n =>
    rw [List.rtake_concat_succ, List.rtake_concat_succ]
    simp [List.rtake_eq_reverse_take_reverse, List.take_take]

/-! ### Rings -/

namespace Ring

/-- The buffer is filled from its beginning, and the oldest event of a full buffer is at `head`. -/
structure Sound (r : Ring) : Prop where
  size_le : r.buffer.size ≤ r.capacity
  head_lt : r.head < r.capacity
  head_zero : r.buffer.size < r.capacity → r.head = 0

theorem capacity_new (capacity : Int) :
    (new capacity).capacity = if capacity ≤ 0 then defaultCapacity else capacity.toNat := rfl

theorem sound_new (capacity : Int) : (new capacity).Sound := by
  have hpositive : 0 < (new capacity).capacity := by
    rw [capacity_new]
    split
    · decide
    · omega
  exact ⟨Nat.zero_le _, hpositive, fun _ => rfl⟩

variable {r : Ring} (e : Event)

@[simp] theorem capacity_push : (r.push e).capacity = r.capacity := by
  unfold push
  split <;> rfl

theorem push_of_room (h : r.buffer.size < r.capacity) : r.push e = { r with buffer := r.buffer.push e } := if_pos h

theorem push_of_full (h : ¬r.buffer.size < r.capacity) :
    r.push e = { r with buffer := r.buffer.setIfInBounds r.head e, head := (r.head + 1) % r.capacity } := if_neg h

theorem Sound.push (h : r.Sound) : (r.push e).Sound := by
  by_cases hroom : r.buffer.size < r.capacity
  · rw [push_of_room e hroom]
    refine ⟨?_, h.head_lt, fun _ => h.head_zero hroom⟩
    rw [Array.size_push]
    exact hroom
  · rw [push_of_full e hroom]
    refine ⟨by rw [Array.size_setIfInBounds]; exact h.size_le, Nat.mod_lt _ (Nat.zero_lt_of_lt h.head_lt), fun hsize => ?_⟩
    rw [Array.size_setIfInBounds] at hsize
    exact absurd hsize hroom

theorem length_events (h : r.Sound) : r.events.length = r.buffer.size := by
  have hhead : r.head ≤ r.buffer.size := by
    by_cases hroom : r.buffer.size < r.capacity
    · rw [h.head_zero hroom]
      exact Nat.zero_le _
    · have := h.head_lt
      omega
  simp only [events, List.length_append, List.length_drop, List.length_take, Array.length_toList]
  omega

/-- Overwriting the item at a place, and beginning behind it, moves the window on by one. -/
theorem rotate_set {α : Type} {l : List α} {i : Nat} (hi : i < l.length) (a : α) :
    (l.set i a).drop ((i + 1) % l.length) ++ (l.set i a).take ((i + 1) % l.length) =
      (l.drop i ++ l.take i).tail ++ [a] := by
  have hdrop : l.drop i ++ l.take i = l[i] :: (l.drop (i + 1) ++ l.take i) := by
    rw [List.drop_eq_getElem_cons hi, List.cons_append]
  have hset : l.set i a = l.take i ++ a :: l.drop (i + 1) := List.set_eq_take_append_cons_drop.trans (if_pos hi)
  have htake : (l.take i).length = i := by
    rw [List.length_take]
    omega
  rw [hdrop, List.tail_cons]
  by_cases hlast : i + 1 = l.length
  · have hbehind : l.drop (i + 1) = [] := List.drop_eq_nil_of_le (by omega)
    rw [hlast, Nat.mod_self, hset, hbehind]
    simp
  · rw [Nat.mod_eq_of_lt (by omega), hset, List.drop_append, List.take_append, htake]
    simp [List.drop_eq_nil_of_le, List.take_of_length_le, htake, List.append_assoc]

/-- One event more: the window of the longer history. -/
theorem events_push (h : r.Sound) : (r.push e).events = (r.events ++ [e]).rtake r.capacity := by
  have hlength := length_events h
  by_cases hroom : r.buffer.size < r.capacity
  · have hall : (r.events ++ [e]).rtake r.capacity = r.events ++ [e] := by
      rw [List.rtake, List.length_append, hlength, List.length_singleton, Nat.sub_eq_zero_of_le (by omega), List.drop_zero]
    rw [hall, push_of_room e hroom]
    simp [events, h.head_zero hroom]
  · have hfull : r.capacity = r.buffer.toList.length := by
      have := h.size_le
      rw [Array.length_toList]
      omega
    have hhead := h.head_lt
    have hone : (r.events ++ [e]).rtake r.capacity = r.events.tail ++ [e] := by
      rw [List.rtake, List.length_append, hlength, List.length_singleton, hfull, Array.length_toList,
          Nat.add_sub_cancel_left,
        List.drop_one, List.tail_append_of_ne_nil (List.ne_nil_of_length_pos (by omega))]
    rw [hone, push_of_full e hroom]
    simp only [events, Array.toList_setIfInBounds]
    rw [hfull] at hhead ⊢
    exact rotate_set hhead e

/-- The ring shows the most recent events of a history. -/
structure Holds (r : Ring) (history : List Event) : Prop extends Sound r where
  events_eq : r.events = history.rtake r.capacity

theorem holds_new (capacity : Int) : (new capacity).Holds [] := ⟨sound_new capacity, by simp [events, new]⟩

theorem Holds.push {history : List Event} (h : r.Holds history) : (r.push e).Holds (history ++ [e]) := by
  refine ⟨h.toSound.push e, ?_⟩
  rw [events_push e h.toSound, h.events_eq, capacity_push, rtake_append_rtake]

end Ring

/-! ### Tracers -/

/-- The first list is the second under growing numbers, none above `last`. -/
structure Numbered (last : Nat) (numbered events : List Event) : Prop where
  alike : List.Forall₂ (fun n e => n = { e with seq := n.seq }) numbered events
  ordered : numbered.Pairwise fun m n => m.seq < n.seq
  below : ∀ n ∈ numbered, n.seq ≤ last

theorem Numbered.append {last : Nat} {numbered events : List Event} (h : Numbered last numbered events)
    (e : Event) {seq : Nat}
    (hseq : last < seq) : Numbered seq (numbered ++ [{ e with seq }]) (events ++ [e]) := by
  refine ⟨List.rel_append h.alike (.cons rfl .nil),
      List.pairwise_append.mpr ⟨h.ordered, List.pairwise_singleton _ _, ?_⟩, ?_⟩
  · intro m hm n hn
    rw [List.mem_singleton.mp hn]
    exact Nat.lt_of_le_of_lt (h.below m hm) hseq
  · intro n hn
    rcases List.mem_append.mp hn with hn | hn
    · exact Nat.le_of_lt (Nat.lt_of_le_of_lt (h.below n hn) hseq)
    · rw [List.mem_singleton.mp hn]

/-- The last of numbered events are the last of the events, numbered. -/
theorem Numbered.rtake {last : Nat} {numbered events : List Event} (h : Numbered last numbered events) (n : Nat) :
    Numbered last (numbered.rtake n) (events.rtake n) := by
  unfold List.rtake
  rw [h.alike.length_eq]
  exact ⟨List.forall₂_drop _ h.alike, h.ordered.sublist (List.drop_sublist _ _),
      fun m hm => h.below m (List.mem_of_mem_drop hm)⟩

namespace Tracer

/-- A tracer at a level whose ring, of a capacity, holds what is most recent of the events taken so far. -/
structure Took (level : Level) (capacity : Nat) (taken : List Event) (t : Tracer) : Prop where
  level_eq : t.level = level
  ring : ∃ r numbered, t.ring = some r ∧ r.capacity = capacity ∧ r.Holds numbered ∧ Numbered t.lastSeq numbered taken

variable {t : Tracer} {e : Event}

theorem emitStream_kept (t : Tracer) (e : Event) :
    (t.emitStream e).level = t.level ∧ (t.emitStream e).ring = t.ring ∧ t.lastSeq ≤ (t.emitStream e).lastSeq := by
  unfold emitStream
  split
  · split
    · exact ⟨rfl, rfl, Nat.le_succ _⟩
    · exact ⟨rfl, rfl, Nat.le_refl _⟩
  · exact ⟨rfl, rfl, Nat.le_refl _⟩

theorem Took.emit {level : Level} {capacity : Nat} {taken : List Event} (h : Took level capacity taken t) (e : Event) :
    Took level capacity (taken ++ [e].filter level.keeps) (t.emit e) := by
  obtain ⟨r, numbered, hring, hcapacity, hholds, hnumbered⟩ := h.ring
  obtain ⟨hlevel, hkept, hseq⟩ := emitStream_kept t e
  rw [h.level_eq] at hlevel
  rw [hring] at hkept
  rw [Tracer.emit, emitRing, hkept]
  dsimp only
  rw [hlevel]
  cases hadmitted : level.keeps e with
  | false =>
    rw [List.filter_singleton, hadmitted, cond_false, List.append_nil, if_neg (by simp)]
    exact ⟨hlevel, r, numbered, hkept, hcapacity, hholds,
      hnumbered.alike, hnumbered.ordered, fun n hn => Nat.le_trans (hnumbered.below n hn) hseq⟩
  | true =>
    rw [List.filter_singleton, hadmitted, cond_true, if_pos rfl]
    exact ⟨rfl, _, _, rfl, (Ring.capacity_push _).trans hcapacity, hholds.push _,
        hnumbered.append e (Nat.lt_succ_of_le hseq)⟩

theorem Took.emitAll {level : Level} {capacity : Nat} {taken : List Event} (h : Took level capacity taken t)
    (events : List Event) : Took level capacity (taken ++ events.filter level.keeps) (events.foldl Tracer.emit t) := by
  induction events generalizing t taken with
  | nil => simpa using h
  | cons e events ih =>
    have hnext := ih (h.emit e)
    rwa [List.append_assoc, ← List.filter_append, List.singleton_append] at hnext

/-- A tracer with a new ring shows, oldest first, the last of the events that its level admits or that are heartbeats,
    as many as the ring holds; but for their numbers, which grow, they are the events it was handed. -/
theorem most_recent_kept (t : Tracer) (capacity : Int) (events : List Event) :
    let admitted := events.filter fun e => t.level.admits e.scope || e.kind = heartbeat
    ∃ kept, (events.foldl emit { t with ring := some (.new capacity) }).kept = some kept ∧
      List.Forall₂ (fun k e => k = { e with seq := k.seq }) kept
        (admitted.rtake (min admitted.length (if capacity ≤ 0 then defaultCapacity else capacity.toNat))) ∧
      kept.Pairwise fun k l => k.seq < l.seq := by
  intro admitted
  have hnew : Took t.level (Ring.new capacity).capacity [] { t with ring := some (.new capacity) } :=
    ⟨rfl, _, [], rfl, rfl, Ring.holds_new capacity, .nil, .nil, by simp⟩
  obtain ⟨r, numbered, hring, hcapacity, hholds, hnumbered⟩ := (hnew.emitAll events).ring
  replace hnumbered : Numbered _ numbered admitted := hnumbered
  have hlast := hnumbered.rtake r.capacity
  have hshort : admitted.rtake r.capacity =
      admitted.rtake (min admitted.length (if capacity ≤ 0 then defaultCapacity else capacity.toNat)) := by
    rw [hcapacity, Ring.capacity_new]
    unfold List.rtake
    congr 1
    omega
  refine ⟨r.events, by rw [kept, hring]; rfl, ?_, ?_⟩
  · rw [hholds.events_eq, ← hshort]
    exact hlast.alike
  · rw [hholds.events_eq]
    exact hlast.ordered

-- The ring goes round once. The heartbeat is kept whatever its scope, and the event of a member is not.
example :
    let phase (name : Text) : Event := { kind := 3, scope := 2, name }
    let member : Event := { kind := 3, scope := 4, name := "member" }
    let beat : Event := { kind := heartbeat, scope := 4, name := "beat" }
    let events := [phase "a", phase "b", member, beat, phase "c"]
    ((events.foldl emit (ofRing .phase 3)).kept.map fun es => es.map fun e => (e.seq, e.name)) =
      some ([(2, "b"), (3, "beat"), (4, "c")] : List (Nat × Text)) := by
  decide

end Tracer
end Trace
end CilCompiler
