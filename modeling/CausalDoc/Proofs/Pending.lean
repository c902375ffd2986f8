import CausalDoc.Pending
import CausalDoc.Proofs.Ordered
import Mathlib.Data.List.Nodup

/- What the pending buffer keeps.

   The buffer says twice what is parked: under the missing atoms, and as a set of first
   atoms. `Tidy` is the agreement of the two, with every first atom once and no bucket
   without operations. Parking and releasing keep it, and act on what waits under each
   atom as one expects. -/

namespace CausalDoc

namespace Entries

/-- Adding to the list under a key adds one item to all lists together. -/
theorem perm_insert_concat {κ ν : Type} [Ord κ] [Std.LawfulEqOrd κ] [Std.TransOrd κ] (k : κ) (v : ν) :
    ∀ {es : List (κ × List ν)}, Ascending es →
      ((insert k ((find? k es).getD [] ++ [v]) es).map (·.2)).flatten.Perm
        (v :: (es.map (·.2)).flatten)
  | [], _ => List.Perm.refl _
  | (k', vs) :: es, h => by
    unfold insert
    split
    · next hlt =>
      rw [find?_eq_none_of_lt]
      · exact List.Perm.refl _
      · intro e he
        rcases List.mem_cons.1 he with rfl | he
        · exact hlt
        · exact Std.TransCmp.lt_trans hlt (h.head_lt he)
    · next heq =>
      cases Std.LawfulEqOrd.eq_of_compare heq
      rw [find?_cons_self, Option.getD_some, List.map_cons, List.flatten_cons, List.append_assoc]
      exact List.perm_middle
    · next hgt =>
      rw [find?_cons_of_ne (by intro heq; subst heq; simp [Std.ReflOrd.compare_self] at hgt),
        List.map_cons, List.flatten_cons]
      have ih := perm_insert_concat k v h.tail
      calc (vs ++ ((insert k ((find? k es).getD [] ++ [v]) es).map (·.2)).flatten).Perm
            (vs ++ v :: (es.map (·.2)).flatten) := ih.append_left vs
        List.Perm _ (v :: (vs ++ (es.map (·.2)).flatten)) := List.perm_middle

end Entries

namespace Pending

variable {pending after : Pending} {m : AtomId} {op o : Operation}

def operations (pending : Pending) : List Operation := pending.waiting.values.flatten

/-- The operation waits for the atom `m`. -/
def Waits (pending : Pending) (m : AtomId) (op : Operation) : Prop :=
  ∃ ops, pending.waiting.get? m = some ops ∧ op ∈ ops

/-- The parts of the buffer agree. -/
structure Tidy (pending : Pending) : Prop where
  parked : ∀ id, id ∈ pending.parked ↔ ∃ op ∈ pending.operations, op.id = id
  once : (pending.operations.map Operation.id).Nodup
  nonempty : ∀ m, pending.waiting.get? m ≠ some []

theorem tidy_empty : empty.Tidy where
  parked := fun id => by simp [empty, operations, OrderedMap.values, OrderedMap.empty]
  once := List.nodup_nil
  nonempty := fun m h => by cases h

theorem mem_operations : op ∈ pending.operations ↔ ∃ m, pending.Waits m op := by
  unfold operations Waits
  simp only [List.mem_flatten, OrderedMap.mem_values]
  refine ⟨?_, ?_⟩
  · intro hgiven
    obtain ⟨ops, ⟨m, hm⟩, hop⟩ := hgiven
    exact ⟨m, ops, hm, hop⟩
  · intro hgiven
    obtain ⟨m, ops, hm, hop⟩ := hgiven
    exact ⟨ops, ⟨m, hm⟩, hop⟩

theorem mem_missing (h : pending.Tidy) : m ∈ pending.missing ↔ ∃ op, pending.Waits m op := by
  unfold missing Waits
  rw [OrderedMap.mem_keys]
  refine ⟨?_, ?_⟩
  · intro hgiven
    obtain ⟨ops, hm⟩ := hgiven
    cases ops with
    | nil => exact absurd hm (h.nonempty m)
    | cons op ops => exact ⟨op, op :: ops, hm, List.mem_cons_self⟩
  · intro hgiven
    obtain ⟨op, ops, hm, -⟩ := hgiven
    exact ⟨ops, hm⟩

theorem Tidy.size_eq (h : pending.Tidy) : pending.size = pending.operations.length := by
  have hids : ∀ id, id ∈ pending.parked ↔ id ∈ pending.operations.map Operation.id := by
    intro id
    rw [h.parked, List.mem_map]
  rw [size, OrderedSet.size_eq_length h.once hids, List.length_map]

/-! ## Parking -/

theorem push?_eq_none_iff : pending.push? m op = none ↔ op.id ∈ pending.parked := by
  unfold push?
  split <;> simp [*]

theorem waits_push? (h : pending.push? m op = some after) {m' : AtomId} :
    after.Waits m' o ↔ m' = m ∧ o = op ∨ pending.Waits m' o := by
  unfold push? at h
  split at h
  · cases h
  · cases h
    unfold Waits
    simp only [OrderedMap.get?_insert]
    by_cases hm : m' = m
    · subst hm
      cases hget : pending.waiting.get? m' <;> simp [or_comm]
    · simp [hm]

theorem operations_push? (h : pending.push? m op = some after) :
    after.operations.Perm (op :: pending.operations) := by
  unfold push? at h
  split at h
  · cases h
  · cases h
    exact Entries.perm_insert_concat m op pending.waiting.ascending

theorem Tidy.push? (h : pending.Tidy) (hpush : pending.push? m op = some after) : after.Tidy := by
  have hperm := operations_push? hpush
  have hnew : op.id ∉ pending.parked := by
    intro hin
    rw [push?_eq_none_iff.2 hin] at hpush
    cases hpush
  refine ⟨?_, ?_, ?_⟩
  · intro id
    have hparked : after.parked = pending.parked.insert op.id := by
      unfold Pending.push? at hpush
      rw [if_neg hnew] at hpush
      cases hpush
      rfl
    rw [hparked, OrderedSet.mem_insert, h.parked]
    simp [hperm.mem_iff, eq_comm]
  · rw [(hperm.map Operation.id).nodup_iff, List.map_cons, List.nodup_cons]
    refine ⟨fun hmem => hnew ((h.parked _).2 ?_), h.once⟩
    simpa using hmem
  · intro m' hm'
    unfold Pending.push? at hpush
    rw [if_neg hnew] at hpush
    cases hpush
    rw [OrderedMap.get?_insert] at hm'
    split at hm'
    · simp at hm'
    · exact h.nonempty m' hm'

theorem Tidy.size_push? (h : pending.Tidy) (hpush : pending.push? m op = some after) :
    after.size = pending.size + 1 := by
  rw [(h.push? hpush).size_eq, h.size_eq, (operations_push? hpush).length_eq, List.length_cons]

/-! ## Releasing -/

variable {peer stop : Nat}

/-- An atom of the peer below the counter. -/
def Reached (peer stop : Nat) (m : AtomId) : Prop := m.peer = peer ∧ m.counter < stop

theorem mem_takeReady :
    op ∈ (pending.takeReady peer stop).1 ↔ ∃ m, Reached peer stop m ∧ pending.Waits m op := by
  unfold takeReady Waits Reached
  simp only [List.mem_flatten, OrderedMap.mem_values, OrderedMap.get?_filter,
    Option.filter_eq_some_iff, Bool.and_eq_true, decide_eq_true_eq]
  refine ⟨?_, ?_⟩
  · intro hgiven
    obtain ⟨ops, ⟨m, hm, hready⟩, hop⟩ := hgiven
    exact ⟨m, hready, ops, hm, hop⟩
  · intro hgiven
    obtain ⟨m, hready, ops, hm, hop⟩ := hgiven
    exact ⟨ops, ⟨m, hm, hready⟩, hop⟩

theorem waits_takeReady :
    (pending.takeReady peer stop).2.Waits m op ↔ pending.Waits m op ∧ ¬ Reached peer stop m := by
  unfold takeReady Waits Reached
  simp only [OrderedMap.get?_filter, Option.filter_eq_some_iff, Bool.not_eq_true',
    Bool.and_eq_false_iff, decide_eq_false_iff_not, not_and]
  refine ⟨?_, ?_⟩
  · intro hgiven
    obtain ⟨ops, ⟨hm, hnot⟩, hop⟩ := hgiven
    exact ⟨⟨ops, hm, hop⟩, fun hp hlt => by rcases hnot with hnot | hnot <;> exact hnot ‹_›⟩
  · intro hgiven
    obtain ⟨⟨ops, hm, hop⟩, hnot⟩ := hgiven
    refine ⟨ops, ⟨hm, ?_⟩, hop⟩
    by_cases hp : m.peer = peer
    · exact .inr (hnot hp)
    · exact .inl hp

theorem operations_takeReady (pending : Pending) (peer stop : Nat) :
    pending.operations.Perm
      ((pending.takeReady peer stop).1 ++ (pending.takeReady peer stop).2.operations) := by
  unfold operations takeReady OrderedMap.values OrderedMap.filter
  dsimp only
  rw [← List.flatten_append, ← List.map_append]
  exact ((List.filter_append_perm _ _).symm.map _).flatten

theorem Tidy.takeReady (h : pending.Tidy) (peer stop : Nat) :
    (pending.takeReady peer stop).2.Tidy := by
  have hperm := operations_takeReady pending peer stop
  have honce := h.once
  rw [(hperm.map Operation.id).nodup_iff, List.map_append, List.nodup_append] at honce
  obtain ⟨-, hrest, hapart⟩ := honce
  refine ⟨?_, hrest, ?_⟩
  · intro id
    show id ∈ pending.parked.filter _ ↔ _
    rw [OrderedSet.mem_filter, h.parked]
    simp only [hperm.mem_iff, List.mem_append, Bool.not_eq_true', List.contains_eq_mem,
      decide_eq_false_iff_not]
    refine ⟨?_, ?_⟩
    · intro hgiven
      rcases hgiven with ⟨⟨op, hop | hop, rfl⟩, hnot⟩
      · exact absurd (List.mem_map_of_mem hop) hnot
      · exact ⟨op, hop, rfl⟩
    · intro hgiven
      obtain ⟨op, hop, rfl⟩ := hgiven
      exact ⟨⟨op, .inr hop, rfl⟩, fun hin => hapart _ hin _ (List.mem_map_of_mem hop) rfl⟩
  · intro m hm
    unfold Pending.takeReady at hm
    rw [OrderedMap.get?_filter, Option.filter_eq_some_iff] at hm
    exact h.nonempty m hm.1

/-- What is released was parked, and all else still is. -/
theorem Tidy.size_takeReady (h : pending.Tidy) (peer stop : Nat) :
    (pending.takeReady peer stop).1.length + (pending.takeReady peer stop).2.size =
      pending.size := by
  rw [(h.takeReady peer stop).size_eq, h.size_eq,
    (operations_takeReady pending peer stop).length_eq, List.length_append]

end Pending

end CausalDoc
