import CausalDoc.Document.Edit
import CausalDoc.Proofs.Operation

/- What the byte format has room for.

   Peers and timestamps have 64 bits on the wire and counters and Lamport times 32, and
   the fields of a map stand in the order of their keys. Whatever is read off the wire is
   of this form. -/

namespace CausalDoc

/-- Peer and counter have their 64 and 32 bits. -/
def AtomId.Writable (id : AtomId) : Prop :=
  id.peer < 0x10000000000000000 ∧ id.counter < 0x100000000

instance (id : AtomId) : Decidable id.Writable :=
  inferInstanceAs (Decidable (id.peer < 0x10000000000000000 ∧ id.counter < 0x100000000))

def ContainerId.Writable : ContainerId → Prop
  | .root _ _ => True
  | .created creator _ => creator.Writable

mutual

/-- The maps in the value, at every depth, list their fields in the order of the keys. -/
def Value.Writable : Value → Prop
  | .list items => Value.ItemsWritable items
  | .map fields => Entries.Ascending fields ∧ Value.FieldsWritable fields
  | .container id => id.Writable
  | _ => True

def Value.ItemsWritable : List Value → Prop
  | [] => True
  | v :: vs => Value.Writable v ∧ Value.ItemsWritable vs

def Value.FieldsWritable : List (String × Value) → Prop
  | [] => True
  | (_, v) :: fs => Value.Writable v ∧ Value.FieldsWritable fs

end

def Inserted.Writable : Inserted → Prop
  | .values vs => Value.ItemsWritable vs
  | .text _ => True

def Action.Writable : Action → Prop
  | .insert anchor content => (∀ a, anchor = some a → a.Writable) ∧ content.Writable
  | .delete targets => ∀ a ∈ targets, a.Writable
  | .setField _ value => ∀ v, value = some v → v.Writable
  | .create (.after anchor) _ => ∀ a, anchor = some a → a.Writable
  | .create (.key _) _ => True

/-- Every part of the operation has its width. -/
structure Operation.Writable (op : Operation) : Prop where
  id : op.id.Writable
  lamport : op.lamport < 0x100000000
  deps : ∀ d ∈ op.deps, d.Writable
  container : op.container.Writable
  timestamp : op.timestamp < 0x10000000000000000
  action : op.action.Writable

/-- The values that the edit brings in are as the wire has them. -/
def Edit.Writable : Edit → Prop
  | .insertValues _ values => Value.ItemsWritable values
  | .setField _ (some value) => value.Writable
  | _ => True

namespace Value

theorem itemsWritable_iff {vs : List Value} : ItemsWritable vs ↔ ∀ v ∈ vs, v.Writable := by
  induction vs with
  | nil => simp [ItemsWritable]
  | cons v vs ih => simp [ItemsWritable, ih]

theorem fieldsWritable_iff {fs : List (String × Value)} :
    FieldsWritable fs ↔ ∀ f ∈ fs, f.2.Writable := by
  induction fs with
  | nil => simp [FieldsWritable]
  | cons f fs ih => simp [FieldsWritable, ih]

end Value

namespace Operation

variable {op : Operation} {counter : Nat}

/-- The atoms of a sound operation of a peer of 64 bits. -/
theorem Sound.writable_of_covers (h : op.Sound) (hpeer : op.id.peer < 0x10000000000000000)
    {a : AtomId} (ha : op.covers a = true) : a.Writable := by
  obtain ⟨hp, -, hstop⟩ := covers_iff.1 ha
  have := h.stop_lt
  exact ⟨by omega, by omega⟩

theorem Writable.suffix (hw : op.Writable) (h : op.Sound) (hstop : counter < op.stop) :
    (op.suffix counter).Writable := by
  by_cases hfirst : op.id.counter < counter
  · have hsound := h.suffix hstop
    have hid : (op.suffix counter).id.Writable := by
      apply hsound.writable_of_covers _ (covers_id hsound.length_pos)
      rw [suffix_id]
      exact hw.id.1
    have hlamport := hsound.lamport_lt
    refine ⟨hid, by omega, ?_, ?_, ?_, ?_⟩
    · rw [suffix_deps]
      exact hw.deps
    · rw [suffix_container]
      exact hw.container
    · rw [suffix_timestamp]
      exact hw.timestamp
    · obtain ⟨anchor, content, haction, heq⟩ := suffix_eq hfirst hstop
      rw [heq]
      have hwa := hw.action
      rw [haction] at hwa
      refine ⟨?_, ?_⟩
      · intro a ha
        cases ha
        apply h.writable_of_covers hw.id.1
        rw [covers_iff]
        dsimp only
        omega
      · cases content with
        | text t => trivial
        | values vs =>
          apply Value.itemsWritable_iff.2
          intro v hv
          exact Value.itemsWritable_iff.1 hwa.2 v (List.mem_of_mem_drop hv)
  · rw [suffix_of_le (by omega)]
    exact hw

end Operation

end CausalDoc
