import CausalDoc.Proofs.Pending
import CausalDoc.Proofs.Store.Reflects

/- Operations that a store takes one after another.

   A store takes a list of operations when each is admitted in its turn (`AdmitsAll`). What
   it has gained is then exactly the list: every operation of it is new and is there once
   (`AdmitsAll.new`, `AdmitsAll.nodup`), the log has as many operations more as the list is
   long (`AdmitsAll.operationCount`), the version covers their atoms and nothing else that
   it did not cover before (`AdmitsAll.contains_iff`), and a registered container that none
   of them changes is as it was (`AdmitsAll.get?_of_not_mem`). -/

namespace CausalDoc

/-! ## Counting operations -/

namespace Log

variable {log : Log} {op : Operation}

theorem operationCount_eq (log : Log) :
    log.operationCount = log.histories.values.flatten.length := by
  have hcount : ∀ es : List (Nat × List Operation),
      es.foldr (fun e n => e.2.length + n) 0 = (es.map (·.2)).flatten.length := by
    intro es
    induction es with
    | nil => rfl
    | cons e es ih => rw [List.foldr_cons, ih, List.map_cons, List.flatten_cons, List.length_append]
  exact hcount log.histories.entries

theorem operationCount_push (log : Log) (op : Operation) :
    (log.push op).operationCount = log.operationCount + 1 := by
  have hperm := Entries.perm_insert_concat op.id.peer op log.histories.ascending
  rw [operationCount_eq, operationCount_eq]
  exact hperm.length_eq

end Log

namespace Store

variable {store : Store} {op o : Operation} {ops : List Operation} {id : ContainerId} {a : AtomId}

def absorbAll (store : Store) (ops : List Operation) : Store := ops.foldl absorb store

/-- Each of the operations can be the next one when its turn comes. -/
def AdmitsAll : Store → List Operation → Prop
  | _, [] => True
  | store, op :: ops => store.Admits op ∧ (store.absorb op).AdmitsAll ops

theorem absorbAll_cons (store : Store) (op : Operation) (ops : List Operation) :
    store.absorbAll (op :: ops) = (store.absorb op).absorbAll ops := rfl

theorem absorbAll_append (store : Store) (ops ops' : List Operation) :
    store.absorbAll (ops ++ ops') = (store.absorbAll ops).absorbAll ops' :=
  List.foldl_append

theorem admitsAll_append {ops' : List Operation} : ∀ {ops : List Operation} {store : Store},
    store.AdmitsAll (ops ++ ops') ↔
      store.AdmitsAll ops ∧ (store.absorbAll ops).AdmitsAll ops'
  | [], _ => by simp [AdmitsAll, absorbAll]
  | op :: ops, store => by
    calc store.AdmitsAll (op :: ops ++ ops')
        ↔ store.Admits op ∧ (store.absorb op).AdmitsAll (ops ++ ops') := Iff.rfl
      _ ↔ store.Admits op ∧ (store.absorb op).AdmitsAll ops ∧
            ((store.absorb op).absorbAll ops).AdmitsAll ops' :=
          and_congr_right fun _ => admitsAll_append
      _ ↔ _ := and_assoc.symm

theorem stored_absorbAll : ∀ {ops : List Operation} {store : Store},
    (store.absorbAll ops).log.Stored o ↔ store.log.Stored o ∨ o ∈ ops
  | [], store => by simp [absorbAll]
  | op :: ops, store => by
    calc ((store.absorb op).absorbAll ops).log.Stored o
        ↔ (store.absorb op).log.Stored o ∨ o ∈ ops := stored_absorbAll
      _ ↔ (store.log.Stored o ∨ o = op) ∨ o ∈ ops := or_congr_left Log.stored_push
      _ ↔ store.log.Stored o ∨ o ∈ op :: ops := by rw [List.mem_cons, or_assoc]

theorem operationCount_absorbAll (ops : List Operation) : ∀ store : Store,
    (store.absorbAll ops).log.operationCount = store.log.operationCount + ops.length := by
  induction ops with
  | nil => exact fun _ => rfl
  | cons op ops ih =>
    intro store
    have hone : (store.absorb op).log.operationCount = store.log.operationCount + 1 :=
      Log.operationCount_push ..
    rw [absorbAll_cons, ih, hone, List.length_cons]
    omega

namespace AdmitsAll

theorem advances (ha : store.AdmitsAll ops) : store.Advances (store.absorbAll ops) := by
  induction ops generalizing store with
  | nil => exact .refl
  | cons op ops ih => exact .head ⟨op, ha.1, rfl⟩ (ih ha.2)

theorem sound (ha : store.AdmitsAll ops) : ∀ o ∈ ops, o.Sound := by
  induction ops generalizing store with
  | nil => exact fun o ho => absurd ho List.not_mem_nil
  | cons op ops ih =>
    intro o ho
    rcases List.mem_cons.1 ho with rfl | ho
    · exact ha.1.log.sound
    · exact ih ha.2 o ho

/-- The version covers the atoms of the operations besides what it covered before. -/
theorem contains_iff (ha : store.AdmitsAll ops) :
    (store.absorbAll ops).log.contains a = true ↔
      store.log.contains a = true ∨ ∃ o ∈ ops, o.covers a = true := by
  induction ops generalizing store with
  | nil => simp [absorbAll]
  | cons op ops ih =>
    rw [absorbAll_cons, ih ha.2]
    calc (store.absorb op).log.contains a = true ∨ (∃ o ∈ ops, o.covers a = true)
        ↔ (store.log.contains a = true ∨ op.covers a = true) ∨
            ∃ o ∈ ops, o.covers a = true := or_congr_left ha.1.log.contains_push
      _ ↔ _ := by simp [or_assoc]

theorem new (ha : store.AdmitsAll ops) :
    ∀ o ∈ ops, store.log.version.nextCounter o.id.peer ≤ o.id.counter := by
  induction ops generalizing store with
  | nil => exact fun o ho => absurd ho List.not_mem_nil
  | cons op ops ih =>
    intro o ho
    rcases List.mem_cons.1 ho with rfl | ho
    · exact Nat.le_of_eq ha.1.log.next.symm
    · have hlater := ih ha.2 o ho
      have hpush : (store.absorb op).log.version.nextCounter o.id.peer =
          if o.id.peer = op.id.peer then op.stop
          else store.log.version.nextCounter o.id.peer := ha.1.log.nextCounter_push _
      rw [hpush] at hlater
      split at hlater
      · next hpeer =>
        have hnext := ha.1.log.next
        rw [Operation.stop] at hlater
        rw [hpeer]
        omega
      · exact hlater

theorem not_stored (h : store.Coherent) (ha : store.AdmitsAll ops) (ho : o ∈ ops) :
    ¬ store.log.Stored o := by
  intro hstored
  have hstop := (h.log.contiguous o.id.peer).stop_le_endOf.2 o hstored
  have hpos := (ha.sound o ho).length_pos
  have hnew := ha.new o ho
  rw [← h.log.next, Operation.stop] at hstop
  omega

theorem nodup (h : store.Coherent) (ha : store.AdmitsAll ops) : ops.Nodup := by
  induction ops generalizing store with
  | nil => exact List.nodup_nil
  | cons op ops ih =>
    have hafter : (store.absorb op).Coherent := h.absorb ha.1
    refine List.nodup_cons.2 ⟨fun hin => ?_, ih hafter ha.2⟩
    exact not_stored hafter ha.2 hin (Log.stored_push.2 (.inr rfl))

/-- A registered container that no operation changes is as it was. -/
theorem get?_of_not_mem (h : store.Coherent) (ha : store.AdmitsAll ops) {state : ContainerState}
    (hget : store.registry.get? id = some state) (hother : ∀ o ∈ ops, o.container ≠ id) :
    (store.absorbAll ops).registry.get? id = some state := by
  induction ops generalizing store with
  | nil => exact hget
  | cons op ops ih =>
    refine ih (h.absorb ha.1) ha.2 ?_ fun o ho => hother o (List.mem_cons_of_mem _ ho)
    show (store.registry.absorb op).get? id = some state
    rw [Registry.get?_absorb (ha.1.created?_ne h.log),
      if_neg (hother op List.mem_cons_self).symm]
    split
    · rw [Registry.stateOf_of_get? hget]
    · exact hget

theorem order? (ha : store.AdmitsAll ops) (hne : ops ≠ []) :
    store.log.version.order? (store.absorbAll ops).log.version = some .lt := by
  obtain ⟨op, hop⟩ := List.exists_mem_of_ne_nil ops hne
  have hcovers := Operation.covers_id (ha.sound op hop).length_pos
  have hall : (store.absorbAll ops).log.version.includesAll store.log.version = true :=
    VersionVector.includesAll_iff.2 fun a hin => ha.contains_iff.2 (.inl hin)
  have hless : store.log.version.includesAll (store.absorbAll ops).log.version = false := by
    apply Bool.eq_false_iff.2
    intro hback
    have hin := VersionVector.includesAll_iff.1 hback op.id (ha.contains_iff.2 (.inr ⟨op, hop, hcovers⟩))
    have hnew := ha.new op hop
    rw [VersionVector.includes_iff] at hin
    omega
  rw [VersionVector.order?, hless, hall]

theorem version_ne_iff (ha : store.AdmitsAll ops) :
    (store.absorbAll ops).log.version ≠ store.log.version ↔ ops ≠ [] := by
  refine ⟨?_, fun hne heq => ?_⟩
  · rintro hne rfl
    exact hne rfl
  · have hlt := ha.order? hne
    have hself : store.log.version.includesAll store.log.version = true :=
      VersionVector.includesAll_iff.2 fun _ hin => hin
    rw [heq, VersionVector.order?, hself] at hlt
    cases hlt

end AdmitsAll

end Store

end CausalDoc
