import CausalDoc.Proofs.Store.Coherent
import CausalDoc.Proofs.Store.Mirror
import CausalDoc.Proofs.Store.Records

/- When the containers are a function of the log.

   `Reflects` says that every container is what the log makes of it, and that the
   registered containers are those that stored operations name; a log has one registry
   that reflects it (`Reflects.unique`). Two ways lead there. Taken in the order of their
   stamps, operations always come in order. And in whatever order they are taken, they
   come in order when every stored operation has what it refers to in its causal past
   (`Grounded`). -/

namespace CausalDoc

/-- The container is what the log makes of it. -/
def Shows (log : Log) (id : ContainerId) : ContainerState → Prop
  | .list s => id.kind = .list ∧ Mirrors Operation.listInsertion? log id s
  | .map f => id.kind = .map ∧ Records log id f
  | .text s => id.kind = .text ∧ Mirrors Operation.textInsertion? log id s

/-- The containers are what the log makes of them. -/
structure Reflects (log : Log) (registry : Registry) : Prop where
  registered : ∀ id, registry.states.contains id = true ↔ log.Names id
  shows : ∀ {id : ContainerId} {state : ContainerState}, registry.get? id = some state →
    Shows log id state

namespace Shows

variable {log : Log} {id : ContainerId} {state : ContainerState} {op : Operation}

theorem unique (hlog : log.Coherent) {state' : ContainerState} (h : Shows log id state)
    (h' : Shows log id state') : state = state' := by
  cases state <;> cases state'
  case list.list s t => rw [h.2.unique reading_list hlog h'.2]
  case map.map f g => rw [h.2.unique hlog h'.2]
  case text.text s t => rw [h.2.unique reading_text hlog h'.2]
  all_goals
    have hkind := h.1.symm.trans h'.1
    cases hkind

theorem new (hnone : ∀ o, log.Stored o → o.container ≠ id) : Shows log id (.new id.kind) := by
  cases hkind : id.kind with
  | list => exact ⟨hkind, .empty hnone⟩
  | map => exact ⟨hkind, .empty hnone⟩
  | text => exact ⟨hkind, .empty hnone⟩

theorem push_of_ne (hlog : log.Coherent) (h : Shows log id state) (hne : op.container ≠ id) :
    Shows (log.push op) id state := by
  cases state with
  | list s => exact ⟨h.1, h.2.push_of_ne reading_list hlog hne⟩
  | map f => exact ⟨h.1, h.2.push_of_ne hne⟩
  | text s => exact ⟨h.1, h.2.push_of_ne reading_text hlog hne⟩

theorem take (hlog : log.Coherent) (h : Shows log id state) (ha : log.Admits op)
    (hin : log.InOrder op) (hid : op.container = id) : Shows (log.push op) id (state.take op) := by
  have hfits := ha.sound.fits
  rw [hid] at hfits
  cases state with
  | list s =>
    obtain ⟨hkind, hmirrors⟩ := h
    rw [hkind] at hfits
    rw [ContainerState.take_list s hfits]
    exact ⟨hkind, hmirrors.take reading_list hlog ha hin hid⟩
  | map f =>
    obtain ⟨hkind, hrecords⟩ := h
    rw [hkind] at hfits
    rw [ContainerState.take_map f hfits]
    exact ⟨hkind, hrecords.take hid⟩
  | text s =>
    obtain ⟨hkind, hmirrors⟩ := h
    rw [hkind] at hfits
    rw [ContainerState.take_text s hfits]
    exact ⟨hkind, hmirrors.take reading_text hlog ha hin hid⟩

end Shows

namespace Reflects

theorem empty : Reflects Log.empty Registry.empty :=
  ⟨Store.coherent_empty.registered, fun h => by cases h⟩

theorem unique {log : Log} (hlog : log.Coherent) {r r' : Registry} (h : Reflects log r)
    (h' : Reflects log r') : r = r' := by
  refine Registry.ext fun id => ?_
  have hsame : (r.get? id).isSome = (r'.get? id).isSome := by
    rw [Bool.eq_iff_iff]
    calc (r.get? id).isSome = true
        ↔ log.Names id := h.registered id
      _ ↔ (r'.get? id).isSome = true := (h'.registered id).symm
  cases hget : r.get? id with
  | none =>
    rw [hget] at hsame
    exact (Option.isNone_iff_eq_none.1 (by simpa using hsame.symm)).symm
  | some state =>
    rw [hget] at hsame
    obtain ⟨state', hget'⟩ := Option.isSome_iff_exists.1 hsame.symm
    rw [hget', (h.shows hget).unique hlog (h'.shows hget')]

variable {store : Store} {op : Operation}

/-- A container that is not registered is what the log makes of it too. -/
theorem stateOf (h : Reflects store.log store.registry) (id : ContainerId) :
    Shows store.log id (store.registry.stateOf id) := by
  unfold Registry.stateOf
  cases hget : store.registry.get? id with
  | some state => exact h.shows hget
  | none =>
    refine Shows.new fun o ho hid => ?_
    have hcontains := (h.registered id).2 ⟨o, ho, .inl hid⟩
    rw [OrderedMap.contains, show store.registry.states.get? id = none from hget] at hcontains
    cases hcontains

/-- The containers go on reflecting the log when an operation comes in order. -/
theorem absorb (h : Reflects store.log store.registry) (hc : store.Coherent)
    (ha : store.Admits op) (hin : store.log.InOrder op) :
    Reflects (store.absorb op).log (store.absorb op).registry := by
  refine ⟨hc.registered_absorb ha, fun {id state} hget => ?_⟩
  change (store.registry.absorb op).get? id = some state at hget
  show Shows (store.log.push op) id state
  rw [Registry.get?_absorb (ha.created?_ne hc.log)] at hget
  split at hget
  · next hid =>
    rw [← Option.some.inj hget]
    exact (h.stateOf id).take hc.log ha.log hin hid.symm
  · next hid =>
    split at hget
    · rw [← Option.some.inj hget]
      exact (h.stateOf id).push_of_ne hc.log (Ne.symm hid)
    · exact (h.shows hget).push_of_ne hc.log (Ne.symm hid)

end Reflects

/-! ## Operations in order -/

namespace Log

variable {log : Log} {op : Operation}

theorem inOrder_of_newest (h : ∀ o, log.Stored o → o.stamp < op.stamp) : log.InOrder op where
  older := fun _ _ o hget => h o (stored_of_get? hget)
  newer := fun o ho _ _ _ hlt => Stamp.lt_irrefl _ (Stamp.lt_trans (h o ho) hlt)

/-- What a stored operation refers to and is stored is in its causal past. -/
def Grounded (log : Log) : Prop :=
  ∀ op, log.Stored op → ∀ a ∈ op.named, log.contains a = true → log.HappensBefore a op.id

theorem Grounded.of_push (hg : (log.push op).Grounded) (h : log.Coherent) (ha : log.Admits op) :
    log.Grounded ∧ log.InOrder op := by
  -- the past of an operation that was there before was there before
  have hback : ∀ {o : Operation} {a : AtomId}, log.Stored o → a ∈ o.named →
      (log.push op).contains a = true → log.HappensBefore a o.id ∧ log.contains a = true := by
    intro o a ho hnamed ha'
    apply (hg o (stored_push.2 (.inl ho)) a hnamed ha').transfer h
    · intro x o o' hx hx'
      have hkept : (log.push op).get? x = some o' := get?_push_of_get? hx'
      rw [hx, Option.some.injEq] at hkept
      exact hkept
    · exact h.contains_of_covers ho (Operation.covers_id (h.sound ho).length_pos)
  refine ⟨fun o ho a hnamed hin => (hback ho hnamed (ha.contains_push.2 (.inl hin))).1, ?_, ?_⟩
  · intro a hnamed o hget
    have hin := h.contains_iff.2 ⟨o, hget⟩
    have hbefore := hg op (stored_push.2 (.inr rfl)) a hnamed (ha.contains_push.2 (.inl hin))
    obtain ⟨k, l, hk, hl, hlt⟩ := hbefore.lamport_lt (h.push ha)
    have hk' : (log.push op).lamport? a = some (o.lamport + (a.counter - o.id.counter)) :=
      lamport?_push_of_lamport? (lamport?_eq_some_iff.2 ⟨o, hget, rfl⟩)
    rw [hk, Option.some.injEq] at hk'
    rw [(h.push ha).lamport?_id (stored_push.2 (.inr rfl)), Option.some.injEq] at hl
    apply Stamp.lt_of_lamport_lt
    show o.lamport < op.lamport
    omega
  · intro o ho a hnamed hcovers _
    obtain ⟨-, hin⟩ := hback ho hnamed (ha.contains_push.2 (.inr hcovers))
    rw [ha.not_contains hcovers] at hin
    cases hin

end Log

/-! ## Whole histories -/

namespace Store

/-- One operation more. -/
def Takes (store store' : Store) : Prop := ∃ op, store.Admits op ∧ store' = store.absorb op

/-- Any number of operations more. -/
def Advances : Store → Store → Prop := Relation.ReflTransGen Takes

theorem Coherent.advances {store store' : Store} (h : store.Coherent)
    (hadv : store.Advances store') : store'.Coherent := by
  induction hadv with
  | refl => exact h
  | tail _ hstep ih =>
    obtain ⟨op, ha, rfl⟩ := hstep
    exact ih.absorb ha

/-- When every operation has what it refers to in its past, the containers reflect the log, in
whatever order the operations were taken. -/
theorem Advances.reflects {store : Store} (h : empty.Advances store) (hg : store.log.Grounded) :
    Reflects store.log store.registry := by
  induction h with
  | refl => exact Reflects.empty
  | @tail before _ hadv hstep ih =>
    obtain ⟨op, ha, rfl⟩ := hstep
    have hc : before.Coherent := coherent_empty.advances hadv
    obtain ⟨hg, hin⟩ := Log.Grounded.of_push hg hc.log ha.log
    exact (ih hg).absorb hc ha hin

end Store

end CausalDoc
