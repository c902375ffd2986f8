import CausalDoc.Document.Receive
import CausalDoc.Proofs.Container.Reading
import CausalDoc.Proofs.Log.Coherent

/- A log together with the containers it filled.

   A store takes an operation when the log admits it and its container can be used
   (`Admits`); the log then grows by it and the container, with whatever the operation
   creates, is written to (`absorb`). `Coherent` says what every store keeps whatever the
   operations refer to: the registered containers are those that stored operations name,
   each has the kind of its name, sequences are tidy and hold stored atoms only. What
   exactly a sequence holds is another matter and depends on the order of arrival. -/

namespace CausalDoc

/-! ## Containers -/

namespace Registry

variable {registry : Registry} {op : Operation}

/-- The state of a container; that of a new one when it is not registered. -/
def stateOf (registry : Registry) (id : ContainerId) : ContainerState :=
  (registry.get? id).getD (.new id.kind)

/-- The containers after an operation. -/
def absorb (registry : Registry) (op : Operation) : Registry :=
  Document.registerCreated
    (registry.set op.container ((registry.stateOf op.container).take op)) op

theorem ext {r r' : Registry} (h : ∀ id, r.get? id = r'.get? id) : r = r' := by
  cases r
  cases r'
  exact congrArg _ (OrderedMap.ext h)

theorem stateOf_of_get? {id : ContainerId} {state : ContainerState}
    (h : registry.get? id = some state) : registry.stateOf id = state := by
  rw [stateOf, h, Option.getD_some]

theorem get?_set (id x : ContainerId) (state : ContainerState) :
    (registry.set id state).get? x = if x = id then some state else registry.get? x :=
  OrderedMap.get?_insert ..

theorem get?_register (id x : ContainerId) :
    (registry.register id).get? x =
      if x = id then some (registry.stateOf x) else registry.get? x := by
  unfold register
  split
  · next state hget =>
    split
    · next hx => rw [hx, hget, stateOf_of_get? hget]
    · rfl
  · next hnone =>
    have hnew : registry.stateOf id = .new id.kind := by rw [stateOf, hnone, Option.getD_none]
    calc (registry.set id (.new id.kind)).get? x
        = if x = id then some (.new id.kind) else registry.get? x := OrderedMap.get?_insert ..
      _ = if x = id then some (registry.stateOf x) else registry.get? x := by
          split
          · next hx => rw [hx, hnew]
          · rfl

theorem isResolvable_iff {id : ContainerId} :
    registry.isResolvable id = true ↔
      id.isRoot = true ∨ registry.states.contains id = true := by
  rw [isResolvable, Bool.or_eq_true]

theorem resolve_eq {id : ContainerId} (h : registry.isResolvable id = true) :
    registry.resolve id = .ok (registry.register id, registry.stateOf id) := by
  unfold resolve register
  cases hget : registry.get? id with
  | some state => rw [stateOf_of_get? hget]
  | none =>
    rw [isResolvable, OrderedMap.contains, show registry.states.get? id = none from hget,
      Option.isSome_none, Bool.or_false] at h
    rw [if_pos h, stateOf, hget, Option.getD_none]

/-- What an operation does to the registry: its container takes it, what it creates is there
afterwards, and nothing else changes. -/
theorem get?_absorb (hne : op.created? ≠ some op.container) (id : ContainerId) :
    (registry.absorb op).get? id =
      if id = op.container then some ((registry.stateOf id).take op)
      else if op.created? = some id then some (registry.stateOf id)
      else registry.get? id := by
  unfold absorb Document.registerCreated
  cases hcreated : op.created? with
  | none =>
    rw [get?_set]
    split
    · next hid => rw [hid]
    · rw [if_neg (by simp)]
  | some child =>
    have hchild : child ≠ op.container := fun heq => hne (hcreated.trans (congrArg some heq))
    rw [get?_register, get?_set]
    by_cases hid : id = op.container
    · rw [if_neg (hid ▸ hchild.symm), if_pos hid, if_pos hid, hid]
    · rw [if_neg hid, if_neg hid, stateOf, get?_set, if_neg hid]
      by_cases hchild' : id = child
      · rw [if_pos hchild', if_pos (by rw [hchild']), stateOf]
      · rw [if_neg hchild', if_neg (by simpa using fun h => hchild' h.symm)]

end Registry

/-! ## Stores -/

/-- What a document has applied: the operations, and the containers they filled. -/
@[ext] structure Store where
  log : Log
  registry : Registry

def Document.store (doc : Document) : Store := ⟨doc.log, doc.registry⟩

/-- The container is one that a stored operation changes or creates. -/
def Log.Names (log : Log) (id : ContainerId) : Prop :=
  ∃ op, log.Stored op ∧ (op.container = id ∨ op.created? = some id)

theorem Log.names_push {log : Log} {op : Operation} {id : ContainerId} :
    (log.push op).Names id ↔ log.Names id ∨ op.container = id ∨ op.created? = some id := by
  refine ⟨?_, ?_⟩
  · intro hgiven
    obtain ⟨o, ho, hid⟩ := hgiven
    rcases stored_push.1 ho with ho | rfl
    · exact .inl ⟨o, ho, hid⟩
    · exact .inr hid
  · intro hcase
    rcases hcase with ⟨o, ho, hid⟩ | hid
    · exact ⟨o, stored_push.2 (.inl ho), hid⟩
    · exact ⟨op, stored_push.2 (.inr rfl), hid⟩

namespace Store

def empty : Store := ⟨.empty, .empty⟩

def absorb (store : Store) (op : Operation) : Store :=
  ⟨store.log.push op, store.registry.absorb op⟩

/-- The operation can be the next one. -/
structure Admits (store : Store) (op : Operation) : Prop where
  log : store.log.Admits op
  resolvable : store.registry.isResolvable op.container = true

/-- What every store keeps. -/
structure Coherent (store : Store) : Prop where
  log : store.log.Coherent
  /-- The registered containers are those that stored operations name. -/
  registered : ∀ id, store.registry.states.contains id = true ↔ store.log.Names id
  /-- The container of a stored operation is a root or was created by a stored operation. -/
  creator : ∀ {op : Operation}, store.log.Stored op → op.container.isRoot = true ∨
    ∃ o, store.log.Stored o ∧ o.created? = some op.container
  /-- A container has the kind of its name. -/
  kind : ∀ {id : ContainerId} {state : ContainerState}, store.registry.get? id = some state →
    state.kind = id.kind
  tidy : ∀ {id : ContainerId} {state : ContainerState}, store.registry.get? id = some state →
    state.Tidy
  /-- The elements of sequences are stored atoms. -/
  known : ∀ {id : ContainerId} {state : ContainerState} {a : AtomId},
    store.registry.get? id = some state → state.holds a = true → store.log.contains a = true

theorem coherent_empty : empty.Coherent where
  log := Log.coherent_empty
  registered := fun id => by
    refine ⟨?_, ?_⟩
    · exact fun h => by cases h
    · intro hgiven
      obtain ⟨op, hop, -⟩ := hgiven
      cases hop
  creator := fun h => by cases h
  kind := fun h => by cases h
  tidy := fun h => by cases h
  known := fun h => by cases h

variable {store : Store} {op : Operation}

theorem created?_eq {id : ContainerId} (h : op.created? = some id) :
    ∃ kind, id = .created op.id kind := by
  unfold Operation.created? at h
  split at h
  · next kind _ => exact ⟨kind, (Option.some.inj h).symm⟩
  · cases h

/-- An admitted operation does not create the container it changes: that one's creation is
stored already. -/
theorem Admits.created?_ne (ha : store.Admits op) (h : store.log.Coherent) :
    op.created? ≠ some op.container := by
  intro heq
  obtain ⟨kind, hid⟩ := created?_eq heq
  have hcreator : op.id ∈ op.dependencies :=
    Operation.mem_dependencies.2 (.inr (.inr (by rw [hid]; rfl)))
  have hold := ha.log.contains_dep h hcreator
  rw [ha.log.not_contains (Operation.covers_id ha.log.sound.length_pos)] at hold
  cases hold

namespace Coherent

/-- The state of a container, registered or not, is as it should be. -/
theorem stateOf (h : store.Coherent) (id : ContainerId) :
    (store.registry.stateOf id).kind = id.kind ∧ (store.registry.stateOf id).Tidy ∧
      ∀ a, (store.registry.stateOf id).holds a = true → store.log.contains a = true := by
  unfold Registry.stateOf
  cases hget : store.registry.get? id with
  | some state => exact ⟨h.kind hget, h.tidy hget, fun a => h.known hget⟩
  | none =>
    refine ⟨ContainerState.kind_new _, ContainerState.tidy_new _, fun a ha => ?_⟩
    rw [Option.getD_none, ContainerState.holds_new] at ha
    cases ha

theorem fits (h : store.Coherent) (ha : store.Admits op) :
    op.action.flaw? (store.registry.stateOf op.container).kind = none := by
  rw [(h.stateOf op.container).1]
  exact ha.log.sound.fits

theorem not_holds_new (h : store.Coherent) (ha : store.Admits op) (id : ContainerId) {a : AtomId}
    (hcovers : op.covers a = true) : (store.registry.stateOf id).holds a = false := by
  apply Bool.eq_false_iff.2
  intro hholds
  have hstored := (h.stateOf id).2.2 a hholds
  rw [ha.log.not_contains hcovers] at hstored
  cases hstored

/-- A container after an operation is the same container as before, or has taken it. -/
theorem state_absorb (h : store.Coherent) (ha : store.Admits op) {id : ContainerId}
    {state : ContainerState} (hget : (store.absorb op).registry.get? id = some state) :
    state = store.registry.stateOf id ∨
      id = op.container ∧ state = (store.registry.stateOf op.container).take op := by
  rw [absorb, Registry.get?_absorb (ha.created?_ne h.log)] at hget
  split at hget
  · next hid => exact .inr ⟨hid, hid ▸ (Option.some.inj hget).symm⟩
  · split at hget
    · exact .inl (Option.some.inj hget).symm
    · exact .inl (Registry.stateOf_of_get? hget).symm

theorem registered_absorb (h : store.Coherent) (ha : store.Admits op) (id : ContainerId) :
    (store.absorb op).registry.states.contains id = true ↔ (store.absorb op).log.Names id := by
  have hcontains : (store.absorb op).registry.states.contains id = true ↔
      op.container = id ∨ op.created? = some id ∨ store.registry.states.contains id = true := by
    rw [OrderedMap.contains_iff, OrderedMap.contains_iff]
    show (∃ v, (store.registry.absorb op).get? id = some v) ↔ _
    rw [Registry.get?_absorb (ha.created?_ne h.log)]
    split
    · next hid => simp [hid]
    · next hid =>
      split
      · next hcreated => simp [hcreated]
      · next hcreated =>
        refine ⟨?_, ?_⟩
        · exact fun hv => .inr (.inr hv)
        · intro hcase
          rcases hcase with heq | heq | hv
          · exact absurd heq.symm hid
          · exact absurd heq hcreated
          · exact hv
  rw [hcontains, h.registered]
  refine Iff.trans ?_ Log.names_push.symm
  refine ⟨?_, ?_⟩
  · intro hcase
    rcases hcase with heq | heq | hn
    · exact .inr (.inl heq)
    · exact .inr (.inr heq)
    · exact .inl hn
  · intro hcase
    rcases hcase with hn | heq | heq
    · exact .inr (.inr hn)
    · exact .inl heq
    · exact .inr (.inl heq)

/-- A container that can be used is a root or was created by a stored operation. -/
theorem creator_of_resolvable (h : store.Coherent) {id : ContainerId}
    (hid : store.registry.isResolvable id = true) :
    id.isRoot = true ∨ ∃ o, store.log.Stored o ∧ o.created? = some id := by
  rcases Registry.isResolvable_iff.1 hid with hroot | hcontains
  · exact .inl hroot
  · obtain ⟨o, ho, rfl | hcreated⟩ := (h.registered id).1 hcontains
    · exact h.creator ho
    · exact .inr ⟨o, ho, hcreated⟩

theorem resolvable_of_creator (h : store.Coherent) {id : ContainerId} {o : Operation}
    (ho : store.log.Stored o) (hcreated : o.created? = some id) :
    store.registry.isResolvable id = true :=
  Registry.isResolvable_iff.2 (.inr ((h.registered id).2 ⟨o, ho, .inr hcreated⟩))

theorem get?_created (h : store.Coherent) (ha : store.Admits op) {child : ContainerId}
    (hcreated : op.created? = some child) : store.registry.get? child = none := by
  apply Option.eq_none_iff_forall_ne_some.2
  intro state hget
  obtain ⟨kind, rfl⟩ := created?_eq hcreated
  have hresolvable : store.registry.isResolvable (.created op.id kind) = true :=
    Registry.isResolvable_iff.2 (.inr (OrderedMap.contains_iff.2 ⟨state, hget⟩))
  rcases h.creator_of_resolvable hresolvable with hroot | ⟨o, ho, hsame⟩
  · cases hroot
  · obtain ⟨kind', heq⟩ := created?_eq hsame
    have hid : op.id = o.id := (ContainerId.created.inj heq).1
    have hold := h.log.contains_of_covers ho (Operation.covers_id (h.log.sound ho).length_pos)
    rw [← hid, ha.log.not_contains (Operation.covers_id ha.log.sound.length_pos)] at hold
    cases hold

theorem absorb (h : store.Coherent) (ha : store.Admits op) : (store.absorb op).Coherent where
  log := h.log.push ha.log
  registered := h.registered_absorb ha
  creator := by
    have lift : ∀ {id : ContainerId}, (id.isRoot = true ∨
        ∃ o, store.log.Stored o ∧ o.created? = some id) → id.isRoot = true ∨
          ∃ o, (store.absorb op).log.Stored o ∧ o.created? = some id := by
      intro id hcase
      rcases hcase with hroot | ⟨o, ho, hcreated⟩
      · exact .inl hroot
      · exact .inr ⟨o, Log.stored_push.2 (.inl ho), hcreated⟩
    intro o ho
    rcases Log.stored_push.1 ho with ho | rfl
    · exact lift (h.creator ho)
    · exact lift (h.creator_of_resolvable ha.resolvable)
  kind := by
    intro id state hget
    rcases h.state_absorb ha hget with rfl | ⟨rfl, rfl⟩
    · exact (h.stateOf id).1
    · rw [ContainerState.kind_take _ (h.fits ha), (h.stateOf op.container).1]
  tidy := by
    intro id state hget
    rcases h.state_absorb ha hget with rfl | ⟨rfl, rfl⟩
    · exact (h.stateOf id).2.1
    · exact (h.stateOf op.container).2.1.take (h.fits ha)
  known := by
    intro id state a hget hholds
    refine ha.log.contains_push.2 ?_
    rcases h.state_absorb ha hget with rfl | ⟨rfl, rfl⟩
    · exact .inl ((h.stateOf id).2.2 a hholds)
    · rcases (h.stateOf op.container).2.1.holds_take (h.fits ha) hholds with hold | hnew
      · exact .inl ((h.stateOf op.container).2.2 a hold)
      · exact .inr hnew

end Coherent

end Store

/-! ## Documents -/

theorem Document.perform_eq {doc : Document} {op : Operation}
    (hresolvable : doc.registry.isResolvable op.container = true)
    (hnext : op.id.counter = doc.version.nextCounter op.id.peer) :
    doc.perform op =
      ({ doc with log := doc.log.push op, registry := doc.registry.absorb op },
        .ok (if (doc.registry.stateOf op.container).canApply op then []
          else [.noEffect op.id op.container])) := by
  have hregistry : (if (doc.registry.stateOf op.container).canApply op
      then (doc.registry.register op.container).set op.container
        ((doc.registry.stateOf op.container).apply op)
      else doc.registry.register op.container) =
        doc.registry.set op.container ((doc.registry.stateOf op.container).take op) := by
    refine Registry.ext fun id => ?_
    rw [Registry.get?_set]
    unfold ContainerState.take
    split
    · rw [Registry.get?_set, Registry.get?_register]
      split <;> rfl
    · rw [Registry.get?_register]
      split
      · next hid => rw [hid]
      · rfl
  unfold perform
  rw [Registry.resolve_eq hresolvable]
  dsimp only
  rw [hregistry, Log.append_eq hnext]
  rfl

end CausalDoc
