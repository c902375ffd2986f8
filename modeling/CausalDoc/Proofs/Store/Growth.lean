import CausalDoc.Proofs.Store.Order

/- What grows with every operation.

   Containers change under the operations that a store takes, but only in one direction: an
   element that is there stays, with its value, its stamp and its parent, and once deleted
   it stays deleted; a field is won by ever later stamps; a registered container stays
   registered; and the log only gets longer, so every look-up that was answered is answered
   alike. Each of these is a preorder (`Grows`), one operation goes up in it, and so does
   any number of them (`Store.Advances.grows`). -/

namespace CausalDoc

/-! ## Sequences -/

namespace Sequence

variable {α : Type} {s t u : Sequence α} {id : AtomId} {stamp : Stamp} {parent : Option AtomId}

/-- Every element of `s` is in `t`, at its place in the tree and with its value and stamp, and is
deleted there if it was. -/
structure Grows (s t : Sequence α) : Prop where
  element : ∀ a e, s.elements.get? a = some e → ∃ e', t.elements.get? a = some e' ∧
    e'.value = e.value ∧ e'.stamp = e.stamp ∧ (e.deleted = true → e'.deleted = true)
  parent : ∀ a, s.contains a = true → ∀ p, a ∈ t.childrenOf p ↔ a ∈ s.childrenOf p

namespace Grows

theorem refl (s : Sequence α) : s.Grows s where
  element := fun _ e he => ⟨e, he, rfl, rfl, id⟩
  parent := fun _ _ _ => Iff.rfl

theorem contains (h : s.Grows t) {a : AtomId} (ha : s.contains a = true) :
    t.contains a = true := by
  obtain ⟨e, he⟩ := contains_iff.1 ha
  obtain ⟨e', he', -⟩ := h.element a e he
  exact contains_iff.2 ⟨e', he'⟩

theorem trans (h : s.Grows t) (h' : t.Grows u) : s.Grows u where
  element := by
    intro a e he
    obtain ⟨e', he', hvalue, hstamp, hdeleted⟩ := h.element a e he
    obtain ⟨e'', he'', hvalue', hstamp', hdeleted'⟩ := h'.element a e' he'
    exact ⟨e'', he'', hvalue'.trans hvalue, hstamp'.trans hstamp,
      fun hd => hdeleted' (hdeleted hd)⟩
  parent := fun a ha p => (h'.parent a (h.contains ha) p).trans (h.parent a ha p)

end Grows

theorem grows_insert (s : Sequence α) (id : AtomId) (stamp : Stamp) (parent : Option AtomId)
    (value : α) : s.Grows (s.insert id stamp parent value) := by
  cases hid : s.contains id with
  | true =>
    rw [insert_of_contains hid]
    exact .refl s
  | false =>
    have hne : ∀ {a : AtomId}, s.contains a = true → a ≠ id := by
      intro a ha heq
      rw [heq, hid] at ha
      cases ha
    refine ⟨fun a e he => ⟨e, ?_, rfl, rfl, fun hd => hd⟩, fun a ha p => ?_⟩
    · rw [get?_insert hid, if_neg (hne (contains_iff.2 ⟨e, he⟩))]
      exact he
    · rw [mem_childrenOf_insert hid]
      exact or_iff_right fun hnew => hne ha hnew.1

theorem grows_insertEach (values : List α) :
    ∀ (s : Sequence α) (id : AtomId) (stamp : Stamp) (parent : Option AtomId),
      s.Grows (s.insertEach id stamp parent values) := by
  induction values with
  | nil => exact fun s _ _ _ => .refl s
  | cons value values ih =>
    exact fun s id stamp parent => (s.grows_insert id stamp parent value).trans (ih _ _ _ _)

theorem grows_deleteAll (s : Sequence α) (ids : List AtomId) : s.Grows (s.deleteAll ids) where
  element := by
    intro a e he
    refine ⟨e.marked (decide (a ∈ ids)), ?_, rfl, rfl, fun hd => ?_⟩
    · rw [get?_deleteAll, he]
      rfl
    · rw [Element.marked, hd, Bool.true_or]
  parent := fun a _ p => by rw [childrenOf_deleteAll]

theorem Tidy.grows_take (h : s.Tidy) (op : Operation) (insertion : Option (Insertion α)) :
    s.Grows (s.take op insertion) := by
  unfold Sequence.take
  split
  · next i =>
    split
    · next hanchor =>
      rw [h.insertRun_eq_insertEach hanchor]
      exact grows_insertEach i.values s _ _ _
    · exact .refl s
  · exact s.grows_deleteAll op.targets

end Sequence

/-! ## Maps -/

namespace Fields

/-- A field that was written is still won by the same write, or by one with a later stamp. -/
def Grows (f g : Fields) : Prop :=
  ∀ key field, f.winners.get? key = some field →
    ∃ field', g.winners.get? key = some field' ∧ (field' = field ∨ field.stamp < field'.stamp)

theorem Grows.refl (f : Fields) : f.Grows f := fun _ field h => ⟨field, h, .inl rfl⟩

theorem Grows.trans {f g h : Fields} (hfg : f.Grows g) (hgh : g.Grows h) : f.Grows h := by
  intro key field hfield
  obtain ⟨field', hfield', hwins⟩ := hfg key field hfield
  obtain ⟨field'', hfield'', hwins'⟩ := hgh key field' hfield'
  refine ⟨field'', hfield'', ?_⟩
  rcases hwins with rfl | hlt
  · exact hwins'
  · rcases hwins' with rfl | hlt'
    · exact .inr hlt
    · exact .inr (Stamp.lt_trans hlt hlt')

theorem grows_write (fields : Fields) (key : String) (field : Field) :
    fields.Grows (fields.write key field) := by
  intro k current hcurrent
  rw [get?_write]
  split
  · next hwins =>
    obtain ⟨rfl, hlater⟩ := hwins
    exact ⟨field, rfl, .inr (hlater current hcurrent)⟩
  · exact ⟨current, hcurrent, .inl rfl⟩

theorem grows_take (fields : Fields) (op : Operation) : fields.Grows (fields.take op) := by
  unfold take
  split
  · exact grows_write fields _ _
  · exact .refl fields

end Fields

/-! ## Containers -/

namespace ContainerState

/-- The container is of the same kind, and what it holds has grown. -/
inductive Grows : ContainerState → ContainerState → Prop where
  | list {s t : Sequence Value} : s.Grows t → Grows (list s) (list t)
  | text {s t : Sequence Char} : s.Grows t → Grows (text s) (text t)
  | map {f g : Fields} : f.Grows g → Grows (map f) (map g)

theorem Grows.refl : ∀ state : ContainerState, state.Grows state
  | .list s => .list (.refl s)
  | .text s => .text (.refl s)
  | .map f => .map (.refl f)

theorem Grows.trans {state state' state'' : ContainerState} (h : state.Grows state')
    (h' : state'.Grows state'') : state.Grows state'' := by
  cases h with
  | list h => cases h' with | list h' => exact .list (h.trans h')
  | text h => cases h' with | text h' => exact .text (h.trans h')
  | map h => cases h' with | map h' => exact .map (h.trans h')

theorem Tidy.grows_take {state : ContainerState} {op : Operation} (h : state.Tidy)
    (hfits : op.action.flaw? state.kind = none) : state.Grows (state.take op) := by
  cases state with
  | list s =>
    rw [take_list s hfits]
    exact .list (Sequence.Tidy.grows_take h op _)
  | text s =>
    rw [take_text s hfits]
    exact .text (Sequence.Tidy.grows_take h op _)
  | map f =>
    rw [take_map f hfits]
    exact .map (f.grows_take op)

end ContainerState

/-! ## Stores -/

namespace Store

variable {store store' store'' : Store} {op : Operation}

/-- Nothing that the store knows is lost or changed in `store'`, and its containers have grown. -/
structure Grows (store store' : Store) : Prop where
  /-- The version does not shrink. -/
  version : store'.log.version.includesAll store.log.version = true
  /-- A stored atom belongs to the same operation. -/
  get? : ∀ a op, store.log.get? a = some op → store'.log.get? a = some op
  /-- It has the same Lamport time. -/
  lamport? : ∀ a l, store.log.lamport? a = some l → store'.log.lamport? a = some l
  /-- A registered container is registered and has grown. -/
  container : ∀ id state, store.registry.get? id = some state →
    ∃ state', store'.registry.get? id = some state' ∧ state.Grows state'

theorem Grows.refl (store : Store) : store.Grows store where
  version := VersionVector.includesAll_iff.2 fun _ ha => ha
  get? := fun _ _ h => h
  lamport? := fun _ _ h => h
  container := fun _ state h => ⟨state, h, .refl state⟩

theorem Grows.trans (h : store.Grows store') (h' : store'.Grows store'') :
    store.Grows store'' where
  version := VersionVector.includesAll_iff.2 fun a ha =>
    VersionVector.includesAll_iff.1 h'.version a (VersionVector.includesAll_iff.1 h.version a ha)
  get? := fun a op hget => h'.get? a op (h.get? a op hget)
  lamport? := fun a l hl => h'.lamport? a l (h.lamport? a l hl)
  container := fun id state hget => by
    obtain ⟨state', hget', hgrows⟩ := h.container id state hget
    obtain ⟨state'', hget'', hgrows'⟩ := h'.container id state' hget'
    exact ⟨state'', hget'', hgrows.trans hgrows'⟩

theorem Coherent.grows_absorb (h : store.Coherent) (ha : store.Admits op) :
    store.Grows (store.absorb op) where
  version := VersionVector.includesAll_iff.2 fun _ hin => ha.log.contains_push.2 (.inl hin)
  get? := fun _ _ hget => Log.get?_push_of_get? hget
  lamport? := fun _ _ hl => Log.lamport?_push_of_lamport? hl
  container := fun id state hget => by
    show ∃ state', (store.registry.absorb op).get? id = some state' ∧ _
    rw [Registry.get?_absorb (ha.created?_ne h.log), Registry.stateOf_of_get? hget]
    split
    · next hid =>
      refine ⟨_, rfl, (h.tidy hget).grows_take ?_⟩
      rw [h.kind hget, hid]
      exact ha.log.sound.fits
    · split
      · exact ⟨state, rfl, .refl state⟩
      · exact ⟨state, hget, .refl state⟩

theorem Advances.grows (h : store.Coherent) (hadv : store.Advances store') :
    store.Grows store' := by
  induction hadv with
  | refl => exact .refl store
  | @tail before _ hadv hstep ih =>
    obtain ⟨op, ha, rfl⟩ := hstep
    exact ih.trans ((h.advances hadv).grows_absorb ha)

theorem Advances.stored (hadv : store.Advances store') {o : Operation} (ho : store.log.Stored o) :
    store'.log.Stored o := by
  induction hadv with
  | refl => exact ho
  | tail _ hstep ih =>
    obtain ⟨op, -, rfl⟩ := hstep
    exact Log.stored_push.2 (.inl ih)

end Store

end CausalDoc
