import CausalDoc.Proofs.Document.Reachable
import CausalDoc.Proofs.Store.Content
import Mathlib.Data.Option.Basic

/- How the containers of a document nest.

   Whatever bytes a document receives, its registered containers are those that its log
   names, and a reference leads from a container to one that was created later. So with the
   Lamport times of their creation as ranks the containers are nested
   (`Store.Advances.nested`): they form a forest, and the content of the document is found
   in finitely many steps (`Reachable.nests`). -/

namespace CausalDoc

/-- The time from which a container is there: a root from the start, any other one from its
creation. -/
def Log.birth (log : Log) (id : ContainerId) : Nat :=
  ((id.creator?.bind log.lamport?).map (· + 1)).getD 0

theorem Store.Advances.nested {store : Store} (h : Store.empty.Advances store) :
    store.registry.Nested store.log.birth where
  whole := by
    intro cell v hv hholds
    obtain ⟨-, child, -, -, -, heq⟩ := h.reference hv hholds
    exact ⟨child, heq⟩
  registered := by
    intro parent child hrefers
    obtain ⟨cell, -, hv⟩ := hrefers
    exact h.registered_of_reference hv
  higher := by
    intro parent child hrefers
    obtain ⟨creator, l, hcreator, hl, hparent⟩ := h.younger hrefers
    have hchild : store.log.birth child = l + 1 := by simp [Log.birth, hcreator, hl]
    rw [hchild]
    cases hp : parent.creator? with
    | none => simp [Log.birth, hp]
    | some c =>
      obtain ⟨k, hk, hlt⟩ := hparent c hp
      simpa [Log.birth, hp, hk] using hlt

namespace Document

variable {doc : Document}

/-- The containers of the document form a forest. -/
structure Forest (doc : Document) : Prop where
  /-- The registered containers that are no roots are those that logged operations create. -/
  created : ∀ id : ContainerId, id.isRoot = false →
    (doc.registry.states.contains id = true ↔
      ∃ op, doc.log.Stored op ∧ op.created? = some id)
  /-- The registered roots are those that logged operations change. -/
  roots : ∀ id : ContainerId, id.isRoot = true →
    (doc.registry.states.contains id = true ↔ ∃ op, doc.log.Stored op ∧ op.container = id)
  kind : ∀ id state, doc.registry.get? id = some state → state.kind = id.kind
  /-- A reference is a whole value, and names a registered container. -/
  reference : ∀ cell v, doc.registry.valueAt? cell = some v → v.holdsContainer = true →
    ∃ child, v = .container child ∧ doc.registry.states.contains child = true
  /-- No container is referred to from two cells. -/
  single : ∀ cell cell' child, doc.registry.valueAt? cell = some (.container child) →
    doc.registry.valueAt? cell' = some (.container child) → cell = cell'
  /-- A container is younger than the one that refers to it. -/
  younger : ∀ parent child, doc.registry.Refers parent child →
    ∃ creator l, child.creator? = some creator ∧ doc.log.lamport? creator = some l ∧
      ∀ c, parent.creator? = some c → ∃ k, doc.log.lamport? c = some k ∧ k < l
  acyclic : ∀ id, ¬ Relation.TransGen doc.registry.Refers id id

/-- The content of the document is found in finitely many steps, and is free of references. -/
structure Materializes (doc : Document) : Prop where
  /-- Every way down ends. -/
  ends : WellFounded fun child parent => doc.registry.Refers parent child
  /-- The content is what the recursion along references makes when nothing bounds it. -/
  unbounded : ∀ id, doc.registry.content id = doc.registry.opened doc.registry.content id
  /-- No other content is. -/
  unique : ∀ f : ContainerId → Value, (∀ id, f id = doc.registry.opened f id) →
    f = doc.registry.content
  /-- A larger bound on the depth makes no difference. -/
  depth : ∀ id depth, doc.registry.size ≤ depth →
    doc.registry.contentWithin depth id = doc.registry.content id
  /-- A container that can be used has a content, without references. -/
  container : ∀ id, doc.registry.isResolvable id = true →
    ∃ v, doc.contentOf id = .ok v ∧ v.holdsContainer = false
  /-- So has the document, and its JSON document is made of this content. -/
  document : doc.toJson = doc.content.toJson ∧ doc.content.holdsContainer = false

theorem Lawful.forest (h : doc.Lawful) : doc.Forest where
  created := by
    intro id hid
    refine (h.store.registered id).trans ⟨?_, ?_⟩
    · intro hnames
      obtain ⟨op, hop, rfl | hcreated⟩ := hnames
      · exact (h.store.creator hop).resolve_left (by simp [hid])
      · exact ⟨op, hop, hcreated⟩
    · intro hgiven
      obtain ⟨op, hop, hcreated⟩ := hgiven
      exact ⟨op, hop, .inr hcreated⟩
  roots := by
    intro id hid
    refine (h.store.registered id).trans ⟨?_, ?_⟩
    · intro hnames
      obtain ⟨op, hop, hcontainer | hcreated⟩ := hnames
      · exact ⟨op, hop, hcontainer⟩
      · obtain ⟨kind, rfl⟩ := Store.created?_eq hcreated
        cases hid
    · intro hgiven
      obtain ⟨op, hop, hcontainer⟩ := hgiven
      exact ⟨op, hop, .inl hcontainer⟩
  kind := fun id state hget => h.store.kind hget
  reference := by
    intro cell v hv hholds
    obtain ⟨child, rfl⟩ := h.advances.nested.whole hv hholds
    exact ⟨child, rfl, h.advances.registered_of_reference hv⟩
  single := fun cell cell' child hv hv' => h.advances.cell_unique hv hv'
  younger := fun parent child hrefers => h.advances.younger hrefers
  acyclic := h.advances.nested.acyclic

theorem Lawful.materializes (h : doc.Lawful) : doc.Materializes := by
  have hnested : doc.registry.Nested doc.log.birth := h.advances.nested
  have hcontent : ∀ id, (doc.registry.content id).holdsContainer = false :=
    fun id => hnested.plain doc.registry.size id
  refine ⟨hnested.ends, hnested.content_eq, fun f hf => hnested.content_unique hf,
    fun id depth hdepth => hnested.contentWithin_of_size_le hdepth, fun id hid => ?_, rfl, ?_⟩
  · exact ⟨doc.registry.content id, if_pos hid, hcontent id⟩
  · rw [content, Value.ofFields, Value.holdsContainer, Value.fieldsHoldContainer_eq_false]
    intro field hfield
    obtain ⟨id, -, rfl⟩ := List.mem_map.1 (Entries.mem_of_mem_ofList hfield)
    exact hcontent id

/-- The containers of a reachable document form a forest, and to materialize them comes to an end:
the result holds no reference at any depth. -/
theorem Reachable.nests (h : doc.Reachable) : doc.Forest ∧ doc.Materializes :=
  ⟨h.lawful.forest, h.lawful.materializes⟩

/-- A map with a list in one of its fields. -/
def shelf : Document :=
  let made := ((new Config.standard 1).edit (.root "m" .map) (.setContainer "k" .list) 0).document
  (made.edit (.created ⟨1, 0⟩ .list) (.insertValues 0 [.null]) 0).document

/-- The list is in the one cell that refers to it, and the content of the map shows what it holds. -/
theorem nests_shelf :
    shelf.registry.states.contains (.created ⟨1, 0⟩ .list) = true ∧
      (∀ cell, shelf.registry.valueAt? cell = some (.container (.created ⟨1, 0⟩ .list)) →
        cell = .field (.root "m" .map) "k") ∧
      shelf.content = .map [("m", .map [("k", .list [.null])])] ∧
      shelf.content.holdsContainer = false := by
  have hreachable : shelf.Reachable :=
    .edit _ _ _ (.edit _ _ _ (.new Config.standard 1 (by decide)) trivial (by decide))
      (by simp [Edit.Writable, Value.ItemsWritable, Value.Writable]) (by decide)
  have hcell : shelf.registry.valueAt? (.field (.root "m" .map) "k") =
      some (.container (.created ⟨1, 0⟩ .list)) := by decide +kernel
  have hshown : shelf.content = .map [("m", .map [("k", .list [.null])])] := by decide +kernel
  obtain ⟨hforest, hmaterializes⟩ := Reachable.nests hreachable
  obtain ⟨child, heq, hregistered⟩ := hforest.reference _ _ hcell rfl
  cases heq
  obtain ⟨-, hplain⟩ := hmaterializes.document
  exact ⟨hregistered, fun cell hv => hforest.single _ _ _ hv hcell, hshown, hplain⟩

end Document

end CausalDoc
