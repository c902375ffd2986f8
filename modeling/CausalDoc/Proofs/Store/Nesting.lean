import CausalDoc.Proofs.Store.Sources

/- How containers nest.

   A value stands in a cell: an element of a list, visible or not, or a field of a map. The
   values that operations carry are searched for references at every depth, so the only
   references in a store are those that creations put there: whole values, each in the cell
   that the creating operation names (`Store.Advances.reference`). An operation creates one
   container, in one cell, so no container is referred to twice. And the creation of the
   container it changes is among its dependencies, so a container is younger than the one
   that it nests in (`Store.Advances.younger`), and no way down comes back. -/

namespace CausalDoc

/-- A place in a container where a value stands. -/
inductive Cell where
  /-- An element of a list, visible or not. -/
  | element (container : ContainerId) (atom : AtomId)
  /-- A field of a map. -/
  | field (container : ContainerId) (key : String)
  deriving DecidableEq

def Cell.container : Cell → ContainerId
  | element id _ => id
  | field id _ => id

namespace Registry

def valueAt? (registry : Registry) : Cell → Option Value
  | .element id a =>
    (((registry.stateOf id).list?).bind fun s => s.elements.get? a).map Element.value
  | .field id key => ((registry.stateOf id).map?).bind fun f => f.get? key

theorem valueAt?_element {registry : Registry} {id : ContainerId} {a : AtomId} {v : Value} :
    registry.valueAt? (.element id a) = some v ↔
      ∃ s e, registry.stateOf id = .list s ∧ s.elements.get? a = some e ∧ e.value = v := by
  cases hstate : registry.stateOf id <;> simp [valueAt?, hstate, ContainerState.list?]

theorem valueAt?_field {registry : Registry} {id : ContainerId} {key : String} {v : Value} :
    registry.valueAt? (.field id key) = some v ↔
      ∃ f field, registry.stateOf id = .map f ∧ f.winners.get? key = some field ∧
        field.value = some v := by
  cases hstate : registry.stateOf id <;>
    simp [valueAt?, hstate, ContainerState.map?, Fields.get?, Option.bind_eq_some_iff]

/-- A cell of the container `parent` refers to the container `child`. -/
def Refers (registry : Registry) (parent child : ContainerId) : Prop :=
  ∃ cell, cell.container = parent ∧ registry.valueAt? cell = some (.container child)

end Registry

namespace Operation

variable {op : Operation}

/-- The cell in which the operation puts the container that it creates. -/
def cell? (op : Operation) : Option Cell :=
  match op.action with
  | .create (.after _) _ => some (.element op.container op.id)
  | .create (.key key) _ => some (.field op.container key)
  | _ => none

theorem container_of_cell? {cell : Cell} (h : op.cell? = some cell) :
    cell.container = op.container := by
  unfold cell? at h
  split at h
  · cases h
    rfl
  · cases h
    rfl
  · cases h

/-- Of the values that an operation inserts only a new container is a reference. -/
theorem listInsertion?_reference (hplain : op.action.holdsContainer = false)
    {i : Insertion Value} {n : Nat} {v : Value} (hi : op.listInsertion? = some i)
    (hv : i.values[n]? = some v) (hholds : v.holdsContainer = true) :
    op.cell? = some (.element op.container (op.id.forward n)) ∧
      ∃ child, op.created? = some child ∧ v = .container child := by
  unfold listInsertion? at hi
  split at hi
  · next anchor vs haction =>
    cases hi
    rw [haction] at hplain
    have hfree := Value.itemsHoldContainer_eq_false.1 hplain v (List.mem_of_getElem? hv)
    rw [hfree] at hholds
    cases hholds
  · next anchor kind haction =>
    cases hi
    have hfirst : n = 0 ∧ .container (.created op.id kind) = v := by
      cases n with
      | zero => simpa using hv
      | succ n => simp at hv
    obtain ⟨rfl, rfl⟩ := hfirst
    simp [cell?, created?, haction]
  · cases hi

theorem fieldWrite?_reference (hplain : op.action.holdsContainer = false) {key : String}
    {v : Value} (hw : op.fieldWrite? = some (key, some v)) (hholds : v.holdsContainer = true) :
    op.cell? = some (.field op.container key) ∧
      ∃ child, op.created? = some child ∧ v = .container child := by
  unfold fieldWrite? at hw
  split at hw
  · next k value haction =>
    cases hw
    rw [haction] at hplain
    change v.holdsContainer = false at hplain
    rw [hplain] at hholds
    cases hholds
  · next k kind haction =>
    cases hw
    simp [cell?, created?, haction]
  · cases hw

end Operation

namespace Store.Advances

variable {store : Store} (h : Store.empty.Advances store)

include h

/-- A value that holds a reference is one, to a container that a stored operation created in this
very cell. -/
theorem reference {cell : Cell} {v : Value} (hv : store.registry.valueAt? cell = some v)
    (hholds : v.holdsContainer = true) :
    ∃ op child, store.log.Stored op ∧ op.cell? = some cell ∧ op.created? = some child ∧
      v = .container child := by
  have hlog := (coherent_empty.advances h).log
  cases cell with
  | element id a =>
    obtain ⟨s, e, hstate, hget, rfl⟩ := Registry.valueAt?_element.1 hv
    have hsources := h.sources id
    rw [hstate] at hsources
    obtain ⟨op, i, n, hop, rfl, hi, hvalue, rfl⟩ := hsources a e hget
    obtain ⟨hcell, child, hcreated, heq⟩ :=
      Operation.listInsertion?_reference (hlog.sound hop).plain hi hvalue hholds
    exact ⟨op, child, hop, hcell, hcreated, heq⟩
  | field id key =>
    obtain ⟨f, field, hstate, hget, hvalue⟩ := Registry.valueAt?_field.1 hv
    have hsources := h.sources id
    rw [hstate] at hsources
    obtain ⟨op, value, ⟨hop, rfl, hw⟩, rfl, -⟩ := Records.winner hsources hget
    change value = some v at hvalue
    rw [hvalue] at hw
    obtain ⟨hcell, child, hcreated, heq⟩ :=
      Operation.fieldWrite?_reference (hlog.sound hop).plain hw hholds
    exact ⟨op, child, hop, hcell, hcreated, heq⟩

theorem creator_of_reference {cell : Cell} {child : ContainerId}
    (hv : store.registry.valueAt? cell = some (.container child)) :
    ∃ op, store.log.Stored op ∧ op.cell? = some cell ∧ op.created? = some child := by
  obtain ⟨op, created, hop, hcell, hcreated, heq⟩ := h.reference hv rfl
  cases heq
  exact ⟨op, hop, hcell, hcreated⟩

theorem registered_of_reference {cell : Cell} {child : ContainerId}
    (hv : store.registry.valueAt? cell = some (.container child)) :
    store.registry.states.contains child = true := by
  obtain ⟨op, hop, -, hcreated⟩ := h.creator_of_reference hv
  exact ((coherent_empty.advances h).registered child).2 ⟨op, hop, .inr hcreated⟩

/-- A container is referred to from one cell only. -/
theorem cell_unique {cell cell' : Cell} {child : ContainerId}
    (hv : store.registry.valueAt? cell = some (.container child))
    (hv' : store.registry.valueAt? cell' = some (.container child)) : cell = cell' := by
  have hlog := (coherent_empty.advances h).log
  obtain ⟨op, hop, hcell, hcreated⟩ := h.creator_of_reference hv
  obtain ⟨op', hop', hcell', hcreated'⟩ := h.creator_of_reference hv'
  -- the name of the container tells its creation
  obtain ⟨kind, rfl⟩ := created?_eq hcreated
  obtain ⟨kind', heq⟩ := created?_eq hcreated'
  have hid : op.id = op'.id := (ContainerId.created.inj heq).1
  have hsame : op = op' := by
    apply hlog.eq_of_covers hop hop' (Operation.covers_id (hlog.sound hop).length_pos)
    rw [hid]
    exact Operation.covers_id (hlog.sound hop').length_pos
  rw [hsame, hcell', Option.some.injEq] at hcell
  exact hcell.symm

theorem younger {parent child : ContainerId} (hrefers : store.registry.Refers parent child) :
    ∃ creator l, child.creator? = some creator ∧ store.log.lamport? creator = some l ∧
      ∀ c, parent.creator? = some c → ∃ k, store.log.lamport? c = some k ∧ k < l := by
  have hlog := (coherent_empty.advances h).log
  obtain ⟨cell, rfl, hv⟩ := hrefers
  obtain ⟨op, hop, hcell, hcreated⟩ := h.creator_of_reference hv
  obtain ⟨kind, rfl⟩ := created?_eq hcreated
  refine ⟨op.id, op.lamport, rfl, hlog.lamport?_id hop, fun c hc => ?_⟩
  rw [Operation.container_of_cell? hcell] at hc
  exact hlog.deps hop c (Operation.mem_dependencies.2 (.inr (.inr hc)))

end Store.Advances

end CausalDoc
