import CausalDoc.Proofs.Operation

/- References inside values.

   A value mentions a container when a reference to it stands in the value at any depth
   (`Value.Mentions`). The search that every value goes through before it is written finds
   exactly the values that mention some container (`Value.holdsContainer_iff`). -/

namespace CausalDoc

namespace Value

/-- A reference to the container stands in the value, on top, in an item or in a field. -/
inductive Mentions (id : ContainerId) : Value → Prop where
  | here : Mentions id (.container id)
  | item {v : Value} {items : List Value} : v ∈ items → Mentions id v → Mentions id (.list items)
  | field {e : String × Value} {fields : List (String × Value)} :
      e ∈ fields → Mentions id e.2 → Mentions id (.map fields)

theorem mentions_list {id : ContainerId} {items : List Value} :
    Mentions id (.list items) ↔ ∃ v ∈ items, Mentions id v := by
  refine ⟨fun h => ?_, fun h => ?_⟩
  · cases h with
    | item hv hmentions => exact ⟨_, hv, hmentions⟩
  · obtain ⟨v, hv, hmentions⟩ := h
    exact .item hv hmentions

theorem mentions_map {id : ContainerId} {fields : List (String × Value)} :
    Mentions id (.map fields) ↔ ∃ e ∈ fields, Mentions id e.2 := by
  refine ⟨fun h => ?_, fun h => ?_⟩
  · cases h with
    | field he hmentions => exact ⟨_, he, hmentions⟩
  · obtain ⟨e, he, hmentions⟩ := h
    exact .field he hmentions

theorem itemsHoldContainer_iff {items : List Value} :
    itemsHoldContainer items = true ↔ ∃ v ∈ items, v.holdsContainer = true := by
  rw [← Bool.not_eq_false, itemsHoldContainer_eq_false]
  simp

theorem fieldsHoldContainer_iff {fields : List (String × Value)} :
    fieldsHoldContainer fields = true ↔ ∃ e ∈ fields, e.2.holdsContainer = true := by
  rw [← Bool.not_eq_false, fieldsHoldContainer_eq_false]
  simp

/-- The search finds the values that mention a container. -/
theorem holdsContainer_iff : ∀ v : Value, v.holdsContainer = true ↔ ∃ id, v.Mentions id
  | null | bool _ | int _ | double _ | string _ => by
    refine ⟨fun h => by simp [holdsContainer] at h, fun h => ?_⟩
    obtain ⟨id, hmentions⟩ := h
    cases hmentions
  | container id => ⟨fun _ => ⟨id, .here⟩, fun _ => rfl⟩
  | list items => by
    have ih : ∀ v ∈ items, (v.holdsContainer = true ↔ ∃ id, v.Mentions id) := fun v hv =>
      holdsContainer_iff v
    simp only [holdsContainer, itemsHoldContainer_iff, mentions_list]
    refine ⟨fun ⟨v, hv, hholds⟩ => ?_, fun ⟨id, v, hv, hmentions⟩ => ?_⟩
    · obtain ⟨id, hmentions⟩ := (ih v hv).1 hholds
      exact ⟨id, v, hv, hmentions⟩
    · exact ⟨v, hv, (ih v hv).2 ⟨id, hmentions⟩⟩
  | map fields => by
    have ih : ∀ e ∈ fields, (e.2.holdsContainer = true ↔ ∃ id, e.2.Mentions id) := fun e he =>
      holdsContainer_iff e.2
    simp only [holdsContainer, fieldsHoldContainer_iff, mentions_map]
    refine ⟨fun ⟨e, he, hholds⟩ => ?_, fun ⟨id, e, he, hmentions⟩ => ?_⟩
    · obtain ⟨id, hmentions⟩ := (ih e he).1 hholds
      exact ⟨id, e, he, hmentions⟩
    · exact ⟨e, he, (ih e he).2 ⟨id, hmentions⟩⟩
termination_by v => sizeOf v
decreasing_by
  · have := List.sizeOf_lt_of_mem hv
    simp only [list.sizeOf_spec]
    omega
  · have hlt := List.sizeOf_lt_of_mem he
    obtain ⟨key, v⟩ := e
    simp only [Prod.mk.sizeOf_spec] at hlt
    simp only [map.sizeOf_spec]
    omega

end Value

end CausalDoc
