import CausalDoc.Document.Content
import CausalDoc.Proofs.Store.Nesting

/- The content of containers.

   Content replaces references by what they refer to, and so on down. Where references lead
   to registered containers of higher rank only (`Registry.Nested`), fewer and fewer
   containers are of higher rank on the way down (`Nested.above_lt`). So every way down ends,
   the bound on the depth is never felt (`Nested.contentWithin_of_size_le`), and no reference
   is left (`Nested.plain`). -/

namespace CausalDoc

theorem Sequence.exists_of_mem_toList {α : Type} {s : Sequence α} {v : α} (h : v ∈ s.toList) :
    ∃ a e, s.elements.get? a = some e ∧ e.value = v := by
  have hv : some v ∈ s.toList.map some := List.mem_map_of_mem h
  rw [map_toList] at hv
  obtain ⟨a, -, ha⟩ := List.mem_map.1 hv
  obtain ⟨e, hget, -, hvalue⟩ := value?_eq_some_iff.1 ha
  exact ⟨a, e, hget, hvalue⟩

theorem Fields.exists_of_mem_toList {f : Fields} {e : String × Value} (h : e ∈ f.toList) :
    ∃ field, f.winners.get? e.1 = some field ∧ field.value = some e.2 := by
  obtain ⟨⟨key, field⟩, hentry, hvalue⟩ := List.mem_filterMap.1 h
  obtain ⟨v, hv, rfl⟩ := Option.map_eq_some_iff.1 hvalue
  exact ⟨field, (OrderedMap.get?_eq_some_iff _).2 hentry, hv⟩

/-- The value, or what a reference refers to. -/
def Value.opened (content : ContainerId → Value) : Value → Value
  | .container child => content child
  | v => v

namespace Registry

/-- What a container holds, each reference in it replaced by the content that is given for what it
refers to. -/
def opened (registry : Registry) (content : ContainerId → Value) (id : ContainerId) : Value :=
  match registry.get? id with
  | some (.list s) => .list (s.toList.map (Value.opened content))
  | some (.map f) => .map (f.toList.map fun e => (e.1, e.2.opened content))
  | some (.text s) => .string s.string
  | none => id.kind.emptyContent

/-- References are whole values, and lead to registered containers of higher rank. -/
structure Nested (registry : Registry) (rank : ContainerId → Nat) : Prop where
  whole : ∀ {cell : Cell} {v : Value}, registry.valueAt? cell = some v →
    v.holdsContainer = true → ∃ child, v = .container child
  registered : ∀ {parent child : ContainerId}, registry.Refers parent child →
    registry.states.contains child = true
  higher : ∀ {parent child : ContainerId}, registry.Refers parent child →
    rank parent < rank child

/-- The number of registered containers of higher rank. -/
def above (registry : Registry) (rank : ContainerId → Nat) (id : ContainerId) : Nat :=
  (registry.states.keys.filter fun c => rank id < rank c).length

variable {registry : Registry} {rank : ContainerId → Nat} {id : ContainerId}

/-! ## One level -/

theorem contentWithin_succ (depth : Nat) :
    registry.contentWithin (depth + 1) id = registry.opened (registry.contentWithin depth) id := by
  rw [contentWithin, opened]
  cases registry.get? id with
  | none => rfl
  | some state =>
    cases state with
    | text s => rfl
    | list s =>
      apply congrArg Value.list
      apply List.map_congr_left
      intro v _
      cases v <;> rfl
    | map f =>
      apply congrArg Value.map
      apply List.map_congr_left
      intro e _
      obtain ⟨key, v⟩ := e
      cases v <;> rfl

theorem contentWithin_of_none (h : registry.get? id = none) (depth : Nat) :
    registry.contentWithin depth id = id.kind.emptyContent := by
  cases depth with
  | zero => rfl
  | succ depth => rw [contentWithin_succ, opened, h]

theorem valueAt?_of_mem_list {s : Sequence Value} (hget : registry.get? id = some (.list s))
    {v : Value} (hv : v ∈ s.toList) : ∃ cell, cell.container = id ∧
      registry.valueAt? cell = some v := by
  obtain ⟨a, e, he, hvalue⟩ := Sequence.exists_of_mem_toList hv
  exact ⟨.element id a, rfl, valueAt?_element.2 ⟨s, e, stateOf_of_get? hget, he, hvalue⟩⟩

theorem valueAt?_of_mem_map {f : Fields} (hget : registry.get? id = some (.map f))
    {e : String × Value} (he : e ∈ f.toList) : ∃ cell, cell.container = id ∧
      registry.valueAt? cell = some e.2 := by
  obtain ⟨field, hfield, hvalue⟩ := Fields.exists_of_mem_toList he
  exact ⟨.field id e.1, rfl, valueAt?_field.2 ⟨f, field, stateOf_of_get? hget, hfield, hvalue⟩⟩

/-- What a container holds depends on the content of those only that it refers to. -/
theorem opened_congr {f g : ContainerId → Value}
    (h : ∀ child, registry.Refers id child → f child = g child) :
    registry.opened f id = registry.opened g id := by
  have hvalue : ∀ {cell v}, cell.container = id → registry.valueAt? cell = some v →
      v.opened f = v.opened g := by
    intro cell v hcell hv
    cases v with
    | container child => exact h child ⟨cell, hcell, hv⟩
    | null | bool b | int n | double d | string s | list items | map fields => rfl
  unfold opened
  split
  · next s hget =>
    apply congrArg Value.list
    apply List.map_congr_left
    intro v hv
    obtain ⟨cell, hcell, hat⟩ := valueAt?_of_mem_list hget hv
    exact hvalue hcell hat
  · next m hget =>
    apply congrArg Value.map
    apply List.map_congr_left
    intro e he
    obtain ⟨cell, hcell, hat⟩ := valueAt?_of_mem_map hget he
    rw [hvalue hcell hat]
  · rfl
  · rfl

/-! ## All levels -/

theorem above_lt_size (h : registry.states.contains id = true) :
    registry.above rank id < registry.size := by
  have hkey : id ∈ registry.states.keys := OrderedMap.mem_keys.2 (OrderedMap.contains_iff.1 h)
  calc registry.above rank id
      < registry.states.keys.length :=
        List.length_filter_lt_length_iff_exists.2 ⟨id, hkey, by simp⟩
    _ = registry.size := List.length_map _

namespace Nested

variable (h : registry.Nested rank)

include h

/-- On the way down fewer and fewer containers are of higher rank. -/
theorem above_lt {parent child : ContainerId} (hrefers : registry.Refers parent child) :
    registry.above rank child < registry.above rank parent := by
  have hlt := h.higher hrefers
  have hkey : child ∈ registry.states.keys :=
    OrderedMap.mem_keys.2 (OrderedMap.contains_iff.1 (h.registered hrefers))
  -- those above the child are among those above the parent, and so is the child
  have hfilter : registry.states.keys.filter (fun c => rank child < rank c) =
      (registry.states.keys.filter fun c => rank parent < rank c).filter
        fun c => rank child < rank c := by
    rw [List.filter_filter]
    apply List.filter_congr
    intro c _
    by_cases hc : rank child < rank c
    · simp [hc, Nat.lt_trans hlt hc]
    · simp [hc]
  unfold above
  rw [hfilter]
  apply List.length_filter_lt_length_iff_exists.2
  exact ⟨child, by simp [hkey, hlt], by simp⟩

/-- Every way down ends. -/
theorem ends : WellFounded fun child parent => registry.Refers parent child :=
  Subrelation.wf (fun hrefers => h.above_lt hrefers) (measure (registry.above rank)).wf

theorem acyclic (id : ContainerId) : ¬ Relation.TransGen registry.Refers id id := by
  intro hcycle
  have hup : ∀ {c}, Relation.TransGen registry.Refers id c → rank id < rank c := by
    intro c hway
    induction hway with
    | single hlast => exact h.higher hlast
    | tail _ hlast ih => exact Nat.lt_trans ih (h.higher hlast)
  exact Nat.lt_irrefl _ (hup hcycle)

/-- A bound on the depth that leaves room for all containers of higher rank is not felt. -/
theorem contentWithin_eq {n m : Nat} (hn : registry.above rank id < n)
    (hm : registry.above rank id < m) :
    registry.contentWithin n id = registry.contentWithin m id := by
  induction n generalizing m id with
  | zero => exact absurd hn (Nat.not_lt_zero _)
  | succ n ih =>
    cases m with
    | zero => exact absurd hm (Nat.not_lt_zero _)
    | succ m =>
      rw [contentWithin_succ, contentWithin_succ]
      apply opened_congr
      intro child hrefers
      have hlt := h.above_lt hrefers
      exact ih (by omega) (by omega)

theorem contentWithin_of_size_le {depth : Nat} (hdepth : registry.size ≤ depth) :
    registry.contentWithin depth id = registry.content id := by
  cases hget : registry.get? id with
  | none =>
    rw [content, contentWithin_of_none hget, contentWithin_of_none hget]
  | some state =>
    have hlt : registry.above rank id < registry.size :=
      above_lt_size (OrderedMap.contains_iff.2 ⟨state, hget⟩)
    exact h.contentWithin_eq (by omega) hlt

theorem content_eq (id : ContainerId) :
    registry.content id = registry.opened registry.content id := by
  calc registry.content id
      = registry.contentWithin (registry.size + 1) id :=
        (h.contentWithin_of_size_le (Nat.le_succ _)).symm
    _ = registry.opened registry.content id := contentWithin_succ _

theorem content_unique {f : ContainerId → Value} (hf : ∀ id, f id = registry.opened f id) :
    f = registry.content := by
  funext id
  induction id using h.ends.induction with
  | _ id ih =>
    rw [hf, h.content_eq]
    exact opened_congr ih

theorem plain (depth : Nat) (id : ContainerId) :
    (registry.contentWithin depth id).holdsContainer = false := by
  have hempty : ∀ kind : ContainerKind, kind.emptyContent.holdsContainer = false := by
    intro kind
    cases kind <;> rfl
  induction depth generalizing id with
  | zero => exact hempty id.kind
  | succ depth ih =>
    have hvalue : ∀ {cell v}, registry.valueAt? cell = some v →
        (v.opened (registry.contentWithin depth)).holdsContainer = false := by
      intro cell v hv
      cases hholds : v.holdsContainer with
      | true =>
        obtain ⟨child, rfl⟩ := h.whole hv hholds
        exact ih child
      | false =>
        cases v with
        | container child => cases hholds
        | null | bool b | int n | double d | string s | list items | map fields => exact hholds
    rw [contentWithin_succ, opened]
    split
    · next s hget =>
      rw [Value.holdsContainer, Value.itemsHoldContainer_eq_false]
      intro w hw
      obtain ⟨v, hv, rfl⟩ := List.mem_map.1 hw
      obtain ⟨cell, -, hat⟩ := valueAt?_of_mem_list hget hv
      exact hvalue hat
    · next m hget =>
      rw [Value.holdsContainer, Value.fieldsHoldContainer_eq_false]
      intro w hw
      obtain ⟨e, he, rfl⟩ := List.mem_map.1 hw
      obtain ⟨cell, -, hat⟩ := valueAt?_of_mem_map hget he
      exact hvalue hat
    · rfl
    · exact hempty id.kind

end Nested

end Registry

end CausalDoc
