import CausalDoc.Proofs.Sequence.Tidy

/- Deletion from a tidy sequence.

   A deletion only marks: the tree and the order stay, and every element keeps its value
   and its stamp. -/

namespace CausalDoc

/-- The element as it is after a deletion that names, or does not name, it. -/
def Element.marked {α : Type} (e : Element α) (named : Bool) : Element α :=
  { e with deleted := e.deleted || named }

namespace Sequence

variable {α : Type} {s : Sequence α} {id : AtomId}

@[simp] theorem childrenOf_delete (p : Option AtomId) :
    (s.delete id).childrenOf p = s.childrenOf p := by
  unfold delete
  split
  · split <;> rfl
  · rfl

@[simp] theorem order_delete : (s.delete id).order = s.order := by
  unfold delete
  split
  · split <;> rfl
  · rfl

theorem children_delete : (s.delete id).children = s.children := by
  unfold delete
  split
  · split <;> rfl
  · rfl

theorem get?_delete (a : AtomId) :
    (s.delete id).elements.get? a = (s.elements.get? a).map (Element.marked · (decide (a = id))) := by
  unfold delete
  split
  · next e he =>
    split
    · next hdeleted =>
      by_cases ha : a = id
      · rw [ha, he]
        cases e
        dsimp only at hdeleted
        simp [Element.marked, hdeleted]
      · simp [Element.marked, ha]
    · next hkept =>
      rw [OrderedMap.get?_insert]
      split
      · next ha => simp [ha, he, Element.marked]
      · next ha => simp [Element.marked, ha]
  · next hnone =>
    by_cases ha : a = id
    · rw [ha, hnone]
      rfl
    · simp [Element.marked, ha]

@[simp] theorem contains_delete (a : AtomId) : (s.delete id).contains a = s.contains a := by
  rw [contains, contains, OrderedMap.contains, OrderedMap.contains, get?_delete, Option.isSome_map]

@[simp] theorem hasAnchor_delete (p : Option AtomId) : (s.delete id).hasAnchor p = s.hasAnchor p := by
  cases p with
  | none => rfl
  | some p => exact contains_delete p

theorem value?_delete (a : AtomId) :
    (s.delete id).value? a = if a = id then none else s.value? a := by
  unfold value?
  rw [get?_delete]
  cases s.elements.get? a with
  | none => simp
  | some e =>
    by_cases ha : a = id <;> simp [Element.marked, ha]

theorem visibleIds_delete : (s.delete id).visibleIds = s.visibleIds.filter (· ≠ id) := by
  rw [visibleIds, visibleIds, order_delete, List.filter_filter]
  refine List.filter_congr fun a _ => ?_
  rw [value?_delete]
  by_cases ha : a = id <;> simp [ha]

theorem mem_visibleIds {a : AtomId} : a ∈ s.visibleIds ↔ a ∈ s.order ∧ ∃ v, s.value? a = some v := by
  rw [visibleIds, List.mem_filter, Option.isSome_iff_exists]

theorem contains_of_value? {a : AtomId} {v : α} (h : s.value? a = some v) : s.contains a = true := by
  unfold value? at h
  split at h
  · next e he => exact contains_iff.2 ⟨e, he⟩
  · cases h

theorem Tidy.visible_delete (h : s.Tidy) : (s.delete id).visible = (s.delete id).visibleIds.length := by
  rw [visibleIds_delete]
  by_cases hid : id ∈ s.visibleIds
  · -- the element was visible: one less
    obtain ⟨-, v, hv⟩ := mem_visibleIds.1 hid
    have hdelete : (s.delete id).visible = s.visible - 1 := by
      unfold value? at hv
      unfold delete
      cases he : s.elements.get? id with
      | none => simp [he] at hv
      | some e =>
        rw [he] at hv
        cases hkept : e.deleted with
        | true => simp [hkept] at hv
        | false => simp [hkept]
    have hnodup : s.visibleIds.Nodup := h.nodup.filter _
    have herase : s.visibleIds.filter (· ≠ id) = s.visibleIds.erase id := by
      rw [hnodup.erase_eq_filter]
      refine List.filter_congr fun a _ => ?_
      by_cases ha : a = id <;> simp [ha]
    rw [hdelete, h.visible, herase, List.length_erase_of_mem hid]
  · -- nothing changes
    have hsame : s.delete id = s := by
      unfold delete
      split
      · next e he =>
        split
        · rfl
        · next hkept =>
          refine absurd (mem_visibleIds.2 ⟨?_, e.value, ?_⟩) hid
          · exact (h.mem_order id).2 (contains_iff.2 ⟨e, he⟩)
          · simp [value?, he, hkept]
      · rfl
    rw [hsame, h.visible, List.filter_eq_self.2]
    intro a ha
    simp only [ne_eq, decide_not, Bool.not_eq_eq_eq_not, Bool.not_true, decide_eq_false_iff_not]
    intro heq
    subst heq
    exact hid ha

theorem Tidy.delete (h : s.Tidy) : (s.delete id).Tidy where
  walk := by
    rw [childrenOf_delete, order_delete]
    exact h.walk.congr fun x _ => childrenOf_delete (some x)
  nodup := by
    rw [order_delete]
    exact h.nodup
  mem_order := fun a => by rw [order_delete, contains_delete, h.mem_order]
  parents := fun p cs hcs => by
    rw [children_delete] at hcs
    rw [hasAnchor_delete]
    exact h.parents p cs hcs
  sorted := fun p => by
    rw [childrenOf_delete]
    refine (h.sorted p).imp fun {a b} hab x y hx hy => ?_
    rw [get?_delete, Option.map_eq_some_iff] at hx hy
    obtain ⟨x, hx, rfl⟩ := hx
    obtain ⟨y, hy, rfl⟩ := hy
    exact hab x y hx hy
  visible := h.visible_delete

/-! ## Several deletions -/

theorem deleteAll_cons (ids : List AtomId) : s.deleteAll (id :: ids) = (s.delete id).deleteAll ids :=
  rfl

theorem get?_deleteAll (a : AtomId) :
    ∀ (ids : List AtomId) {s : Sequence α}, (s.deleteAll ids).elements.get? a =
      (s.elements.get? a).map (Element.marked · (decide (a ∈ ids)))
  | [], s => by simp [deleteAll, Element.marked]
  | id :: ids, s => by
    rw [deleteAll_cons, get?_deleteAll a ids, get?_delete, Option.map_map]
    congr 1
    funext e
    simp [Element.marked, Bool.or_assoc]

theorem order_deleteAll : ∀ (ids : List AtomId) {s : Sequence α}, (s.deleteAll ids).order = s.order
  | [], _ => rfl
  | id :: ids, s => by rw [deleteAll_cons, order_deleteAll ids, order_delete]

theorem childrenOf_deleteAll (p : Option AtomId) :
    ∀ (ids : List AtomId) {s : Sequence α}, (s.deleteAll ids).childrenOf p = s.childrenOf p
  | [], _ => rfl
  | id :: ids, s => by rw [deleteAll_cons, childrenOf_deleteAll p ids, childrenOf_delete]

theorem contains_deleteAll (a : AtomId) (ids : List AtomId) :
    (s.deleteAll ids).contains a = s.contains a := by
  rw [contains, contains, OrderedMap.contains, OrderedMap.contains, get?_deleteAll,
    Option.isSome_map]

theorem Tidy.deleteAll (ids : List AtomId) : ∀ {s : Sequence α}, s.Tidy → (s.deleteAll ids).Tidy := by
  induction ids with
  | nil => exact fun h => h
  | cons id ids ih => exact fun h => ih h.delete

end Sequence

end CausalDoc
