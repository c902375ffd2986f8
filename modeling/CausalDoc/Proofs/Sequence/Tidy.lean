import CausalDoc.Proofs.Atom
import CausalDoc.Proofs.Ordered
import CausalDoc.Proofs.Sequence.Walk

/- What every replicated sequence keeps.

   Elements, children, order and the count of visible elements say the same thing four
   times. `Tidy` is their agreement: the order is the walk of the tree, without
   repetition, over exactly the elements; siblings stand from late to early stamps; the
   count is that of the visible elements. Inserting an element after one that is there
   keeps it, and so does a deletion. -/

namespace CausalDoc.Sequence

variable {α : Type} {s : Sequence α}

/-- `a` does not stand below `b` among siblings: its stamp is not the smaller one. -/
def NotBelow (s : Sequence α) (a b : AtomId) : Prop :=
  ∀ x y, s.elements.get? a = some x → s.elements.get? b = some y → ¬ x.stamp < y.stamp

/-- The parts of a sequence agree. -/
structure Tidy (s : Sequence α) : Prop where
  /-- The order walks the tree of elements depth first. -/
  walk : Walk s.childrenOf (s.childrenOf none) s.order
  /-- No element stands twice in the order. -/
  nodup : s.order.Nodup
  /-- The order lists the elements. -/
  mem_order : ∀ id, id ∈ s.order ↔ s.contains id = true
  /-- Children are listed only of the head and of elements, and only where there are any. -/
  parents : ∀ p cs, s.children.get? p = some cs → cs ≠ [] ∧ s.hasAnchor p = true
  /-- Siblings stand from late to early stamps. -/
  sorted : ∀ p, (s.childrenOf p).Pairwise s.NotBelow
  /-- The visible elements are counted. -/
  visible : s.visible = s.visibleIds.length

theorem tidy_empty : (empty : Sequence α).Tidy where
  walk := .nil
  nodup := List.nodup_nil
  mem_order := fun id => by simp [empty, contains, OrderedMap.contains]
  parents := fun p cs h => by simp [empty] at h
  sorted := fun p => List.Pairwise.nil
  visible := rfl

theorem contains_iff {id : AtomId} : s.contains id = true ↔ ∃ e, s.elements.get? id = some e :=
  OrderedMap.contains_iff

theorem contains_eq_false_iff {id : AtomId} :
    s.contains id = false ↔ s.elements.get? id = none := by
  rw [contains, OrderedMap.contains, Option.isSome_eq_false_iff, Option.isNone_iff_eq_none]

theorem value?_eq_some_iff {a : AtomId} {v : α} :
    s.value? a = some v ↔ ∃ e, s.elements.get? a = some e ∧ e.deleted = false ∧ e.value = v := by
  unfold value?
  cases s.elements.get? a with
  | none => simp
  | some e => cases hdeleted : e.deleted <;> simp [hdeleted]

theorem map_toList (s : Sequence α) : s.toList.map some = s.visibleIds.map s.value? := by
  unfold toList visibleIds
  induction s.order with
  | nil => rfl
  | cons a order ih => cases hvalue : s.value? a <;> simp [hvalue, ih]

/-- Different elements have different stamps. -/
def Distinct (s : Sequence α) : Prop :=
  ∀ a b x y, s.elements.get? a = some x → s.elements.get? b = some y → x.stamp = y.stamp → a = b

namespace Tidy

theorem childrenOf_eq_nil (h : s.Tidy) {id : AtomId} (hid : s.contains id = false) :
    s.childrenOf (some id) = [] := by
  unfold childrenOf
  cases hc : s.children.get? (some id) with
  | none => rfl
  | some cs =>
    have := (h.parents _ _ hc).2
    rw [hasAnchor, Option.all_some, hid] at this
    cases this

theorem contains_of_child (h : s.Tidy) {p : Option AtomId} {id : AtomId}
    (hid : id ∈ s.childrenOf p) : s.contains id = true := by
  rw [← h.mem_order]
  cases p with
  | none => exact h.walk.mem_of_mem hid
  | some p =>
    refine h.walk.mem_of_child ?_ hid
    rw [h.mem_order]
    apply Classical.byContradiction
    intro hp
    rw [h.childrenOf_eq_nil (Bool.not_eq_true _ ▸ hp)] at hid
    cases hid

theorem length_order (h : s.Tidy) : s.order.length = s.elements.size := by
  have hperm : s.order.Perm s.elements.keys := by
    refine (List.perm_ext_iff_of_nodup h.nodup (OrderedMap.nodup_keys _)).2 fun id => ?_
    rw [h.mem_order, contains_iff, OrderedMap.mem_keys]
  rw [hperm.length_eq, OrderedMap.keys, List.length_map, OrderedMap.size]

theorem nodup_childrenOf (h : s.Tidy) (p : Option AtomId) : (s.childrenOf p).Nodup := by
  obtain ⟨hhead, hbelow⟩ := h.walk.nodup h.nodup
  cases p with
  | none => exact hhead
  | some p =>
    cases hp : s.contains p with
    | true => exact hbelow p ((h.mem_order p).2 hp)
    | false =>
      rw [h.childrenOf_eq_nil hp]
      exact List.nodup_nil

theorem children_eq (h : s.Tidy) (p : Option AtomId) :
    s.children.get? p = if s.childrenOf p = [] then none else some (s.childrenOf p) := by
  unfold childrenOf
  cases hget : s.children.get? p with
  | none => rfl
  | some cs =>
    have hne := (h.parents p cs hget).1
    rw [Option.getD_some, if_neg hne]

/-- Elements and children determine the rest. -/
theorem ext {t : Sequence α} (h : s.Tidy) (ht : t.Tidy) (helements : s.elements = t.elements)
    (hchildren : ∀ p, s.childrenOf p = t.childrenOf p) : s = t := by
  have hlists : s.children = t.children := by
    refine OrderedMap.ext fun p => ?_
    rw [h.children_eq, ht.children_eq, hchildren]
  have horder : s.order = t.order := by
    have hwalk := h.walk
    rw [show s.childrenOf = t.childrenOf from funext hchildren] at hwalk
    exact hwalk.unique ht.walk
  have hvisible : s.visible = t.visible := by
    rw [h.visible, ht.visible]
    unfold visibleIds value?
    rw [helements, horder]
  cases s
  cases t
  rw [Sequence.mk.injEq]
  exact ⟨helements, hlists, horder, hvisible⟩

/-- The same elements under the same parents make the same tidy sequence, since the stamps of
siblings tell in which order these stand. -/
theorem ext_of_distinct {t : Sequence α} (h : s.Tidy) (ht : t.Tidy) (hdistinct : s.Distinct)
    (helements : ∀ a e, s.elements.get? a = some e ↔ t.elements.get? a = some e)
    (hchildren : ∀ a p, a ∈ s.childrenOf p ↔ a ∈ t.childrenOf p) : s = t := by
  have hsame : s.elements = t.elements :=
    OrderedMap.ext fun a => Option.ext fun e => helements a e
  refine h.ext ht hsame fun p => ?_
  have hperm : (s.childrenOf p).Perm (t.childrenOf p) :=
    (List.perm_ext_iff_of_nodup (h.nodup_childrenOf p) (ht.nodup_childrenOf p)).2 fun a =>
      hchildren a p
  refine hperm.eq_of_pairwise ?_ (h.sorted p) ?_
  · intro a b ha hb hab hba
    obtain ⟨x, hx⟩ := contains_iff.1 (h.contains_of_child ha)
    obtain ⟨y, hy⟩ := contains_iff.1 (ht.contains_of_child hb)
    have hy' := (helements b y).2 hy
    exact hdistinct a b x y hx hy' (Stamp.eq_of_not_lt (hab x y hx hy') (hba y x hy' hx))
  · have hsorted := ht.sorted p
    unfold NotBelow at hsorted ⊢
    rw [hsame]
    exact hsorted

end Tidy

/-! ## Places in the order -/

theorem position_eq {u v : List AtomId} {t : AtomId} (h : s.order = u ++ t :: v)
    (hnodup : s.order.Nodup) : s.position t = u.length := by
  rw [h] at hnodup
  have ht : t ∉ u := fun hm =>
    (List.nodup_append.1 hnodup).2.2 t hm t List.mem_cons_self rfl
  rw [position, h, List.findIdx_append, if_neg]
  · simp [List.findIdx_cons]
  · rw [List.findIdx_lt_length]
    intro hgiven
    obtain ⟨x, hx, heq⟩ := hgiven
    exact ht (of_decide_eq_true heq ▸ hx)

theorem position_getLast (hnodup : s.order.Nodup) {u v : List AtomId} {t : AtomId}
    (h : s.order = u ++ v) (hlast : u.getLast? = some t) : s.position t + 1 = u.length := by
  obtain ⟨w, rfl⟩ := List.getLast?_eq_some_iff.1 hlast
  rw [position_eq (u := w) (v := v) (by simp [h]) hnodup]
  simp

/-! ## The siblings of a new element -/

theorem isLater_iff {stamp : Stamp} {id : AtomId} :
    s.isLater stamp id = true ↔ ∃ e, s.elements.get? id = some e ∧ stamp < e.stamp := by
  rw [isLater, Option.any_eq_true]
  exact exists_congr fun e => and_congr_right fun _ => decide_eq_true_iff

/-- The siblings behind a new child: those that do not have a later stamp. -/
def otherSiblings (s : Sequence α) (parent : Option AtomId) (stamp : Stamp) : List AtomId :=
  (s.childrenOf parent).drop (s.laterSiblings parent stamp).length

theorem laterSiblings_append (s : Sequence α) (parent : Option AtomId) (stamp : Stamp) :
    s.laterSiblings parent stamp ++ s.otherSiblings parent stamp = s.childrenOf parent := by
  have hprefix := List.prefix_iff_eq_append.1 (List.takeWhile_prefix (s.isLater stamp)
    (l := s.childrenOf parent))
  exact hprefix

theorem isLater_of_mem_laterSiblings {parent : Option AtomId} {stamp : Stamp} {id : AtomId}
    (h : id ∈ s.laterSiblings parent stamp) : s.isLater stamp id = true :=
  List.all_eq_true.1 List.all_takeWhile id h

theorem Tidy.not_isLater_of_mem_otherSiblings (h : s.Tidy) {parent : Option AtomId}
    {stamp : Stamp} {id : AtomId} (hid : id ∈ s.otherSiblings parent stamp) :
    s.isLater stamp id = false := by
  have hrest : s.otherSiblings parent stamp = (s.childrenOf parent).dropWhile (s.isLater stamp) := by
    have := laterSiblings_append s parent stamp
    rw [← List.takeWhile_append_dropWhile (p := s.isLater stamp) (l := s.childrenOf parent)] at this
    exact List.append_cancel_left this
  have hsorted := h.sorted parent
  rw [← laterSiblings_append s parent stamp, List.pairwise_append] at hsorted
  have hsorted := hsorted.2.1
  have hhead := List.head?_dropWhile_not (s.isLater stamp) (s.childrenOf parent)
  rw [← hrest] at hhead
  -- the first of them is not later, and the others are not later than the first
  cases hother : s.otherSiblings parent stamp with
  | nil => rw [hother] at hid; cases hid
  | cons first rest =>
    rw [hother] at hid hhead hsorted
    have hfirst : s.isLater stamp first = false := by simpa using hhead
    rcases List.mem_cons.1 hid with rfl | hid'
    · exact hfirst
    · apply Classical.byContradiction
      intro hlater
      obtain ⟨e, he, hlt⟩ := isLater_iff.1 (Bool.not_eq_false _ ▸ hlater)
      obtain ⟨f, hf⟩ := contains_iff.1
        (h.contains_of_child (show first ∈ s.childrenOf parent by
          rw [← laterSiblings_append s parent stamp, hother]
          simp))
      have := (List.pairwise_cons.1 hsorted).1 id hid' f e hf he
      have : s.isLater stamp first = true :=
        isLater_iff.2 ⟨f, hf, Stamp.lt_of_lt_of_not_lt hlt this⟩
      rw [hfirst] at this
      cases this

end CausalDoc.Sequence
