import CausalDoc.Proofs.Sequence.Delete
import CausalDoc.Proofs.Sequence.Insert
import Mathlib.Logic.ExistsUnique

/- What a sequence stores, and what it answers.

   A sequence keeps its elements four times over: as a table, as the lists of children, as
   the order and as a count. Sequences that are built by insertions after elements that are
   there, of single elements or of runs, and by deletions (`Built`) keep the four in
   agreement, and all readings are readings of one list, that of the elements which are not
   deleted (`Represents`). Nothing is asked of names and stamps: a run may name elements
   that are known already, at any places of it, and stamps need neither grow nor differ. -/

namespace CausalDoc.Sequence

/-! ## One parent for every element -/

namespace Walk

variable {children : Option AtomId → List AtomId} {siblings order : List AtomId} {x : AtomId}

theorem exists_parent (h : Walk children siblings order) (hx : x ∈ order) :
    x ∈ siblings ∨ ∃ p ∈ order, x ∈ children (some p) := by
  induction h with
  | nil => exact absurd hx List.not_mem_nil
  | @cons first siblings below rest _ _ ihBelow ihRest =>
    have hbelow : ∀ p ∈ below, p ∈ first :: (below ++ rest) := fun p hp => by simp [hp]
    have hrest : ∀ p ∈ rest, p ∈ first :: (below ++ rest) := fun p hp => by simp [hp]
    rcases List.mem_cons.1 hx with rfl | hx
    · exact .inl List.mem_cons_self
    · rcases List.mem_append.1 hx with hx | hx
      · rcases ihBelow hx with hchild | ⟨p, hp, hchild⟩
        · exact .inr ⟨first, List.mem_cons_self, hchild⟩
        · exact .inr ⟨p, hbelow p hp, hchild⟩
      · rcases ihRest hx with hsibling | ⟨p, hp, hchild⟩
        · exact .inl (List.mem_cons_of_mem _ hsibling)
        · exact .inr ⟨p, hrest p hp, hchild⟩

/-- A walk that passes nothing twice meets every element from one place only: a sibling is
nobody's child, and a child has one parent. -/
theorem one_parent (h : Walk children siblings order) :
    order.Nodup → ∀ {p}, p ∈ order → x ∈ children (some p) →
      x ∉ siblings ∧ ∀ q ∈ order, x ∈ children (some q) → q = p := by
  induction h with
  | nil => exact fun _ _ hp => absurd hp List.not_mem_nil
  | @cons first siblings below rest hBelow hRest ihBelow ihRest =>
    intro hnodup p hp hx
    obtain ⟨hfirst, hnodup⟩ := List.nodup_cons.1 hnodup
    obtain ⟨hnodupBelow, hnodupRest, hdisjoint⟩ := List.nodup_append.1 hnodup
    rw [List.mem_append, not_or] at hfirst
    have hbelow : ∀ {q}, q = first ∨ q ∈ below → x ∈ children (some q) → x ∈ below := by
      intro q hq hchild
      rcases hq with rfl | hq
      · exact hBelow.mem_of_mem hchild
      · exact hBelow.mem_of_child hq hchild
    have happart : x ∈ below → x ∈ rest → False := fun h₁ h₂ => hdisjoint x h₁ x h₂ rfl
    rw [List.mem_cons, List.mem_append, ← or_assoc] at hp
    rcases hp with hp | hp
    · -- below the first sibling
      have hin := hbelow hp hx
      refine ⟨fun hsibling => ?_, fun q hq hchild => ?_⟩
      · rcases List.mem_cons.1 hsibling with rfl | hsibling
        · exact hfirst.1 hin
        · exact happart hin (hRest.mem_of_mem hsibling)
      · rw [List.mem_cons, List.mem_append, ← or_assoc] at hq
        rcases hq with hq | hq
        · rcases hp with rfl | hp
          · rcases hq with rfl | hq
            · rfl
            · exact absurd hx (ihBelow hnodupBelow hq hchild).1
          · rcases hq with rfl | hq
            · exact absurd hchild (ihBelow hnodupBelow hp hx).1
            · exact (ihBelow hnodupBelow hp hx).2 q hq hchild
        · exact absurd (hRest.mem_of_child hq hchild) (happart hin)
    · -- behind it
      have hin := hRest.mem_of_child hp hx
      refine ⟨fun hsibling => ?_, fun q hq hchild => ?_⟩
      · rcases List.mem_cons.1 hsibling with rfl | hsibling
        · exact hfirst.2 hin
        · exact (ihRest hnodupRest hp hx).1 hsibling
      · rw [List.mem_cons, List.mem_append, ← or_assoc] at hq
        rcases hq with hq | hq
        · exact absurd hin (happart (hbelow hq hchild))
        · exact (ihRest hnodupRest hp hx).2 q hq hchild

end Walk

variable {α : Type} {s : Sequence α}

/-- Every element is a child of the head or of one element. -/
theorem Tidy.exists_unique_parent (h : s.Tidy) {id : AtomId} (hid : s.contains id = true) :
    ∃! p, id ∈ s.childrenOf p := by
  have hin : ∀ {q : AtomId} {x : AtomId}, x ∈ s.childrenOf (some q) → q ∈ s.order := by
    intro q x hx
    rw [h.mem_order]
    apply Classical.byContradiction
    intro hq
    rw [h.childrenOf_eq_nil (Bool.not_eq_true _ ▸ hq)] at hx
    cases hx
  rcases h.walk.exists_parent ((h.mem_order id).2 hid) with hhead | ⟨p, hp, hchild⟩
  · refine ⟨none, hhead, fun q hq => ?_⟩
    cases q with
    | none => rfl
    | some q => exact absurd hhead (h.walk.one_parent h.nodup (hin hq) hq).1
  · obtain ⟨hhead, hone⟩ := h.walk.one_parent h.nodup hp hchild
    refine ⟨some p, hchild, fun q hq => ?_⟩
    cases q with
    | none => exact absurd hq hhead
    | some q => rw [hone q (hin hq) hq]

/-! ## The elements that are not deleted -/

/-- The names in the order whose elements are not deleted. -/
def kept (s : Sequence α) : List AtomId :=
  s.order.filter fun id => (s.elements.get? id).any fun e => !e.deleted

theorem visibleIds_eq_kept (s : Sequence α) : s.visibleIds = s.kept := by
  refine List.filter_congr fun id _ => ?_
  unfold value?
  cases s.elements.get? id with
  | none => rfl
  | some e => cases hdeleted : e.deleted <;> simp [hdeleted]

theorem Tidy.order_perm_keys (h : s.Tidy) : s.order.Perm s.elements.keys := by
  refine (List.perm_ext_iff_of_nodup h.nodup (OrderedMap.nodup_keys _)).2 fun id => ?_
  rw [h.mem_order, contains_iff, OrderedMap.mem_keys]

theorem Tidy.length_kept (h : s.Tidy) :
    s.kept.length = (s.elements.values.filter fun e => !e.deleted).length := by
  have hentry : ∀ entry ∈ s.elements.entries, s.elements.get? entry.1 = some entry.2 :=
    fun entry hentry => (OrderedMap.get?_eq_some_iff _).2 hentry
  calc s.kept.length
    _ = (s.elements.keys.filter
          fun id => (s.elements.get? id).any fun e => !e.deleted).length :=
        (h.order_perm_keys.filter _).length_eq
    _ = (s.elements.entries.filter fun entry => !entry.2.deleted).length := by
        rw [OrderedMap.keys, List.filter_map, List.length_map]
        congr 1
        refine List.filter_congr fun entry hmem => ?_
        rw [Function.comp_apply, hentry entry hmem, Option.any_some]
    _ = (s.elements.values.filter fun e => !e.deleted).length := by
        rw [OrderedMap.values, List.filter_map, List.length_map]
        rfl

/-- The content is the list of the values of the elements kept. -/
theorem toList_eq_kept (s : Sequence α) :
    s.toList.map some = s.kept.map fun id => (s.elements.get? id).map Element.value := by
  rw [map_toList, visibleIds_eq_kept]
  refine List.map_congr_left fun id hid => ?_
  obtain ⟨-, hkept⟩ := List.mem_filter.1 hid
  unfold value?
  cases he : s.elements.get? id with
  | none => rfl
  | some e =>
    rw [he, Option.any_some, Bool.not_eq_true'] at hkept
    rw [Option.map_some]
    exact if_neg (by simp [hkept])

theorem get?_eq_toList (s : Sequence α) (i : Nat) : s.get? i = s.toList[i]? := by
  have hvalues : s.toList.map some = s.visibleIds.map s.value? := map_toList s
  have hat := congrArg (fun values => values[i]?) hvalues
  simp only [List.getElem?_map] at hat
  unfold get? idAt?
  cases hid : s.visibleIds[i]? with
  | none =>
    rw [hid] at hat
    exact (Option.map_eq_none_iff.1 hat).symm
  | some id =>
    rw [hid, Option.map_some] at hat
    obtain ⟨v, hv, hvalue⟩ := Option.map_eq_some_iff.1 hat
    rw [hv, hvalue]
    rfl

/-! ## Sequences that are built -/

/-- The sequences that come from the empty one by insertions and deletions. Whatever is inserted
comes first or after an element that is there. -/
inductive Built : Sequence α → Prop where
  /-- Nothing is built yet. -/
  | empty : Built .empty
  /-- One element is inserted. -/
  | insert {s : Sequence α} (id : AtomId) (stamp : Stamp) (parent : Option AtomId) (value : α) :
      Built s → s.hasAnchor parent = true → Built (s.insert id stamp parent value)
  /-- A run is inserted. -/
  | insertRun {s : Sequence α} (id : AtomId) (stamp : Stamp) (parent : Option AtomId)
      (values : List α) :
      Built s → s.hasAnchor parent = true → Built (s.insertRun id stamp parent values)
  /-- An element is deleted, or a name that nothing has. -/
  | delete {s : Sequence α} (id : AtomId) : Built s → Built (s.delete id)

theorem Built.tidy (h : s.Built) : s.Tidy := by
  induction h with
  | empty => exact tidy_empty
  | insert id stamp parent value _ hparent ih => exact ih.insert hparent
  | insertRun id stamp parent values _ hparent ih => exact ih.insertRun hparent values
  | delete id _ ih => exact ih.delete

/-- What a sequence stores agrees in all its parts, and all readings are those of one list. -/
structure Represents (s : Sequence α) : Prop where
  /-- Nothing stands twice in the order. -/
  nodup : s.order.Nodup
  /-- The order has the elements of the table and nothing else. -/
  mem_order : ∀ id, id ∈ s.order ↔ ∃ e, s.elements.get? id = some e
  /-- What has children, if it is not the head, is in the table. -/
  parent : ∀ p children, s.children.get? (some p) = some children →
    ∃ e, s.elements.get? p = some e
  /-- Every element of the table is a child of the head or of one element, and no child is
  missing from the table. -/
  child : ∀ id, (∃ e, s.elements.get? id = some e) ↔ ∃! p, id ∈ s.childrenOf p
  /-- The stamps of siblings do not grow. -/
  sorted : ∀ p, (s.childrenOf p).Pairwise fun a b =>
    ∃ x y, s.elements.get? a = some x ∧ s.elements.get? b = some y ∧ ¬ x.stamp < y.stamp
  /-- The order is the depth-first walk from the head, siblings as listed. -/
  walk : ∀ order, Walk s.childrenOf (s.childrenOf none) order ↔ order = s.order
  /-- The count is that of the elements of the table that are not deleted. -/
  visible : s.visible = (s.elements.values.filter fun e => !e.deleted).length
  /-- The length is that of the list of the elements kept. -/
  length : s.length = s.kept.length
  /-- An index counts the elements kept. -/
  idAt? : ∀ i, s.idAt? i = s.kept[i]?
  /-- A range has the elements kept from its first index on, as many as are asked for, or as there
  are. -/
  idsInRange : ∀ i n k, (s.idsInRange i n)[k]? = if k < n then s.kept[i + k]? else none
  /-- The anchor at an index is the element kept to the left, if there is one. -/
  anchorFor : s.anchorFor 0 = none ∧ ∀ i, s.anchorFor (i + 1) = s.kept[i]?
  /-- The content is the list of the values of the elements kept. -/
  toList : s.toList.map some = s.kept.map fun id => (s.elements.get? id).map Element.value
  /-- The value at an index is that of the content. -/
  get? : ∀ i, s.get? i = s.toList[i]?
  /-- There are values at the indexes below the length. -/
  get?_eq_none : ∀ i, s.get? i = none ↔ s.length ≤ i

/-- What insertions and deletions build agrees in all its parts. -/
theorem Built.represents (h : s.Built) : s.Represents where
  nodup := h.tidy.nodup
  mem_order := fun id => by rw [h.tidy.mem_order, contains_iff]
  parent := fun p children hp => contains_iff.1 (h.tidy.parents (some p) children hp).2
  child := fun id => by
    refine ⟨fun hid => h.tidy.exists_unique_parent (contains_iff.2 hid), fun hchild => ?_⟩
    obtain ⟨p, hp, -⟩ := hchild
    exact contains_iff.1 (h.tidy.contains_of_child hp)
  sorted := fun p => (h.tidy.sorted p).imp_of_mem fun ha hb hnot => by
    obtain ⟨x, hx⟩ := contains_iff.1 (h.tidy.contains_of_child ha)
    obtain ⟨y, hy⟩ := contains_iff.1 (h.tidy.contains_of_child hb)
    exact ⟨x, y, hx, hy, hnot x y hx hy⟩
  walk := fun order => by
    refine ⟨fun hwalk => hwalk.unique h.tidy.walk, ?_⟩
    rintro rfl
    exact h.tidy.walk
  visible := by
    rw [← h.tidy.length_kept, h.tidy.visible, visibleIds_eq_kept]
  length := by
    rw [Sequence.length, h.tidy.visible, visibleIds_eq_kept]
  idAt? := fun i => by rw [Sequence.idAt?, visibleIds_eq_kept]
  idsInRange := fun i n k => by
    rw [Sequence.idsInRange, visibleIds_eq_kept, List.getElem?_take, List.getElem?_drop]
  anchorFor := ⟨rfl, fun i => by
    rw [Sequence.anchorFor, if_neg (Nat.succ_ne_zero i), Nat.add_sub_cancel, Sequence.idAt?,
      visibleIds_eq_kept]⟩
  toList := toList_eq_kept s
  get? := get?_eq_toList s
  get?_eq_none := fun i => by
    have hlength : s.toList.length = s.kept.length := by
      simpa using congrArg List.length (toList_eq_kept s)
    rw [get?_eq_toList, List.getElem?_eq_none_iff, hlength, Sequence.length, h.tidy.visible,
      visibleIds_eq_kept]

/-- Two characters are typed, the second is deleted, a run repeats both and goes on, and another
peer inserts behind the deleted one. -/
def typedTwice : Sequence Char :=
  ((((empty.insertRun ⟨1, 0⟩ ⟨0, 1⟩ none ['a', 'b']).delete ⟨1, 1⟩).insertRun ⟨1, 0⟩ ⟨0, 1⟩ none
    ['a', 'b', 'c', 'd']).insert ⟨2, 0⟩ ⟨2, 2⟩ (some ⟨1, 1⟩) 'X')

/-- The run adds what is new in it, behind the deleted element; of the two that stand there the one
with the later stamp comes first. -/
theorem represents_typedTwice :
    typedTwice.Represents ∧ typedTwice.toList = ['a', 'X', 'c', 'd'] ∧
      typedTwice.order = [⟨1, 0⟩, ⟨1, 1⟩, ⟨2, 0⟩, ⟨1, 2⟩, ⟨1, 3⟩] :=
  ⟨Built.represents (.insert _ _ _ _ (.insertRun _ _ _ _ (.delete _ (.insertRun _ _ _ _ .empty
    (by decide))) (by decide)) (by decide)), by decide, by decide⟩

end CausalDoc.Sequence
