import CausalDoc.Proofs.Sequence.Delete
import CausalDoc.Proofs.Sequence.Insert
import Mathlib.Data.List.Nodup

/- Insertions and deletions as splices of what is shown.

   An insertion is told an anchor and a stamp, not an index. When its stamp is later than
   all that are there, no sibling stands before the new elements, wherever the anchor sits
   in the tree: they follow right behind it, and so come in at the index that the anchor
   stands for (`Tidy.spliced_insertRun`). A deletion of a range of visible elements cuts
   just that range out (`Tidy.spliced_deleteAll`). -/

namespace CausalDoc.Sequence

variable {α : Type} {s t : Sequence α}

/-! ## What is shown -/

/-- The elements of a stretch of the order that are not deleted, with their names. -/
def shownIn (s : Sequence α) (stretch : List AtomId) : List (AtomId × α) :=
  stretch.filterMap fun a => (s.value? a).map fun v => (a, v)

/-- The visible elements with their names, in order. -/
def shown (s : Sequence α) : List (AtomId × α) := s.shownIn s.order

theorem shownIn_append (front back : List AtomId) :
    s.shownIn (front ++ back) = s.shownIn front ++ s.shownIn back :=
  List.filterMap_append

theorem map_fst_shownIn (stretch : List AtomId) :
    (s.shownIn stretch).map Prod.fst = stretch.filter fun a => (s.value? a).isSome := by
  unfold shownIn
  induction stretch with
  | nil => rfl
  | cons a stretch ih => cases hvalue : s.value? a <;> simp [hvalue, ih]

theorem map_fst_shown (s : Sequence α) : s.shown.map Prod.fst = s.visibleIds :=
  map_fst_shownIn s.order

theorem map_snd_shown (s : Sequence α) : s.shown.map Prod.snd = s.toList := by
  rw [shown, shownIn, toList, List.map_filterMap]
  congr 1
  funext a
  cases s.value? a <;> rfl

/-- The values of a run with their names, the first called `id`. -/
def numbered (id : AtomId) (values : List α) : List (AtomId × α) :=
  values.mapIdx fun n v => (id.forward n, v)

theorem numbered_nil (id : AtomId) : numbered id ([] : List α) = [] := rfl

theorem numbered_cons (id : AtomId) (value : α) (values : List α) :
    numbered id (value :: values) = (id, value) :: numbered (id.forward 1) values := by
  simp [numbered, AtomId.forward_forward, Nat.add_comm]

/-- `t` shows what `s` shows, but from `index` on `new` elements in place of `removed` old ones. -/
structure Spliced (s t : Sequence α) (index removed : Nat) (new : List (AtomId × α)) : Prop where
  inside : index + removed ≤ s.length
  shown : t.shown = s.shown.take index ++ new ++ s.shown.drop (index + removed)

theorem Spliced.visibleIds {index removed : Nat} {new : List (AtomId × α)}
    (h : s.Spliced t index removed new) :
    t.visibleIds = s.visibleIds.take index ++ new.map Prod.fst ++
      s.visibleIds.drop (index + removed) := by
  rw [← map_fst_shown, h.shown, ← map_fst_shown, List.map_append, List.map_append, List.map_take,
    List.map_drop]

theorem Spliced.toList {index removed : Nat} {new : List (AtomId × α)}
    (h : s.Spliced t index removed new) :
    t.toList = s.toList.take index ++ new.map Prod.snd ++ s.toList.drop (index + removed) := by
  rw [← map_snd_shown, h.shown, ← map_snd_shown, List.map_append, List.map_append, List.map_take,
    List.map_drop]

/-! ## Cutting at an index -/

theorem Tidy.hasAnchor_of_getLast? (h : s.Tidy) {front back : List AtomId} {parent : Option AtomId}
    (horder : s.order = front ++ back) (hlast : front.getLast? = parent) :
    s.hasAnchor parent = true := by
  cases parent with
  | none => rfl
  | some p =>
    apply (h.mem_order p).1
    rw [horder]
    exact List.mem_append_left _ (List.mem_of_getLast? hlast)

/-- The order falls in two at every index, and the first part ends with the anchor that stands for
the index. -/
theorem Tidy.cut (h : s.Tidy) {index : Nat} (hindex : index ≤ s.length) :
    ∃ front back, s.order = front ++ back ∧ front.getLast? = s.anchorFor index ∧
      s.shownIn front = s.shown.take index ∧ s.shownIn back = s.shown.drop index := by
  cases index with
  | zero => exact ⟨[], s.order, rfl, rfl, rfl, rfl⟩
  | succ i =>
    have hlt : i < s.visibleIds.length := h.visible ▸ hindex
    obtain ⟨p, hp⟩ : ∃ p, s.visibleIds[i]? = some p := ⟨_, List.getElem?_eq_getElem hlt⟩
    obtain ⟨hmem, v, hv⟩ := mem_visibleIds.1 (List.mem_of_getElem? hp)
    obtain ⟨u, w, horder⟩ := List.append_of_mem hmem
    have hsplit : s.order = (u ++ [p]) ++ w := by rw [horder, List.append_assoc, List.singleton_append]
    have hshown : s.shown = s.shownIn (u ++ [p]) ++ s.shownIn w := by
      rw [shown, hsplit, shownIn_append]
    have hself : s.shownIn [p] = [(p, v)] := by simp [shownIn, hv]
    have hlength : (s.shownIn (u ++ [p])).length = i + 1 := by
      have hids : s.visibleIds[(s.shownIn u).length]? = some p := by
        rw [← map_fst_shown, hshown, shownIn_append, hself]
        simp
      have hat : (s.shownIn u).length = i :=
        ((List.getElem?_inj hlt (h.nodup.filter _)).1 (hp.trans hids.symm)).symm
      rw [shownIn_append, hself, List.length_append, hat, List.length_singleton]
    refine ⟨u ++ [p], w, hsplit, ?_, ?_, ?_⟩
    · rw [List.getLast?_concat, anchorFor, if_neg (Nat.succ_ne_zero i)]
      exact hp.symm
    · rw [hshown, List.take_left' hlength]
    · rw [hshown, List.drop_left' hlength]

theorem Tidy.hasAnchor_anchorFor (h : s.Tidy) {index : Nat} (hindex : index ≤ s.length) :
    s.hasAnchor (s.anchorFor index) = true := by
  obtain ⟨front, back, horder, hlast, -, -⟩ := h.cut hindex
  exact h.hasAnchor_of_getLast? horder hlast

/-! ## Insertion of newest elements -/

/-- All elements have earlier stamps. -/
def Older (s : Sequence α) (stamp : Stamp) : Prop :=
  ∀ a e, s.elements.get? a = some e → e.stamp < stamp

section Insertion

variable {id : AtomId} {stamp : Stamp} {parent : Option AtomId} {value : α}
  {front back : List AtomId}

/-- No sibling stands before the newest element. -/
theorem Older.laterSiblings (h : s.Older stamp) (parent : Option AtomId) :
    s.laterSiblings parent stamp = [] := by
  have hnone : ∀ a, s.isLater stamp a = false := by
    intro a
    refine Bool.eq_false_iff.2 fun hlater => ?_
    obtain ⟨e, he, hlt⟩ := isLater_iff.1 hlater
    exact Stamp.lt_irrefl _ (Stamp.lt_trans hlt (h a e he))
  unfold Sequence.laterSiblings
  cases s.childrenOf parent with
  | nil => rfl
  | cons first rest => rw [List.takeWhile_cons_of_neg (by simp [hnone])]

theorem Older.insert (h : s.Older stamp) (hid : s.contains id = false) :
    (s.insert id stamp parent value).Older (stamp.forward 1) := by
  have hnext : stamp < stamp.forward 1 := Stamp.lt_of_lamport_lt (Nat.lt_succ_self _)
  intro a e he
  rw [get?_insert hid] at he
  split at he
  · cases he
    exact hnext
  · exact Stamp.lt_trans (h a e he) hnext

/-- The newest element stands right behind its anchor. -/
theorem Tidy.order_insert_newest (h : s.Tidy) (hnew : s.Older stamp) (hid : s.contains id = false)
    (horder : s.order = front ++ back) (hlast : front.getLast? = parent) :
    (s.insert id stamp parent value).order = front ++ id :: back := by
  have hplace : s.placeFor parent stamp = front.length := by
    unfold placeFor
    rw [hnew.laterSiblings parent]
    cases parent with
    | none =>
      rw [List.getLast?_eq_none_iff.1 hlast]
      rfl
    | some p => exact position_getLast h.nodup horder hlast
  rw [Sequence.order_insert hid, hplace, horder, List.take_left, List.drop_left]

theorem shown_insertEach :
    ∀ (values : List α) {s : Sequence α} {id : AtomId} {stamp : Stamp} {parent : Option AtomId}
      {front back : List AtomId}, s.Tidy → s.Older stamp → s.Fresh id values.length →
      s.order = front ++ back → front.getLast? = parent →
      (s.insertEach id stamp parent values).shown =
        s.shownIn front ++ numbered id values ++ s.shownIn back
  | [], s, id, stamp, parent, front, back, _, _, _, horder, _ => by
    rw [insertEach, shown, horder, shownIn_append, numbered_nil, List.append_nil]
  | value :: values, s, id, stamp, parent, front, back, h, hnew, hfresh, horder, hlast => by
    have hid : s.contains id = false := hfresh 0 (Nat.succ_pos _)
    have hparent : s.hasAnchor parent = true := h.hasAnchor_of_getLast? horder hlast
    have hnot : id ∉ front ++ back := by
      rw [← horder, h.mem_order, hid]
      exact Bool.false_ne_true
    rw [List.mem_append, not_or] at hnot
    -- the old elements are shown as before
    have hkept : ∀ {stretch : List AtomId}, id ∉ stretch →
        (s.insert id stamp parent value).shownIn stretch = s.shownIn stretch := by
      intro stretch hout
      refine List.filterMap_congr fun a ha => ?_
      rw [value?_insert hid, if_neg]
      intro heq
      subst heq
      exact hout ha
    have hself : (s.insert id stamp parent value).shownIn [id] = [(id, value)] := by
      simp [shownIn, value?_insert hid]
    have hstep : (s.insert id stamp parent value).order = (front ++ [id]) ++ back := by
      rw [h.order_insert_newest hnew hid horder hlast, List.append_assoc, List.singleton_append]
    rw [insertEach, shown_insertEach values (h.insert hparent) (hnew.insert hid) hfresh.tail hstep
      List.getLast?_concat, shownIn_append, hkept hnot.1, hkept hnot.2, hself, numbered_cons]
    simp only [List.append_assoc, List.singleton_append]

/-- Inserting newest elements at the anchor of an index splices them in at that index. -/
theorem Tidy.spliced_insertRun (h : s.Tidy) {index : Nat} (hindex : index ≤ s.length)
    (hnew : s.Older stamp) (values : List α) (hfresh : s.Fresh id values.length) :
    s.Spliced (s.insertRun id stamp (s.anchorFor index) values) index 0 (numbered id values) := by
  obtain ⟨front, back, horder, hlast, hfront, hback⟩ := h.cut hindex
  refine ⟨hindex, ?_⟩
  rw [h.insertRun_eq_insertEach (h.hasAnchor_anchorFor hindex),
    shown_insertEach values h hnew hfresh horder hlast, hfront, hback, Nat.add_zero]

end Insertion

/-! ## Deletion of a range -/

theorem value?_deleteAll (a : AtomId) (ids : List AtomId) :
    (s.deleteAll ids).value? a = if a ∈ ids then none else s.value? a := by
  unfold value?
  rw [get?_deleteAll]
  cases s.elements.get? a with
  | none => simp
  | some e => by_cases ha : a ∈ ids <;> simp [Element.marked, ha]

/-- A stretch whose names are cut out of a list without repetitions takes nothing else with it. -/
theorem filter_not_mem_stretch {β : Type} (f : β → AtomId) {whole : List β}
    (hnodup : (whole.map f).Nodup) (index count : Nat) :
    whole.filter (fun e => decide (f e ∉ ((whole.drop index).take count).map f)) =
      whole.take index ++ whole.drop (index + count) := by
  obtain ⟨before, hbefore⟩ : ∃ l, l = whole.take index := ⟨_, rfl⟩
  obtain ⟨stretch, hstretch⟩ : ∃ l, l = (whole.drop index).take count := ⟨_, rfl⟩
  obtain ⟨behind, hbehind⟩ : ∃ l, l = whole.drop (index + count) := ⟨_, rfl⟩
  have hwhole : whole = before ++ (stretch ++ behind) := by
    rw [hbefore, hstretch, hbehind, ← List.drop_drop, List.take_append_drop, List.take_append_drop]
  rw [← hbefore, ← hstretch, ← hbehind]
  clear hbefore hstretch hbehind
  subst hwhole
  rw [List.map_append, List.map_append, List.nodup_append, List.nodup_append] at hnodup
  obtain ⟨-, ⟨-, -, hlater⟩, hearlier⟩ := hnodup
  have hkeep : before.filter (fun e => decide (f e ∉ stretch.map f)) = before :=
    List.filter_eq_self.2 fun e he => decide_eq_true fun hin =>
      hearlier _ (List.mem_map_of_mem he) _ (List.mem_append_left _ hin) rfl
  have hcut : stretch.filter (fun e => decide (f e ∉ stretch.map f)) = [] :=
    List.filter_eq_nil_iff.2 fun e he => by simpa using ⟨e, he, rfl⟩
  have hrest : behind.filter (fun e => decide (f e ∉ stretch.map f)) = behind :=
    List.filter_eq_self.2 fun e he => decide_eq_true fun hin =>
      hlater _ hin _ (List.mem_map_of_mem he) rfl
  rw [List.filter_append, List.filter_append, hkeep, hcut, hrest, List.nil_append]

theorem shown_deleteAll (ids : List AtomId) :
    (s.deleteAll ids).shown = s.shown.filter fun e => decide (e.1 ∉ ids) := by
  rw [shown, order_deleteAll, shownIn, shown, shownIn, List.filter_filterMap]
  refine List.filterMap_congr fun a _ => ?_
  rw [value?_deleteAll]
  by_cases ha : a ∈ ids <;> cases s.value? a <;> simp [ha, Option.filter]

/-- Deleting a range of visible elements cuts it out. -/
theorem Tidy.spliced_deleteAll (h : s.Tidy) {index count : Nat}
    (hrange : index + count ≤ s.length) :
    s.Spliced (s.deleteAll (s.idsInRange index count)) index count [] := by
  refine ⟨hrange, ?_⟩
  have hnodup : (s.shown.map Prod.fst).Nodup := by
    rw [map_fst_shown]
    exact h.nodup.filter _
  rw [shown_deleteAll, idsInRange, ← map_fst_shown, ← List.map_drop, ← List.map_take,
    filter_not_mem_stretch Prod.fst hnodup, List.append_nil]

end CausalDoc.Sequence
