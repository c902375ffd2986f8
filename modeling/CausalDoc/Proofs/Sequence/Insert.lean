import CausalDoc.Proofs.Sequence.Tidy

/- Insertion into a tidy sequence.

   A new element becomes a leaf of the tree, and the place computed for it is the one
   where the walk of the larger tree meets it (`Tidy.insert`). A run of elements, which
   is spliced in at one place, gives what inserting its elements one after another
   gives (`insertRun_eq_insertEach`), whichever of them are there already; so whatever
   one insertion keeps, a run keeps. -/

namespace CausalDoc.Sequence

variable {α : Type} {s : Sequence α} {id : AtomId} {stamp : Stamp} {parent : Option AtomId}
  {value : α}

theorem splice_nil (s : Sequence α) (place : Nat) : s.splice place [] = s := by
  simp [splice]

theorem insert_of_contains (h : s.contains id = true) : s.insert id stamp parent value = s := by
  simp [insert, insertRun, Run.extend, Run.next, Run.flush, h, splice_nil]

theorem insert_of_fresh (h : s.contains id = false) :
    s.insert id stamp parent value =
      (s.addElement id stamp value parent
        (s.laterSiblings parent stamp ++ id :: s.otherSiblings parent stamp)).splice
        (s.placeFor parent stamp) [id] := by
  simp [insert, insertRun, Run.extend, Run.next, Run.flush, h, otherSiblings]

/-! ## The tree after an insertion -/

section Fresh

variable (h : s.contains id = false)

include h

theorem elements_insert :
    (s.insert id stamp parent value).elements = s.elements.insert id ⟨value, stamp, false⟩ := by
  rw [insert_of_fresh h]
  rfl

theorem get?_insert (x : AtomId) :
    (s.insert id stamp parent value).elements.get? x =
      if x = id then some ⟨value, stamp, false⟩ else s.elements.get? x := by
  rw [elements_insert h, OrderedMap.get?_insert]

theorem contains_insert_fresh (x : AtomId) :
    (s.insert id stamp parent value).contains x = (decide (x = id) || s.contains x) := by
  rw [contains, elements_insert h, OrderedMap.contains_insert]
  rfl

theorem children_insert (p : Option AtomId) :
    (s.insert id stamp parent value).children.get? p =
      if p = parent then
        some (s.laterSiblings parent stamp ++ id :: s.otherSiblings parent stamp)
      else s.children.get? p := by
  rw [insert_of_fresh h]
  exact OrderedMap.get?_insert ..

theorem childrenOf_insert (p : Option AtomId) :
    (s.insert id stamp parent value).childrenOf p =
      if p = parent then s.laterSiblings parent stamp ++ id :: s.otherSiblings parent stamp
      else s.childrenOf p := by
  unfold childrenOf
  rw [children_insert h]
  split <;> rfl

theorem order_insert :
    (s.insert id stamp parent value).order =
      s.order.take (s.placeFor parent stamp) ++ id :: s.order.drop (s.placeFor parent stamp) := by
  rw [insert_of_fresh h]
  simp [splice, addElement]

theorem mem_childrenOf_insert (p : Option AtomId) (x : AtomId) :
    x ∈ (s.insert id stamp parent value).childrenOf p ↔
      x = id ∧ p = parent ∨ x ∈ s.childrenOf p := by
  rw [childrenOf_insert h]
  split
  · next hp =>
    rw [hp, ← laterSiblings_append s parent stamp]
    simp only [List.mem_append, List.mem_cons, and_true]
    exact or_left_comm
  · next hp => simp [hp]

end Fresh

theorem contains_insert (x : AtomId) :
    (s.insert id stamp parent value).contains x = (decide (x = id) || s.contains x) := by
  cases h : s.contains id with
  | false => exact contains_insert_fresh h x
  | true =>
    rw [insert_of_contains h]
    by_cases hx : x = id
    · rw [hx, h]
      simp
    · simp [hx]

theorem hasAnchor_insert_of_hasAnchor {p : Option AtomId} (h : s.hasAnchor p = true) :
    (s.insert id stamp parent value).hasAnchor p = true := by
  cases p with
  | none => rfl
  | some p =>
    rw [hasAnchor, Option.all_some] at h ⊢
    rw [contains_insert, h, Bool.or_true]

theorem hasAnchor_insert_self : (s.insert id stamp parent value).hasAnchor (some id) = true := by
  rw [hasAnchor, Option.all_some, contains_insert]
  simp

/-! ## The place of a new element -/

/-- The place computed for a new leaf is where the walk of the larger tree meets it. -/
theorem Tidy.walk_insert (h : s.Tidy) (stamp : Stamp) (value : α) (hid : s.contains id = false)
    (hparent : s.hasAnchor parent = true) :
    ∃ front back, s.order = front ++ back ∧ s.placeFor parent stamp = front.length ∧
      Walk (s.insert id stamp parent value).childrenOf
        ((s.insert id stamp parent value).childrenOf none) (front ++ id :: back) := by
  have hnot : id ∉ s.order := fun hm => by rw [h.mem_order, hid] at hm; cases hm
  -- the siblings before the leaf end where their last one leads
  have hlast : ∀ {walked : List AtomId}, walked.length ≤ s.order.length →
      Walk s.childrenOf (s.laterSiblings parent stamp) walked →
      ∀ {sibling}, (s.laterSiblings parent stamp).getLast? = some sibling →
        walked.getLast? = some (s.lastDescendant sibling) := by
    intro walked hle hwalked sibling hsibling
    exact hwalked.getLast?_eq hsibling (h.length_order ▸ hle)
  have hleaf : some id ≠ parent := by
    intro heq
    subst heq
    rw [hasAnchor, Option.all_some, hid] at hparent
    cases hparent
  have hleafChildren : (s.insert id stamp parent value).childrenOf (some id) = [] := by
    rw [childrenOf_insert hid, if_neg hleaf, h.childrenOf_eq_nil hid]
  cases parent with
  | none =>
    have hwalk := h.walk
    rw [← laterSiblings_append s none stamp] at hwalk
    obtain ⟨front, back, horder, hfront, hback⟩ := hwalk.of_append
    refine ⟨front, back, horder, ?_, ?_⟩
    · unfold placeFor
      cases hsib : (s.laterSiblings none stamp).getLast? with
      | some sibling =>
        exact position_getLast h.nodup horder
          (hlast (by rw [horder, List.length_append]; omega) hfront hsib)
      | none =>
        rw [List.getLast?_eq_none_iff.1 hsib] at hfront
        cases hfront
        rfl
    · have hsame : ∀ {siblings order : List AtomId}, Walk s.childrenOf siblings order →
          Walk (s.insert id stamp none value).childrenOf siblings order := fun hw =>
        hw.congr fun x _ => by rw [childrenOf_insert hid, if_neg (Option.some_ne_none x)]
      rw [childrenOf_insert hid, if_pos rfl]
      have hleafWalk : Walk (s.insert id stamp none value).childrenOf
          ((s.insert id stamp none value).childrenOf (some id)) [] := by
        rw [hleafChildren]
        exact .nil
      exact (hsame hfront).append (.cons hleafWalk (hsame hback))
  | some p =>
    have hp : p ∈ s.order := (h.mem_order p).2 hparent
    obtain ⟨front, walked, back, horder, hwalked, hgrafted⟩ :=
      h.walk.graft (s.insert id stamp (some p) value).childrenOf id h.nodup hp (laterSiblings_append s (some p) stamp).symm
        (by rw [childrenOf_insert hid, if_pos rfl]) hleafChildren
        (fun q hq => by rw [childrenOf_insert hid, if_neg hq])
    refine ⟨front ++ p :: walked, back, horder, ?_, ?_⟩
    · unfold placeFor
      cases hsib : (s.laterSiblings (some p) stamp).getLast? with
      | some sibling =>
        refine position_getLast h.nodup horder ?_
        have := hlast (by rw [horder]; simp; omega) hwalked hsib
        rw [List.getLast?_append, List.getLast?_cons, this]
        simp
      | none =>
        rw [List.getLast?_eq_none_iff.1 hsib] at hwalked
        cases hwalked
        exact position_getLast h.nodup horder (by simp)
    · rw [childrenOf_insert hid, if_neg (Option.some_ne_none p).symm]
      exact hgrafted

theorem Tidy.order_insert (h : s.Tidy) (stamp : Stamp) (value : α) (hid : s.contains id = false)
    (hparent : s.hasAnchor parent = true) :
    ∃ front back, s.order = front ++ back ∧
      (s.insert id stamp parent value).order = front ++ id :: back := by
  obtain ⟨front, back, horder, hplace, -⟩ :=
    h.walk_insert stamp value hid hparent
  refine ⟨front, back, horder, ?_⟩
  rw [Sequence.order_insert hid, hplace, horder, List.take_left, List.drop_left]

theorem value?_insert (hid : s.contains id = false) (x : AtomId) :
    (s.insert id stamp parent value).value? x = if x = id then some value else s.value? x := by
  unfold value?
  rw [get?_insert hid]
  by_cases hx : x = id
  · rw [if_pos hx, if_pos hx]
    rfl
  · rw [if_neg hx, if_neg hx]

/-- Behind and before a new element the visible elements are the old ones. -/
theorem Tidy.visibleIds_insert (h : s.Tidy) (stamp : Stamp) (value : α) (hid : s.contains id = false)
    (hparent : s.hasAnchor parent = true) :
    ∃ front back, s.visibleIds = front ++ back ∧
      (s.insert id stamp parent value).visibleIds = front ++ id :: back := by
  obtain ⟨front, back, horder, hnew⟩ :=
    h.order_insert stamp value hid hparent
  have hnot : id ∉ s.order := fun hm => by rw [h.mem_order, hid] at hm; cases hm
  have hkept : ∀ part : List AtomId, id ∉ part →
      part.filter (fun x => ((s.insert id stamp parent value).value? x).isSome) =
        part.filter (fun x => (s.value? x).isSome) := by
    intro part hpart
    refine List.filter_congr fun x hx => ?_
    rw [value?_insert hid, if_neg]
    intro heq
    subst heq
    exact hpart hx
  rw [horder, List.mem_append, not_or] at hnot
  refine ⟨front.filter fun x => (s.value? x).isSome, back.filter fun x => (s.value? x).isSome,
    ?_, ?_⟩
  · rw [visibleIds, horder, List.filter_append]
  · rw [visibleIds, hnew, List.filter_append, List.filter_cons_of_pos, hkept front hnot.1,
      hkept back hnot.2]
    rw [value?_insert hid, if_pos rfl]
    rfl

/-! ## A tidy sequence stays tidy -/

theorem Tidy.sorted_insert (h : s.Tidy) (hid : s.contains id = false)
    (p : Option AtomId) :
    ((s.insert id stamp parent value).childrenOf p).Pairwise
      (s.insert id stamp parent value).NotBelow := by
  -- among elements that were there nothing changes
  have hold : ∀ {a b : AtomId}, a ≠ id → b ≠ id → s.NotBelow a b →
      (s.insert id stamp parent value).NotBelow a b := by
    intro a b ha hb hab x y hx hy
    rw [get?_insert hid, if_neg ha] at hx
    rw [get?_insert hid, if_neg hb] at hy
    exact hab x y hx hy
  have hne : ∀ {q : Option AtomId} {x : AtomId}, x ∈ s.childrenOf q → x ≠ id := by
    intro q x hx heq
    subst heq
    rw [h.contains_of_child hx] at hid
    cases hid
  rw [childrenOf_insert hid]
  split
  · have hsorted := h.sorted parent
    have hmem : ∀ x, x ∈ s.childrenOf parent ↔
        x ∈ s.laterSiblings parent stamp ∨ x ∈ s.otherSiblings parent stamp := by
      intro x
      rw [← laterSiblings_append s parent stamp, List.mem_append]
    rw [← laterSiblings_append s parent stamp, List.pairwise_append] at hsorted
    obtain ⟨hlater, hother, hcross⟩ := hsorted
    have hneLater : ∀ x ∈ s.laterSiblings parent stamp, x ≠ id :=
      fun x hx => hne ((hmem x).2 (.inl hx))
    have hneOther : ∀ x ∈ s.otherSiblings parent stamp, x ≠ id :=
      fun x hx => hne ((hmem x).2 (.inr hx))
    rw [List.pairwise_append, List.pairwise_cons]
    refine ⟨hlater.imp_of_mem fun ha hb hab => hold (hneLater _ ha) (hneLater _ hb) hab,
      ⟨?_, hother.imp_of_mem fun ha hb hab => hold (hneOther _ ha) (hneOther _ hb) hab⟩, ?_⟩
    · -- the new element against those behind it
      intro b hb x y hx hy hlt
      rw [get?_insert hid, if_pos rfl, Option.some.injEq] at hx
      rw [get?_insert hid, if_neg (hneOther b hb)] at hy
      subst hx
      have hb' := h.not_isLater_of_mem_otherSiblings hb
      rw [isLater_iff.2 ⟨y, hy, hlt⟩] at hb'
      cases hb'
    · intro a ha b hb
      rcases List.mem_cons.1 hb with rfl | hb
      · -- those before it against the new element
        intro x y hx hy hlt
        rw [get?_insert hid, if_neg (hneLater a ha)] at hx
        rw [get?_insert hid, if_pos rfl, Option.some.injEq] at hy
        subst hy
        obtain ⟨e, he, hlater⟩ := isLater_iff.1 (isLater_of_mem_laterSiblings ha)
        rw [hx, Option.some.injEq] at he
        subst he
        exact Stamp.lt_irrefl _ (Stamp.lt_trans hlt hlater)
      · exact hold (hneLater a ha) (hneOther b hb) (hcross a ha b hb)
  · exact (h.sorted p).imp_of_mem fun ha hb hab => hold (hne ha) (hne hb) hab

/-- Inserting an element after one that is there keeps a sequence tidy. -/
theorem Tidy.insert (h : s.Tidy) (hparent : s.hasAnchor parent = true) :
    (s.insert id stamp parent value).Tidy := by
  cases hid : s.contains id with
  | true => rwa [insert_of_contains hid]
  | false =>
    obtain ⟨front, back, horder, hplace, hwalk⟩ :=
      h.walk_insert stamp value hid hparent
    have hnew : (s.insert id stamp parent value).order = front ++ id :: back := by
      rw [Sequence.order_insert hid, hplace, horder, List.take_left, List.drop_left]
    have hperm : (front ++ id :: back).Perm (id :: s.order) := by
      rw [horder]
      exact List.perm_middle
    have hnot : id ∉ s.order := fun hm => by rw [h.mem_order, hid] at hm; cases hm
    refine ⟨?_, ?_, ?_, ?_, h.sorted_insert hid, ?_⟩
    · rw [hnew]
      exact hwalk
    · rw [hnew, hperm.nodup_iff]
      exact List.nodup_cons.2 ⟨hnot, h.nodup⟩
    · intro x
      rw [hnew, hperm.mem_iff, List.mem_cons, h.mem_order, contains_insert, Bool.or_eq_true,
        decide_eq_true_eq]
    · intro p cs hcs
      rw [children_insert hid] at hcs
      split at hcs
      · next hp =>
        rw [hp]
        simp only [Option.some.injEq] at hcs
        exact ⟨by rw [← hcs]; simp, hasAnchor_insert_of_hasAnchor hparent⟩
      · obtain ⟨hne, hp⟩ := h.parents p cs hcs
        exact ⟨hne, hasAnchor_insert_of_hasAnchor hp⟩
    · obtain ⟨front, back, hold, hnew⟩ :=
        h.visibleIds_insert stamp value hid hparent
      have hcount : (s.insert id stamp parent value).visible = s.visible + 1 := by
        rw [insert_of_fresh hid]
        rfl
      rw [hcount, h.visible, hold, hnew]
      simp only [List.length_append, List.length_cons]
      omega

/-! ## Runs -/

/-- Inserts elements with consecutive names and stamps one after another, each anchored to the
one before it. -/
def insertEach (s : Sequence α) (id : AtomId) (stamp : Stamp) (parent : Option AtomId) :
    List α → Sequence α
  | [] => s
  | value :: values =>
    (s.insert id stamp parent value).insertEach (id.forward 1) (stamp.forward 1) (some id) values

/-- What holds of a run under way: the elements that wait for their places are new to the order,
and the last of them, to which the next one will be anchored, has no child yet. -/
structure Run.Fits (run : Run α) : Prop where
  within : run.fresh ≠ [] → run.place ≤ run.sequence.order.length
  last : run.fresh ≠ [] → ∃ last, run.fresh.getLast? = some last ∧ run.parent = some last ∧
    run.sequence.childrenOf (some last) = []

theorem Run.flush_eq_of_nil {run : Run α} (h : run.fresh = []) : run.flush = run.sequence := by
  rw [flush, h, splice_nil]

@[simp] theorem Run.contains_flush (run : Run α) (x : AtomId) :
    run.flush.contains x = run.sequence.contains x := rfl

theorem Run.leaf_addElement {run : Run α} {id : AtomId} (htidy : run.flush.Tidy)
    (hparent : run.flush.hasAnchor run.parent = true) (hid : run.sequence.contains id = false)
    (stamp : Stamp) (value : α) (siblings : List AtomId) :
    (run.sequence.addElement id stamp value run.parent siblings).childrenOf (some id) = [] := by
  have hne : some id ≠ run.parent := by
    intro heq
    rw [← heq, hasAnchor, Option.all_some, contains_flush, hid] at hparent
    cases hparent
  have hleaf : run.sequence.childrenOf (some id) = [] := htidy.childrenOf_eq_nil hid
  simpa [childrenOf, addElement, OrderedMap.get?_insert, hne] using hleaf

/-- The first new element of a stretch: its place is computed. -/
theorem Run.next_first {run : Run α} {id : AtomId} (stamp : Stamp) (value : α)
    (htidy : run.flush.Tidy) (hparent : run.flush.hasAnchor run.parent = true)
    (hid : run.sequence.contains id = false) (hfresh : run.fresh = []) :
    (run.next id stamp value).flush = run.flush.insert id stamp run.parent value ∧
      (run.next id stamp value).Fits ∧ (run.next id stamp value).parent = some id := by
  have hleaf := run.leaf_addElement htidy hparent hid stamp value
  have hnext : run.next id stamp value =
      ⟨run.sequence.addElement id stamp value run.parent
        (run.sequence.laterSiblings run.parent stamp ++
          id :: run.sequence.otherSiblings run.parent stamp),
        some id, [id], run.sequence.placeFor run.parent stamp⟩ := by
    simp [next, hid, hfresh, otherSiblings]
  rw [flush_eq_of_nil hfresh] at htidy hparent ⊢
  obtain ⟨front, back, horder, hplace, -⟩ := htidy.walk_insert stamp value hid hparent
  rw [hnext, insert_of_fresh hid]
  refine ⟨rfl, ⟨fun _ => ?_, fun _ => ⟨id, rfl, rfl, hleaf _⟩⟩, rfl⟩
  show run.sequence.placeFor run.parent stamp ≤ run.sequence.order.length
  rw [hplace, horder, List.length_append]
  omega

/-- Behind the waiting elements is where the next one belongs, and it has no sibling there. -/
theorem Run.placeFor_flush {run : Run α} (stamp : Stamp) (hfits : run.Fits)
    (htidy : run.flush.Tidy) (hfresh : run.fresh ≠ []) :
    run.flush.laterSiblings run.parent stamp = [] ∧
      run.flush.otherSiblings run.parent stamp = [] ∧
      run.flush.placeFor run.parent stamp = run.place + run.fresh.length := by
  obtain ⟨last, hlast, hpar, hnone⟩ := hfits.last hfresh
  have hwithin := hfits.within hfresh
  have hsib : run.flush.childrenOf run.parent = [] := by
    rw [hpar]
    exact hnone
  have hbefore : run.flush.laterSiblings run.parent stamp = [] := by
    rw [laterSiblings, hsib, List.takeWhile_nil]
  refine ⟨hbefore, by rw [otherSiblings, hsib, List.drop_nil], ?_⟩
  have horder : run.flush.order =
      (run.sequence.order.take run.place ++ run.fresh) ++ run.sequence.order.drop run.place := rfl
  unfold placeFor
  rw [hbefore, hpar]
  refine (position_getLast htidy.nodup horder ?_).trans ?_
  · rw [List.getLast?_append, hlast]
    rfl
  · rw [List.length_append, List.length_take]
    omega

/-- A new element behind a new one: it waits with that for their common place. -/
theorem Run.next_more {run : Run α} {id : AtomId} (stamp : Stamp) (value : α) (hfits : run.Fits)
    (htidy : run.flush.Tidy) (hparent : run.flush.hasAnchor run.parent = true)
    (hid : run.sequence.contains id = false) (hfresh : run.fresh ≠ []) :
    (run.next id stamp value).flush = run.flush.insert id stamp run.parent value ∧
      (run.next id stamp value).Fits ∧ (run.next id stamp value).parent = some id := by
  have hwithin := hfits.within hfresh
  have hleaf := run.leaf_addElement htidy hparent hid stamp value [id]
  obtain ⟨hbefore, hbehind, hplace⟩ := run.placeFor_flush stamp hfits htidy hfresh
  have hnext : run.next id stamp value =
      ⟨run.sequence.addElement id stamp value run.parent [id], some id, run.fresh ++ [id],
        run.place⟩ := by
    simp [next, hid, hfresh]
  rw [hnext]
  refine ⟨?_, ⟨fun _ => hwithin, fun _ => ⟨id, by simp, rfl, hleaf⟩⟩, rfl⟩
  -- the waiting elements and the next one go in as one stretch, or one after the other
  have hnew : run.flush.contains id = false := hid
  rw [insert_of_fresh hnew, hbefore, hbehind, hplace]
  show (run.sequence.addElement id stamp value run.parent [id]).splice run.place
    (run.fresh ++ [id]) = _
  unfold splice addElement flush
  congr 1
  have horder : run.flush.order =
      (run.sequence.order.take run.place ++ run.fresh) ++ run.sequence.order.drop run.place := rfl
  have hlength : run.place + run.fresh.length =
      (run.sequence.order.take run.place ++ run.fresh).length := by
    rw [List.length_append, List.length_take]
    omega
  show _ = List.take (run.place + run.fresh.length) run.flush.order ++ [id] ++
    List.drop (run.place + run.fresh.length) run.flush.order
  rw [horder, hlength, List.take_left, List.drop_left]
  simp

/-- The next element of a run lands where inserting it by itself would put it. -/
theorem Run.next_spec {run : Run α} (id : AtomId) (stamp : Stamp) (value : α) (hfits : run.Fits)
    (htidy : run.flush.Tidy) (hparent : run.flush.hasAnchor run.parent = true) :
    (run.next id stamp value).flush = run.flush.insert id stamp run.parent value ∧
      (run.next id stamp value).Fits ∧ (run.next id stamp value).parent = some id := by
  cases hid : run.sequence.contains id with
  | true =>
    have hnext : run.next id stamp value = ⟨run.flush, some id, [], run.place⟩ := by
      rw [next, if_pos hid]
    have hknown : run.flush.contains id = true := hid
    rw [hnext, insert_of_contains hknown, flush_eq_of_nil rfl]
    exact ⟨rfl, ⟨fun h => absurd rfl h, fun h => absurd rfl h⟩, rfl⟩
  | false =>
    by_cases hfresh : run.fresh = []
    · exact run.next_first stamp value htidy hparent hid hfresh
    · exact run.next_more stamp value hfits htidy hparent hid hfresh

theorem Run.extend_flush :
    ∀ (values : List α) (run : Run α) (id : AtomId) (stamp : Stamp), run.Fits → run.flush.Tidy →
      run.flush.hasAnchor run.parent = true →
      (run.extend id stamp values).flush = run.flush.insertEach id stamp run.parent values
  | [], _, _, _, _, _, _ => rfl
  | value :: values, run, id, stamp, hfits, htidy, hparent => by
    obtain ⟨hflush, hfits', hpar⟩ :=
      next_spec id stamp value hfits htidy hparent
    have htidy' : (run.next id stamp value).flush.Tidy := hflush ▸ htidy.insert hparent
    have hparent' : (run.next id stamp value).flush.hasAnchor (run.next id stamp value).parent =
        true := by
      rw [hflush, hpar]
      exact hasAnchor_insert_self
    rw [extend, insertEach, extend_flush values _ _ _ hfits' htidy' hparent', hflush, hpar]

/-- A run goes in as its elements would one by one, whichever of them are there already. -/
theorem Tidy.insertRun_eq_insertEach (h : s.Tidy) (hparent : s.hasAnchor parent = true)
    (values : List α) :
    s.insertRun id stamp parent values = s.insertEach id stamp parent values := by
  have hflush : (⟨s, parent, [], 0⟩ : Run α).flush = s := Run.flush_eq_of_nil rfl
  have := Run.extend_flush values ⟨s, parent, [], 0⟩ id stamp
    ⟨fun h => absurd rfl h, fun h => absurd rfl h⟩ (hflush.symm ▸ h) (hflush.symm ▸ hparent)
  rwa [hflush] at this

theorem Tidy.insertEach (values : List α) :
    ∀ {s : Sequence α} {id : AtomId} {stamp : Stamp} {parent : Option AtomId}, s.Tidy →
      s.hasAnchor parent = true → (s.insertEach id stamp parent values).Tidy := by
  induction values with
  | nil => exact fun h _ => h
  | cons value values ih => exact fun h hparent => ih (h.insert hparent) hasAnchor_insert_self

/-- Inserting a run behind an element that is there keeps a sequence tidy. -/
theorem Tidy.insertRun (h : s.Tidy) (hparent : s.hasAnchor parent = true) (values : List α) :
    (s.insertRun id stamp parent values).Tidy := by
  rw [h.insertRun_eq_insertEach hparent]
  exact Tidy.insertEach values h hparent

/-! ## What a new run adds -/

/-- The anchor of the element `n` places into a run. -/
def anchorAt (id : AtomId) (parent : Option AtomId) (n : Nat) : Option AtomId :=
  if n = 0 then parent else some (id.forward (n - 1))

theorem anchorAt_anchorAt (id : AtomId) (parent : Option AtomId) (k n : Nat) :
    anchorAt (id.forward k) (anchorAt id parent k) n = anchorAt id parent (k + n) := by
  unfold anchorAt
  by_cases hn : n = 0
  · subst hn
    rfl
  · rw [if_neg hn, if_neg (by omega), AtomId.forward_forward]
    congr 2
    omega

theorem anchorAt_forward (id : AtomId) (parent : Option AtomId) (n : Nat) :
    anchorAt (id.forward 1) (some id) n = anchorAt id parent (n + 1) := by
  rw [Nat.add_comm, ← anchorAt_anchorAt]
  rfl

/-- The names a run would give its elements are free. -/
def Fresh (s : Sequence α) (id : AtomId) (length : Nat) : Prop :=
  ∀ n < length, s.contains (id.forward n) = false

theorem Fresh.tail {length : Nat} (h : s.Fresh id (length + 1)) :
    (s.insert id stamp parent value).Fresh (id.forward 1) length := by
  intro n hn
  have hne : id.forward (1 + n) ≠ id := by
    intro heq
    have := AtomId.forward_inj.1 (heq.trans (AtomId.forward_zero id).symm)
    omega
  rw [AtomId.forward_forward, contains_insert, h (1 + n) (by omega), Bool.or_false]
  exact decide_eq_false hne

theorem get?_insertEach_iff {a : AtomId} {e : Element α} :
    ∀ (values : List α) {s : Sequence α} {id : AtomId} {stamp : Stamp} {parent : Option AtomId},
      (s.insertEach id stamp parent values).elements.get? a = some e ↔
        s.elements.get? a = some e ∨ s.contains a = false ∧
          ∃ n v, values[n]? = some v ∧ a = id.forward n ∧ e = ⟨v, stamp.forward n, false⟩
  | [], _, _, _, _ => by simp [insertEach]
  | value :: values, s, id, stamp, parent => by
    -- the first element, if it is new, and then the run of the others
    have hfirst : (s.insert id stamp parent value).elements.get? a = some e ↔
        s.elements.get? a = some e ∨ s.contains a = false ∧ a = id ∧ e = ⟨value, stamp, false⟩ := by
      cases hid : s.contains id with
      | true =>
        rw [insert_of_contains hid]
        refine ⟨.inl, fun hcase => hcase.resolve_right ?_⟩
        rintro ⟨ha, rfl, -⟩
        rw [hid] at ha
        cases ha
      | false =>
        have hnone := contains_eq_false_iff.1 hid
        rw [get?_insert hid]
        by_cases ha : a = id
        · subst ha
          simp [hid, hnone, eq_comm]
        · simp [ha]
    rw [insertEach, get?_insertEach_iff values, hfirst, contains_insert, Bool.or_eq_false_iff,
      decide_eq_false_iff_not]
    refine ⟨?_, ?_⟩
    · rintro ((hget | ⟨ha, rfl, rfl⟩) | ⟨⟨-, ha⟩, n, v, hv, rfl, rfl⟩)
      · exact .inl hget
      · exact .inr ⟨ha, 0, value, rfl, rfl, rfl⟩
      · refine .inr ⟨ha, n + 1, v, by simpa using hv, ?_, ?_⟩
        · rw [AtomId.forward_forward, Nat.add_comm]
        · rw [Stamp.forward_forward, Nat.add_comm]
    · rintro (hget | ⟨ha, n, v, hv, rfl, rfl⟩)
      · exact .inl (.inl hget)
      · cases n with
        | zero =>
          rw [List.getElem?_cons_zero, Option.some.injEq] at hv
          exact .inl (.inr ⟨ha, rfl, by rw [hv, Stamp.forward_zero]⟩)
        | succ n =>
          refine .inr ⟨⟨fun heq => ?_, ha⟩, n, v, by simpa using hv, ?_, ?_⟩
          · have := AtomId.forward_inj.1 (heq.trans (AtomId.forward_zero id).symm)
            omega
          · rw [AtomId.forward_forward, Nat.add_comm]
          · rw [Stamp.forward_forward, Nat.add_comm]

/-- The elements that a run adds are chained, the first to the run's anchor. -/
theorem mem_childrenOf_insertEach_iff {a : AtomId} {p : Option AtomId} :
    ∀ (values : List α) {s : Sequence α} {id : AtomId} {stamp : Stamp} {parent : Option AtomId},
      a ∈ (s.insertEach id stamp parent values).childrenOf p ↔
        a ∈ s.childrenOf p ∨ s.contains a = false ∧
          ∃ n < values.length, a = id.forward n ∧ p = anchorAt id parent n
  | [], _, _, _, _ => by simp [insertEach]
  | value :: values, s, id, stamp, parent => by
    have hfirst : a ∈ (s.insert id stamp parent value).childrenOf p ↔
        a ∈ s.childrenOf p ∨ s.contains a = false ∧ a = id ∧ p = parent := by
      cases hid : s.contains id with
      | true =>
        rw [insert_of_contains hid]
        refine ⟨.inl, fun hcase => hcase.resolve_right ?_⟩
        rintro ⟨ha, rfl, -⟩
        rw [hid] at ha
        cases ha
      | false =>
        rw [mem_childrenOf_insert hid, or_comm]
        refine or_congr_right ⟨fun hnew => ⟨hnew.1 ▸ hid, hnew⟩, And.right⟩
    rw [insertEach, mem_childrenOf_insertEach_iff values, hfirst, contains_insert,
      Bool.or_eq_false_iff, decide_eq_false_iff_not]
    refine ⟨?_, ?_⟩
    · rintro ((hmem | ⟨ha, rfl, rfl⟩) | ⟨⟨-, ha⟩, n, hn, rfl, rfl⟩)
      · exact .inl hmem
      · exact .inr ⟨ha, 0, Nat.succ_pos _, rfl, rfl⟩
      · refine .inr ⟨ha, n + 1, Nat.succ_lt_succ hn, ?_, anchorAt_forward id parent n⟩
        rw [AtomId.forward_forward, Nat.add_comm]
    · rintro (hmem | ⟨ha, n, hn, rfl, rfl⟩)
      · exact .inl (.inl hmem)
      · cases n with
        | zero => exact .inl (.inr ⟨ha, rfl, rfl⟩)
        | succ n =>
          refine .inr ⟨⟨fun heq => ?_, ha⟩, n, Nat.lt_of_succ_lt_succ hn, ?_,
            (anchorAt_forward id parent n).symm⟩
          · have := AtomId.forward_inj.1 (heq.trans (AtomId.forward_zero id).symm)
            omega
          · rw [AtomId.forward_forward, Nat.add_comm]

theorem get?_insertEach {a : AtomId} {e : Element α} (values : List α)
    (hfresh : s.Fresh id values.length) :
    (s.insertEach id stamp parent values).elements.get? a = some e ↔
      (∃ n v, values[n]? = some v ∧ a = id.forward n ∧ e = ⟨v, stamp.forward n, false⟩) ∨
        s.elements.get? a = some e := by
  rw [get?_insertEach_iff, or_comm]
  refine or_congr_left ⟨And.right, fun hnew => ⟨?_, hnew⟩⟩
  obtain ⟨n, v, hv, rfl, -⟩ := hnew
  exact hfresh n (List.getElem?_eq_some_iff.1 hv).1

theorem mem_childrenOf_insertEach {a : AtomId} {p : Option AtomId} (values : List α)
    (hfresh : s.Fresh id values.length) :
    a ∈ (s.insertEach id stamp parent values).childrenOf p ↔
      (∃ n < values.length, a = id.forward n ∧ p = anchorAt id parent n) ∨
        a ∈ s.childrenOf p := by
  rw [mem_childrenOf_insertEach_iff, or_comm]
  refine or_congr_left ⟨And.right, fun hnew => ⟨?_, hnew⟩⟩
  obtain ⟨n, hn, rfl, -⟩ := hnew
  exact hfresh n hn

end CausalDoc.Sequence
