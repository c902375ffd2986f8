import Mathlib.Data.List.Nodup
import CausalDoc.Proofs.Container.Reading
import CausalDoc.Proofs.Sequence.Representation

/- What operations do to a sequence, atom by atom.

   A tidy sequence with different stamps is determined by which element stands under which
   name and behind which other (`Has`, `Tidy.ext_of_has`). An operation marks the elements
   that it names, and adds those of its atoms that are not there yet (`Adds`,
   `Tidy.has_take`). From this there are three laws. An insertion after one of its parts
   gives what it gives by itself (`Tidy.take_take_of_adds`); it may change places with
   another operation that refers to elements that are there (`Tidy.take_comm`); and it
   changes nothing once all of its atoms are there (`Tidy.take_of_contains`). -/

namespace CausalDoc.Sequence

variable {α : Type} {s : Sequence α}

/-- The element `e` stands in the sequence under the name `a`, behind `p`. -/
def Has (s : Sequence α) (a : AtomId) (p : Option AtomId) (e : Element α) : Prop :=
  s.elements.get? a = some e ∧ a ∈ s.childrenOf p

/-- A tidy sequence is determined by its elements and what each of them stands behind. -/
theorem Tidy.ext_of_has {t : Sequence α} (h : s.Tidy) (ht : t.Tidy) (hdistinct : s.Distinct)
    (hhas : ∀ a p e, s.Has a p e ↔ t.Has a p e) : s = t := by
  -- every element has a parent, and every child is an element
  have helement : ∀ {r : Sequence α}, r.Tidy → ∀ a e,
      (r.elements.get? a = some e ↔ ∃ p, r.Has a p e) := by
    intro r hr a e
    refine ⟨fun he => ?_, fun hp => hp.choose_spec.1⟩
    obtain ⟨p, hp, -⟩ := hr.exists_unique_parent (contains_iff.2 ⟨e, he⟩)
    exact ⟨p, he, hp⟩
  have hchild : ∀ {r : Sequence α}, r.Tidy → ∀ a p, (a ∈ r.childrenOf p ↔ ∃ e, r.Has a p e) := by
    intro r hr a p
    refine ⟨fun hp => ?_, fun he => he.choose_spec.2⟩
    obtain ⟨e, he⟩ := contains_iff.1 (hr.contains_of_child hp)
    exact ⟨e, he, hp⟩
  refine h.ext_of_distinct ht hdistinct (fun a e => ?_) fun a p => ?_
  · rw [helement h, helement ht]
    exact exists_congr fun p => hhas a p e
  · rw [hchild h, hchild ht]
    exact exists_congr fun e => hhas a p e

/-- The insertion has an atom `a` behind `p`, and the element of it is `e`. -/
def Adds (op : Operation) (insertion : Option (Insertion α)) (a : AtomId) (p : Option AtomId)
    (e : Element α) : Prop :=
  ∃ i n v, insertion = some i ∧ i.values[n]? = some v ∧ a = op.id.forward n ∧
    p = anchorAt op.id i.anchor n ∧ e = ⟨v, op.stamp.forward n, false⟩

theorem Adds.functional {op : Operation} {insertion : Option (Insertion α)} {a : AtomId}
    {p p' : Option AtomId} {e e' : Element α} (h : Adds op insertion a p e)
    (h' : Adds op insertion a p' e') : p = p' ∧ e = e' := by
  obtain ⟨i, n, v, hi, hv, rfl, rfl, rfl⟩ := h
  obtain ⟨i', n', v', hi', hv', ha, rfl, rfl⟩ := h'
  obtain rfl := AtomId.forward_inj.1 ha
  obtain rfl := Option.some.inj (hi.symm.trans hi')
  obtain rfl := Option.some.inj (hv.symm.trans hv')
  exact ⟨rfl, rfl⟩

section Take

variable {read : Operation → Option (Insertion α)} (hread : Reading read) {op : Operation}

include hread

theorem Adds.covers {a : AtomId} {p : Option AtomId} {e : Element α}
    (h : Adds op (read op) a p e) : op.covers a = true := by
  obtain ⟨i, n, v, hi, hv, rfl, -⟩ := h
  exact Operation.covers_forward (hread.length hi ▸ (List.getElem?_eq_some_iff.1 hv).1)

theorem exists_adds {i : Insertion α} (hi : read op = some i) {a : AtomId}
    (h : op.covers a = true) : ∃ p e, Adds op (read op) a p e := by
  obtain ⟨n, hn, rfl⟩ := Operation.exists_forward h
  rw [← hread.length hi] at hn
  exact ⟨_, _, i, n, i.values[n], hi, by simp [hn], rfl, rfl, rfl⟩

/-- Elements that are there are marked, if the operation names them, and the others come from
the operation. -/
theorem Tidy.get?_take (h : s.Tidy) (hanchor : s.hasAnchor op.anchor? = true) {a : AtomId}
    {e : Element α} :
    (s.take op (read op)).elements.get? a = some e ↔
      (∃ e₀, s.elements.get? a = some e₀ ∧ e = e₀.marked (decide (a ∈ op.targets))) ∨
        s.contains a = false ∧ ∃ p, Adds op (read op) a p e := by
  unfold Sequence.take Adds
  cases hi : read op with
  | none =>
    dsimp only
    rw [get?_deleteAll, Option.map_eq_some_iff]
    simp only [reduceCtorEq, false_and, exists_false, and_false, or_false]
    exact exists_congr fun e₀ => and_congr_right fun _ => eq_comm
  | some i =>
    dsimp only
    rw [hread.anchor hi] at hanchor
    rw [if_pos hanchor, h.insertRun_eq_insertEach hanchor, get?_insertEach_iff, hread.targets hi]
    simp [Element.marked]

theorem Tidy.mem_childrenOf_take (h : s.Tidy) (hanchor : s.hasAnchor op.anchor? = true)
    {a : AtomId} {p : Option AtomId} :
    a ∈ (s.take op (read op)).childrenOf p ↔
      a ∈ s.childrenOf p ∨ s.contains a = false ∧ ∃ e, Adds op (read op) a p e := by
  unfold Sequence.take Adds
  cases hi : read op with
  | none =>
    dsimp only
    rw [childrenOf_deleteAll]
    simp
  | some i =>
    dsimp only
    rw [hread.anchor hi] at hanchor
    rw [if_pos hanchor, h.insertRun_eq_insertEach hanchor, mem_childrenOf_insertEach_iff]
    refine or_congr_right (and_congr_right fun _ => ⟨?_, ?_⟩)
    · intro hnew
      obtain ⟨n, hn, ha, hp⟩ := hnew
      exact ⟨_, i, n, i.values[n], rfl, by simp [hn], ha, hp, rfl⟩
    · intro hnew
      obtain ⟨e, i', n, v, hi', hv, ha, hp, -⟩ := hnew
      obtain rfl := Option.some.inj hi'
      exact ⟨n, (List.getElem?_eq_some_iff.1 hv).1, ha, hp⟩

theorem Tidy.contains_take_iff (h : s.Tidy) (hanchor : s.hasAnchor op.anchor? = true)
    {a : AtomId} :
    (s.take op (read op)).contains a = true ↔
      s.contains a = true ∨ ∃ p e, Adds op (read op) a p e := by
  rw [contains_iff, contains_iff]
  refine ⟨?_, ?_⟩
  · intro hgiven
    obtain ⟨e, he⟩ := hgiven
    rcases (h.get?_take hread hanchor).1 he with ⟨e₀, he₀, -⟩ | ⟨-, p, hadds⟩
    · exact .inl ⟨e₀, he₀⟩
    · exact .inr ⟨p, e, hadds⟩
  · intro hcase
    cases ha : s.elements.get? a with
    | some e₀ => exact ⟨_, (h.get?_take hread hanchor).2 (.inl ⟨e₀, ha, rfl⟩)⟩
    | none =>
      rw [ha] at hcase
      rcases hcase with ⟨e, he⟩ | ⟨p, e, hadds⟩
      · cases he
      · exact ⟨e, (h.get?_take hread hanchor).2 (.inr ⟨contains_eq_false_iff.2 ha, p, hadds⟩)⟩

theorem Tidy.hasAnchor_take (h : s.Tidy) (hanchor : s.hasAnchor op.anchor? = true)
    {p : Option AtomId} (hp : s.hasAnchor p = true) :
    (s.take op (read op)).hasAnchor p = true := by
  cases p with
  | none => rfl
  | some a =>
    rw [hasAnchor, Option.all_some] at hp ⊢
    exact (h.contains_take_iff hread hanchor).2 (.inl hp)

theorem Tidy.has_take (h : s.Tidy) (hanchor : s.hasAnchor op.anchor? = true) {a : AtomId}
    {p : Option AtomId} {e : Element α} :
    (s.take op (read op)).Has a p e ↔
      (∃ e₀, s.Has a p e₀ ∧ e = e₀.marked (decide (a ∈ op.targets))) ∨
        s.contains a = false ∧ Adds op (read op) a p e := by
  unfold Has
  rw [h.get?_take hread hanchor, h.mem_childrenOf_take hread hanchor]
  refine ⟨?_, ?_⟩
  · intro hgiven
    obtain ⟨⟨e₀, he₀, heq⟩ | ⟨ha, p', hadds⟩, hchild | ⟨ha', e', hadds'⟩⟩ := hgiven
    · exact .inl ⟨e₀, ⟨he₀, hchild⟩, heq⟩
    · rw [contains_iff.2 ⟨e₀, he₀⟩] at ha'
      cases ha'
    · rw [h.contains_of_child hchild] at ha
      cases ha
    · obtain ⟨rfl, -⟩ := hadds.functional hadds'
      exact .inr ⟨ha, hadds⟩
  · intro hcase
    rcases hcase with ⟨e₀, ⟨he₀, hchild⟩, heq⟩ | ⟨ha, hadds⟩
    · exact ⟨.inl ⟨e₀, he₀, heq⟩, .inl hchild⟩
    · exact ⟨.inr ⟨ha, p, hadds⟩, .inr ⟨ha, e, hadds⟩⟩

/-- An insertion marks nothing. -/
theorem Tidy.has_take_insertion (h : s.Tidy) (hanchor : s.hasAnchor op.anchor? = true)
    (hinsertion : op.targets = []) {a : AtomId} {p : Option AtomId} {e : Element α} :
    (s.take op (read op)).Has a p e ↔
      s.Has a p e ∨ s.contains a = false ∧ Adds op (read op) a p e := by
  rw [h.has_take hread hanchor, hinsertion]
  simp [Element.marked]

theorem Tidy.not_contains_take (h : s.Tidy) (hanchor : s.hasAnchor op.anchor? = true)
    {a : AtomId} :
    (s.take op (read op)).contains a = false ↔
      s.contains a = false ∧ ∀ p e, ¬ Adds op (read op) a p e := by
  rw [← Bool.not_eq_true, h.contains_take_iff hread hanchor, not_or, Bool.not_eq_true]
  simp only [not_exists]

/-! ## Three laws -/

theorem Tidy.take_take_of_adds {part : Operation} (h : s.Tidy)
    (hpart : s.hasAnchor part.anchor? = true) (hop : s.hasAnchor op.anchor? = true)
    (hinsertion : op.targets = []) (hinsertion' : part.targets = [])
    (hdistinct : (s.take op (read op)).Distinct)
    (hadds : ∀ a p e, Adds part (read part) a p e → Adds op (read op) a p e) :
    (s.take part (read part)).take op (read op) = s.take op (read op) := by
  have hnext : (s.take part (read part)).Tidy := h.take part _
  refine ((h.take op _).ext_of_has (hnext.take op _) hdistinct fun a p e => ?_).symm
  rw [hnext.has_take_insertion hread (h.hasAnchor_take hread hpart hop) hinsertion,
    h.has_take_insertion hread hpart hinsertion', h.has_take_insertion hread hop hinsertion,
    h.not_contains_take hread hpart, or_assoc]
  refine or_congr_right ⟨?_, ?_⟩
  · intro hgiven
    obtain ⟨ha, hwhole⟩ := hgiven
    by_cases hin : ∃ p' e', Adds part (read part) a p' e'
    · obtain ⟨p', e', hpartAdds⟩ := hin
      obtain ⟨rfl, rfl⟩ := (hadds a p' e' hpartAdds).functional hwhole
      exact .inl ⟨ha, hpartAdds⟩
    · exact .inr ⟨⟨ha, fun p' e' h' => hin ⟨p', e', h'⟩⟩, hwhole⟩
  · intro hcase
    rcases hcase with ⟨ha, hpartAdds⟩ | ⟨⟨ha, -⟩, hwhole⟩
    · exact ⟨ha, hadds a p e hpartAdds⟩
    · exact ⟨ha, hwhole⟩

/-- An insertion and an operation that refers to elements that are there may change places. -/
theorem Tidy.take_comm {o : Operation} (h : s.Tidy) (ho : s.hasAnchor o.anchor? = true)
    (hop : s.hasAnchor op.anchor? = true) (hinsertion : op.targets = [])
    (htargets : ∀ a ∈ o.targets, s.contains a = true)
    (hapart : ∀ a, s.contains a = false → (∃ p e, Adds o (read o) a p e) →
      op.covers a = false)
    (hdistinct : ((s.take op (read op)).take o (read o)).Distinct) :
    (s.take o (read o)).take op (read op) = (s.take op (read op)).take o (read o) := by
  have hfirst : (s.take o (read o)).Tidy := h.take o _
  have hsecond : (s.take op (read op)).Tidy := h.take op _
  refine ((hsecond.take o _).ext_of_has (hfirst.take op _) hdistinct fun a p e => ?_).symm
  rw [hfirst.has_take_insertion hread (h.hasAnchor_take hread ho hop) hinsertion,
    h.has_take hread ho, h.not_contains_take hread ho,
    hsecond.has_take hread (h.hasAnchor_take hread hop ho),
    h.not_contains_take hread hop]
  -- an element that only one of the two adds is not marked, and no element is added by both
  have hkept : ∀ e₀ : Element α, s.contains a = false →
      e₀.marked (decide (a ∈ o.targets)) = e₀ := by
    intro e₀ ha
    have hnot : a ∉ o.targets := by
      intro htarget
      rw [htargets a htarget] at ha
      cases ha
    simp [Element.marked, hnot]
  have hnotBoth : s.contains a = false → ∀ p e p' e', Adds o (read o) a p e →
      ¬ Adds op (read op) a p' e' := by
    intro ha p e p' e' hadds hadds'
    have hcovers := hapart a ha ⟨p, e, hadds⟩
    rw [hadds'.covers hread] at hcovers
    cases hcovers
  refine ⟨?_, ?_⟩
  · intro hcase
    rcases hcase with ⟨e₀, hhas, rfl⟩ | ⟨⟨ha, hnone⟩, hadds⟩
    · rcases (h.has_take_insertion hread hop hinsertion).1 hhas with hhas | ⟨ha, hadds⟩
      · exact .inl (.inl ⟨e₀, hhas, rfl⟩)
      · refine .inr ⟨⟨ha, fun p' e' hadds' => hnotBoth ha p' e' p e₀ hadds' hadds⟩, ?_⟩
        rw [hkept e₀ ha]
        exact hadds
    · exact .inl (.inr ⟨ha, hadds⟩)
  · intro hcase
    rcases hcase with (⟨e₀, hhas, rfl⟩ | ⟨ha, hadds⟩) | ⟨⟨ha, hnone⟩, hadds⟩
    · exact .inl ⟨e₀, (h.has_take_insertion hread hop hinsertion).2 (.inl hhas), rfl⟩
    · exact .inr ⟨⟨ha, fun p' e' hadds' => hnotBoth ha p e p' e' hadds hadds'⟩, hadds⟩
    · exact .inl ⟨e, (h.has_take_insertion hread hop hinsertion).2 (.inr ⟨ha, hadds⟩),
        (hkept e ha).symm⟩

/-- An insertion all of whose atoms are there changes nothing. -/
theorem Tidy.take_of_contains (h : s.Tidy) (hop : s.hasAnchor op.anchor? = true)
    (hinsertion : op.targets = []) (hdistinct : (s.take op (read op)).Distinct)
    (hall : ∀ a, op.covers a = true → s.contains a = true) : s.take op (read op) = s := by
  refine (h.take op _).ext_of_has h hdistinct fun a p e => ?_
  rw [h.has_take_insertion hread hop hinsertion]
  refine or_iff_left ?_
  intro hgiven
  obtain ⟨ha, hadds⟩ := hgiven
  rw [hall a (hadds.covers hread)] at ha
  cases ha

end Take

/-! ## Stamps -/

def stamps (s : Sequence α) : List Stamp := s.elements.values.map Element.stamp

theorem mem_stamps {s : Sequence α} {stamp : Stamp} :
    stamp ∈ s.stamps ↔ ∃ a e, s.elements.get? a = some e ∧ e.stamp = stamp := by
  unfold stamps OrderedMap.values
  simp [OrderedMap.get?_eq_some_iff]

theorem distinct_of_nodup {s : Sequence α} (h : s.stamps.Nodup) : s.Distinct := by
  intro a b x y hx hy hstamp
  rw [OrderedMap.get?_eq_some_iff] at hx hy
  rw [stamps, OrderedMap.values, List.map_map] at h
  exact congrArg Prod.fst (List.inj_on_of_nodup_map h hx hy hstamp)

/-- The places in the insertion of the atoms that are not there yet. -/
def news (s : Sequence α) (op : Operation) : Option (Insertion α) → List Nat
  | some i => (List.range i.values.length).filter fun n => !s.contains (op.id.forward n)
  | none => []

theorem Adds.exists_mem_news {s : Sequence α} {op : Operation} {insertion : Option (Insertion α)}
    {a : AtomId} {p : Option AtomId} {e : Element α} (h : Adds op insertion a p e)
    (ha : s.contains a = false) :
    ∃ n ∈ s.news op insertion, a = op.id.forward n ∧ e.stamp = op.stamp.forward n := by
  obtain ⟨i, n, v, rfl, hv, rfl, -, rfl⟩ := h
  refine ⟨n, ?_, rfl, rfl⟩
  simp [news, ha, (List.getElem?_eq_some_iff.1 hv).1]

section Take

variable {read : Operation → Option (Insertion α)} (hread : Reading read) {s : Sequence α}
  {op : Operation}

include hread

theorem Tidy.stamp_take (h : s.Tidy) (hanchor : s.hasAnchor op.anchor? = true) {a : AtomId}
    {e : Element α} (he : (s.take op (read op)).elements.get? a = some e) :
    (∃ e₀, s.elements.get? a = some e₀ ∧ e₀.stamp = e.stamp) ∨
      ∃ n ∈ s.news op (read op), a = op.id.forward n ∧ e.stamp = op.stamp.forward n := by
  rcases (h.get?_take hread hanchor).1 he with ⟨e₀, he₀, rfl⟩ | ⟨ha, p, hadds⟩
  · exact .inl ⟨e₀, he₀, rfl⟩
  · exact .inr (hadds.exists_mem_news ha)

theorem Tidy.distinct_take (h : s.Tidy) (hanchor : s.hasAnchor op.anchor? = true)
    (hdistinct : s.Distinct)
    (hfresh : ∀ n ∈ s.news op (read op), op.stamp.forward n ∉ s.stamps) :
    (s.take op (read op)).Distinct := by
  intro a b x y hx hy hstamp
  rcases h.stamp_take hread hanchor hx with ⟨x₀, hx₀, hxs⟩ | ⟨m, hm, rfl, hxs⟩
  · rcases h.stamp_take hread hanchor hy with ⟨y₀, hy₀, hys⟩ | ⟨n, hn, rfl, hys⟩
    · exact hdistinct a b x₀ y₀ hx₀ hy₀ (by rw [hxs, hys, hstamp])
    · exact absurd (mem_stamps.2 ⟨a, x₀, hx₀, by rw [hxs, hstamp, hys]⟩) (hfresh n hn)
  · rcases h.stamp_take hread hanchor hy with ⟨y₀, hy₀, hys⟩ | ⟨n, hn, rfl, hys⟩
    · exact absurd (mem_stamps.2 ⟨b, y₀, hy₀, by rw [hys, ← hstamp, hxs]⟩) (hfresh m hm)
    · rw [hxs, hys, Stamp.ext_iff, Stamp.forward_lamport, Stamp.forward_lamport] at hstamp
      rw [AtomId.forward_inj]
      omega

/-- An operation whose new elements are apart from those of an insertion, with fresh stamps, may
change places with it. -/
theorem Tidy.take_comm_of_fresh {o : Operation} (h : s.Tidy)
    (ho : s.hasAnchor o.anchor? = true) (hop : s.hasAnchor op.anchor? = true)
    (hinsertion : op.targets = []) (htargets : ∀ a ∈ o.targets, s.contains a = true)
    (hapart : ∀ n ∈ s.news o (read o), op.covers (o.id.forward n) = false)
    (hfresh : ∀ n ∈ s.news o (read o), o.stamp.forward n ∉ s.stamps)
    (hother : ∀ n ∈ s.news o (read o), ∀ m < op.length, o.stamp.forward n ≠ op.stamp.forward m)
    (hdistinct : (s.take op (read op)).Distinct) :
    (s.take o (read o)).take op (read op) = (s.take op (read op)).take o (read o) ∧
      ((s.take op (read op)).take o (read o)).Distinct := by
  have hnews : ∀ n ∈ (s.take op (read op)).news o (read o), n ∈ s.news o (read o) := by
    intro n hn
    unfold news at hn ⊢
    split at hn
    · simp only [List.mem_filter, Bool.not_eq_true'] at hn ⊢
      exact ⟨hn.1, ((h.not_contains_take hread hop).1 hn.2).1⟩
    · exact hn
  have hboth : ((s.take op (read op)).take o (read o)).Distinct := by
    refine (h.take op _).distinct_take hread (h.hasAnchor_take hread hop ho) hdistinct ?_
    intro n hn hmem
    obtain ⟨a, e, he, hstamp⟩ := mem_stamps.1 hmem
    rcases h.stamp_take hread hop he with ⟨e₀, he₀, heq⟩ | ⟨m, hm, -, heq⟩
    · exact hfresh n (hnews n hn) (mem_stamps.2 ⟨a, e₀, he₀, heq.trans hstamp⟩)
    · unfold news at hm
      split at hm
      · next i hi =>
        rw [List.mem_filter, List.mem_range, hread.length hi] at hm
        exact hother n (hnews n hn) m hm.1 (hstamp.symm.trans heq)
      · cases hm
  refine ⟨h.take_comm hread ho hop hinsertion htargets (fun a ha hadds => ?_) hboth, hboth⟩
  obtain ⟨p, e, hadds⟩ := hadds
  obtain ⟨n, hn, rfl, -⟩ := hadds.exists_mem_news ha
  exact hapart n hn

end Take

end CausalDoc.Sequence
