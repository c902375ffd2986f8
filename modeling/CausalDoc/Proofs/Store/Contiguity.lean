import CausalDoc.Proofs.Sequence.Subtree
import CausalDoc.Proofs.Store.Order
import CausalDoc.Proofs.Store.Presence

/- Where the atoms of one insertion stand.

   The elements of an insertion are a chain in the tree: each but the first is a child of
   the one before it. So they stand in order, and all within the subtree of the first one
   (`Mirrors.run_sublist`, `Mirrors.below_first`). An element of this subtree that another
   operation inserted has an element of the chain in its past, for on the way down from the
   first element to it the chain is left at an anchor (`Mirrors.inserted_below`). -/

namespace CausalDoc

def Operation.atoms (op : Operation) : List AtomId := (List.range op.length).map op.id.forward

/-- The operations are concurrent: neither has an atom of the other one in its past. An operation
has in its past what its first atom has. -/
def Log.Concurrent (log : Log) (op o : Operation) : Prop :=
  (∀ a, op.covers a = true → ¬ log.HappensBefore a o.id) ∧
    ∀ a, o.covers a = true → ¬ log.HappensBefore a op.id

theorem Log.HappensBefore.to_atom {log : Log} (hlog : log.Coherent) {op : Operation}
    {a b : AtomId} (hop : log.Stored op) (hb : op.covers b = true)
    (hab : log.HappensBefore a op.id) : log.HappensBefore a b := by
  obtain ⟨hpeer, hfirst, -⟩ := Operation.covers_iff.1 hb
  by_cases heq : op.id = b
  · rw [← heq]
    exact hab
  · have hlt : op.id.counter < b.counter := by
      apply Nat.lt_of_le_of_ne hfirst
      exact fun hsame => heq (AtomId.ext hpeer.symm hsame)
    exact .tail hab ⟨op, hlog.get?_eq_some_iff.2 ⟨hop, hb⟩, .inr ⟨hpeer.symm, hlt⟩⟩

section Contiguity

variable {α : Type} {read : Operation → Option (Insertion α)} {log : Log} {id : ContainerId}
  {s : Sequence α} {op : Operation} (hread : Reading read) (h : Mirrors read log id s)

include hread h

namespace Mirrors

theorem child_of_placed (hplaced : Placed read log id op) {k : Nat} (hk : k + 1 < op.length) :
    op.id.forward (k + 1) ∈ s.childrenOf (some (op.id.forward k)) := by
  obtain ⟨-, -, i, hi⟩ := hplaced.stored
  rw [← hread.length hi] at hk
  obtain ⟨e, hputs, -⟩ := hplaced.puts_value hi (List.getElem?_eq_getElem hk)
  exact (h.child _ _).2 ⟨e, hputs⟩

theorem first_mem_order (hplaced : Placed read log id op) (hpos : 0 < op.length) :
    op.id ∈ s.order := by
  rw [h.tidy.mem_order, h.contains_iff hread]
  exact ⟨op, hplaced, Operation.covers_id hpos⟩

theorem run_sublist (hplaced : Placed read log id op) (hpos : 0 < op.length) :
    op.atoms.Sublist s.order :=
  h.tidy.walk.chain op.length (h.first_mem_order hread hplaced hpos) fun _ hk =>
    h.child_of_placed hread hplaced hk

/-- The atoms of a placed insertion are in the subtree of the first one. -/
theorem below_first (hplaced : Placed read log id op) {a : AtomId} (ha : op.covers a = true) :
    Sequence.Below s.childrenOf op.id a := by
  obtain ⟨n, hn, rfl⟩ := Operation.exists_forward ha
  clear ha
  induction n with
  | zero => exact .refl
  | succ n ih => exact .tail (ih (Nat.lt_of_succ_lt hn)) (h.child_of_placed hread hplaced hn)

/-- A child was inserted by the operation of its parent, or has the parent in its past. -/
theorem inserted_behind (hlog : log.Coherent) (hg : log.Grounded) {p a : AtomId}
    (hchild : a ∈ s.childrenOf (some p)) :
    ∃ o, log.Stored o ∧ o.container = id ∧ o.covers a = true ∧
      (o.covers p = true ∨ log.HappensBefore p o.id) := by
  obtain ⟨e, o, i, n, hplaced, hi, hv, rfl, hanchor, -⟩ := (h.child a (some p)).1 hchild
  obtain ⟨ho, hid, -⟩ := hplaced.stored
  obtain ⟨hn, -⟩ := List.getElem?_eq_some_iff.1 hv
  rw [hread.length hi] at hn
  refine ⟨o, ho, hid, Operation.covers_forward hn, ?_⟩
  cases n with
  | zero =>
    -- the first element stands behind the anchor
    right
    have hnamed : p ∈ o.named := by
      rw [Operation.named, hread.anchor hi, show i.anchor = some p from hanchor.symm]
      exact List.mem_append_left _ (List.mem_singleton.2 rfl)
    apply hg o ho p hnamed
    have hparent : s.contains p = true := by
      rw [← Bool.not_eq_false]
      intro hnone
      rw [h.tidy.childrenOf_eq_nil hnone] at hchild
      cases hchild
    obtain ⟨o', hplaced', hcovers⟩ := (h.contains_iff hread).1 hparent
    exact hlog.contains_of_covers hplaced'.stored.1 hcovers
  | succ n =>
    left
    rw [Option.some.inj hanchor]
    exact Operation.covers_forward (Nat.lt_of_succ_lt hn)

/-- What stands below an atom of an operation was inserted by the operation, or by one that has an
atom of it in its past. -/
theorem inserted_below (hlog : log.Coherent) (hg : log.Grounded) (hop : log.Stored op)
    {x e : AtomId} (hx : op.covers x = true) (hbelow : Sequence.Below s.childrenOf x e) :
    op.covers e = true ∨ ∃ o, log.Stored o ∧ o.container = id ∧ o.covers e = true ∧
      ∃ a, op.covers a = true ∧ log.HappensBefore a o.id := by
  induction hbelow with
  | refl => exact .inl hx
  | @tail p e _ hchild ih =>
    obtain ⟨o, ho, hid, hcovers, hparent⟩ := h.inserted_behind hread hlog hg hchild
    rcases ih with hp | ⟨o', ho', -, hp, a, ha, hbefore⟩
    · rcases hparent with hsame | hpast
      · rw [hlog.eq_of_covers hop ho hp hsame]
        exact .inl hcovers
      · exact .inr ⟨o, ho, hid, hcovers, p, hp, hpast⟩
    · refine .inr ⟨o, ho, hid, hcovers, a, ha, ?_⟩
      rcases hparent with hsame | hpast
      · rw [← hlog.eq_of_covers ho' ho hp hsame]
        exact hbefore
      · exact (hbefore.to_atom hlog ho' hp).trans hpast

/-- What stands between two atoms of an insertion was inserted by the insertion itself, or by an
operation that has an atom of it in its past. -/
theorem inserted_between (hlog : log.Coherent) (hg : log.Grounded)
    (hplaced : Placed read log id op) {x e y : AtomId} (hx : op.covers x = true)
    (hy : op.covers y = true) (hbetween : [x, e, y].Sublist s.order) :
    op.covers e = true ∨ ∃ o, log.Stored o ∧ o.container = id ∧ o.covers e = true ∧
      ∃ a, op.covers a = true ∧ log.HappensBefore a o.id := by
  have hop := hplaced.stored.1
  have hpos := (hlog.sound hop).length_pos
  have hbelow := h.tidy.walk.between h.tidy.nodup (h.first_mem_order hread hplaced hpos)
    (h.below_first hread hplaced hx) (h.below_first hread hplaced hy) hbetween
  exact h.inserted_below hread hlog hg hop (Operation.covers_id hpos) hbelow

end Mirrors

end Contiguity

/-- Of an insertion of a log of operations that refer to elements of their container and of their
past the atoms stand in order, and what stands between two of them was inserted by an operation
that has one of them in its past. -/
theorem Shows.run_together {log : Log} {id : ContainerId} {state : ContainerState} {run : Operation}
    (h : Shows log id state) (hlog : log.Coherent) (hg : log.Grounded) (haimed : Aimed log.Stored)
    (hrun : log.Stored run) (hid : run.container = id) (hinserts : run.inserts = true) :
    run.atoms.Sublist state.order ∧
      ∀ x e y, run.covers x = true → run.covers y = true → [x, e, y].Sublist state.order →
        run.covers e = true ∨ ∃ o, log.Stored o ∧ o.container = id ∧ o.covers e = true ∧
          ∃ a, run.covers a = true ∧ log.HappensBefore a o.id := by
  have hpos := (hlog.sound hrun).length_pos
  cases state with
  | list s =>
    have hreads := hlog.readsIn_list h.1
    obtain ⟨i, hi⟩ := (hreads run hrun hid).1 hinserts
    have hplaced := haimed.placed reading_list hreads hlog hg hrun hid hi
    exact ⟨h.2.run_sublist reading_list hplaced hpos, fun x e y hx hy hbetween =>
      h.2.inserted_between reading_list hlog hg hplaced hx hy hbetween⟩
  | text s =>
    have hreads := hlog.readsIn_text h.1
    obtain ⟨i, hi⟩ := (hreads run hrun hid).1 hinserts
    have hplaced := haimed.placed reading_text hreads hlog hg hrun hid hi
    exact ⟨h.2.run_sublist reading_text hplaced hpos, fun x e y hx hy hbetween =>
      h.2.inserted_between reading_text hlog hg hplaced hx hy hbetween⟩
  | map f =>
    have hfits := (hlog.sound hrun).fits
    rw [hid, h.1] at hfits
    rw [Operation.inserts_eq_false_map hfits] at hinserts
    cases hinserts

end CausalDoc
