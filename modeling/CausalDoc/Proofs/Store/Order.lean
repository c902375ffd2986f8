import CausalDoc.Proofs.Store.Reflects
import Mathlib.Data.List.Perm.Subperm

/- The order of elements, from operation to operation.

   Whatever an operation does to a sequence, the elements that were there keep their order:
   new ones come between them and deleted ones stay where they are. So the order of every
   container at one moment is a sublist of its order later (`Store.Advances.order`). As no
   order lists anything twice, two orders that are sublists of a third agree on what both
   have (`sublist_of_subset`). -/

namespace CausalDoc

/-- Of two sublists of a list without repetitions, one that has no other elements than the other
is a sublist of it. -/
theorem sublist_of_subset {α : Type} {short long all : List α} (hall : all.Nodup)
    (hshort : short.Sublist all) (hlong : long.Sublist all) (hsub : short ⊆ long) :
    short.Sublist long := by
  obtain ⟨same, hperm, hsame⟩ := List.subperm_of_subset (hall.sublist hshort) hsub
  rwa [(hall.perm_iff_eq_of_sublist (hsame.trans hlong) hshort).1 hperm] at hsame

/-! ## Sequences -/

namespace Sequence

variable {α : Type} {s : Sequence α} {id : AtomId} {stamp : Stamp} {parent : Option AtomId}

theorem order_sublist_insert (value : α) :
    s.order.Sublist (s.insert id stamp parent value).order := by
  cases h : s.contains id with
  | true => rw [insert_of_contains h]
  | false =>
    rw [order_insert h]
    conv_lhs => rw [← List.take_append_drop (s.placeFor parent stamp) s.order]
    exact (List.sublist_cons_self _ _).append_left _

theorem order_sublist_insertEach :
    ∀ (values : List α) {s : Sequence α} {id : AtomId} {stamp : Stamp} {parent : Option AtomId},
      s.order.Sublist (s.insertEach id stamp parent values).order
  | [], _, _, _, _ => .refl _
  | value :: values, _, _, _, _ =>
    (order_sublist_insert value).trans (order_sublist_insertEach values)

theorem Tidy.order_sublist_take (h : s.Tidy) (op : Operation) (insertion : Option (Insertion α)) :
    s.order.Sublist (s.take op insertion).order := by
  unfold Sequence.take
  split
  · next i =>
    split
    · next hanchor =>
      rw [h.insertRun_eq_insertEach hanchor]
      exact order_sublist_insertEach i.values
    · exact .refl _
  · rw [order_deleteAll]

end Sequence

/-! ## Containers -/

namespace ContainerState

variable {state : ContainerState} {op : Operation}

/-- The order of the elements, deleted ones included. -/
def order : ContainerState → List AtomId
  | list s => s.order
  | text s => s.order
  | map _ => []

theorem Tidy.nodup_order (h : state.Tidy) : state.order.Nodup := by
  cases state with
  | list s => exact Sequence.Tidy.nodup h
  | text s => exact Sequence.Tidy.nodup h
  | map f => exact List.nodup_nil

theorem Tidy.order_sublist_take (h : state.Tidy) (hfits : op.action.flaw? state.kind = none) :
    state.order.Sublist (state.take op).order := by
  cases state with
  | list s =>
    rw [take_list s hfits]
    exact Sequence.Tidy.order_sublist_take h op _
  | text s =>
    rw [take_text s hfits]
    exact Sequence.Tidy.order_sublist_take h op _
  | map f =>
    rw [take_map f hfits]
    exact .refl _

end ContainerState

/-! ## Stores -/

theorem Registry.stateOf_absorb {registry : Registry} {op : Operation}
    (hne : op.created? ≠ some op.container) (id : ContainerId) :
    (registry.absorb op).stateOf id =
      if id = op.container then (registry.stateOf id).take op else registry.stateOf id := by
  rw [stateOf, get?_absorb hne]
  split
  · next hid => rw [Option.getD_some, hid]
  · split
    · exact Option.getD_some
    · rfl

namespace Store

variable {store store' : Store}

theorem Advances.order (h : store.Coherent) (hadv : store.Advances store') (id : ContainerId) :
    (store.registry.stateOf id).order.Sublist (store'.registry.stateOf id).order := by
  induction hadv with
  | refl => exact .refl _
  | @tail before _ hadv hstep ih =>
    obtain ⟨op, ha, rfl⟩ := hstep
    have hbefore : before.Coherent := h.advances hadv
    refine ih.trans ?_
    show (before.registry.stateOf id).order.Sublist ((before.registry.absorb op).stateOf id).order
    rw [Registry.stateOf_absorb (ha.created?_ne hbefore.log)]
    split
    · next hid =>
      subst hid
      exact (hbefore.stateOf _).2.1.order_sublist_take (hbefore.fits ha)
    · exact .refl _

end Store

end CausalDoc
