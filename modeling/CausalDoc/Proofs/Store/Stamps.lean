import CausalDoc.Proofs.Sequence.Splice
import CausalDoc.Proofs.Store.Sources

/- The clock of a store is ahead of all it holds.

   Whatever operations a store takes, and in whatever order, every element of a list or a
   text and every winner of a field has a stamp below the next Lamport time
   (`Store.Advances.below`). So a new operation beats everything that is there. -/

namespace CausalDoc

namespace ContainerState

/-- All stamps in the container have Lamport times below the bound. -/
def Below (bound : Nat) : ContainerState → Prop
  | list s => ∀ a e, s.elements.get? a = some e → e.stamp.lamport < bound
  | text s => ∀ a e, s.elements.get? a = some e → e.stamp.lamport < bound
  | map f => ∀ key field, f.winners.get? key = some field → field.stamp.lamport < bound

variable {state : ContainerState} {bound bound' : Nat} {op : Operation}

theorem below_new (kind : ContainerKind) (bound : Nat) : (new kind).Below bound := by
  cases kind with
  | list | text => exact fun a e hget => by cases hget
  | map => exact fun key field hget => by cases hget

theorem Below.mono (h : state.Below bound) (hle : bound ≤ bound') : state.Below bound' := by
  cases state with
  | list s | text s => exact fun a e hget => Nat.lt_of_lt_of_le (h a e hget) hle
  | map f => exact fun key field hget => Nat.lt_of_lt_of_le (h key field hget) hle

/-- The elements of a sequence stay below a bound that the operation keeps to. -/
theorem below_sequence {α : Type} {read : Operation → Option (Insertion α)} (hread : Reading read)
    {s : Sequence α} (htidy : s.Tidy)
    (h : ∀ a e, s.elements.get? a = some e → e.stamp.lamport < bound)
    (hop : op.lamport + op.length ≤ bound)
    (hnew : ∀ a, op.covers a = true → s.contains a = false) :
    ∀ a e, (s.take op (read op)).elements.get? a = some e → e.stamp.lamport < bound := by
  intro a e hget
  rcases htidy.element_take hread hnew hget with
    ⟨e₀, hold, -, hstamp⟩ | ⟨i, n, hi, hv, -, hstamp⟩
  · rw [← hstamp]
    exact h a e₀ hold
  · have hn : n < op.length := by
      rw [← hread.length hi]
      exact (List.getElem?_eq_some_iff.1 hv).1
    rw [hstamp, Stamp.forward_lamport]
    show op.lamport + n < bound
    omega

theorem Below.take (h : state.Below bound) (htidy : state.Tidy)
    (hfits : op.action.flaw? state.kind = none) (hpos : 0 < op.length)
    (hop : op.lamport + op.length ≤ bound)
    (hnew : ∀ a, op.covers a = true → state.holds a = false) : (state.take op).Below bound := by
  cases state with
  | list s =>
    rw [take_list s hfits]
    exact below_sequence reading_list htidy h hop hnew
  | text s =>
    rw [take_text s hfits]
    exact below_sequence reading_text htidy h hop hnew
  | map f =>
    rw [take_map f hfits]
    intro key field hget
    unfold Fields.take at hget
    split at hget
    · rw [Fields.get?_write] at hget
      split at hget
      · cases hget
        show op.lamport < bound
        omega
      · exact h key field hget
    · exact h key field hget

end ContainerState

/-- The next Lamport time of a store lies above every stamp in its containers. -/
theorem Store.Advances.below {store : Store} (h : Store.empty.Advances store)
    (id : ContainerId) : (store.registry.stateOf id).Below store.log.clock.nextLamport := by
  induction h with
  | refl => exact ContainerState.below_new id.kind _
  | @tail before _ hadv hstep ih =>
    obtain ⟨op, ha, rfl⟩ := hstep
    have hbefore : before.Coherent := coherent_empty.advances hadv
    have hclock : (before.log.push op).clock.nextLamport =
        max before.log.clock.nextLamport (op.lamport + op.length) := rfl
    have hkept := ih.mono (hclock ▸ Nat.le_max_left _ _)
    show ((before.registry.absorb op).stateOf id).Below (before.log.push op).clock.nextLamport
    rw [Registry.stateOf_absorb (ha.created?_ne hbefore.log)]
    split
    · next hid =>
      subst hid
      exact hkept.take (hbefore.stateOf op.container).2.1 (hbefore.fits ha)
        ha.log.sound.length_pos (hclock ▸ Nat.le_max_right _ _) fun a hcovers =>
          hbefore.not_holds_new ha op.container hcovers
    · exact hkept

end CausalDoc
