import CausalDoc.Proofs.Store.Order
import CausalDoc.Proofs.Store.Presence

/- Where the values of a store come from.

   In whatever order operations are taken, a list holds no value that a logged operation did
   not insert into it, and a map none that was not written to it (`Store.Advances.sources`).
   What a list lacks, because an anchor was missing or a deletion came early, is left open
   here. -/

namespace CausalDoc

/-- The values of the container come from stored operations. -/
def Sources (log : Log) (id : ContainerId) : ContainerState → Prop
  | .list s => ∀ a e, s.elements.get? a = some e →
      Inserts Operation.listInsertion? log id a e.value
  | .map f => Records log id f
  | .text _ => True

theorem Inserts.push {α : Type} {read : Operation → Option (Insertion α)} {log : Log}
    {id : ContainerId} {a : AtomId} {v : α} (op : Operation) (h : Inserts read log id a v) :
    Inserts read (log.push op) id a v := by
  obtain ⟨o, i, n, ho, hrest⟩ := h
  exact ⟨o, i, n, Log.stored_push.2 (.inl ho), hrest⟩

/-- What stands in a sequence after an operation stood there before, or is inserted by the operation.
The atoms of the operation are new to the sequence. -/
theorem Sequence.Tidy.element_take {α : Type} {read : Operation → Option (Insertion α)}
    (hread : Reading read) {s : Sequence α} (h : s.Tidy) {op : Operation}
    (hnew : ∀ a, op.covers a = true → s.contains a = false) {a : AtomId} {e : Element α}
    (hget : (s.take op (read op)).elements.get? a = some e) :
    (∃ e₀, s.elements.get? a = some e₀ ∧ e₀.value = e.value ∧ e₀.stamp = e.stamp) ∨
      ∃ i n, read op = some i ∧ i.values[n]? = some e.value ∧ a = op.id.forward n ∧
        e.stamp = op.stamp.forward n := by
  unfold Sequence.take at hget
  split at hget
  · next i hi =>
    split at hget
    · next hanchor =>
      have hfresh : s.Fresh op.id i.values.length := by
        intro n hn
        rw [hread.length hi] at hn
        exact hnew _ (Operation.covers_forward hn)
      rw [h.insertRun_eq_insertEach hanchor, get?_insertEach i.values hfresh] at hget
      rcases hget with ⟨n, v, hv, ha, rfl⟩ | hold
      · exact .inr ⟨i, n, hi, hv, ha, rfl⟩
      · exact .inl ⟨e, hold, rfl, rfl⟩
    · exact .inl ⟨e, hget, rfl, rfl⟩
  · rw [get?_deleteAll, Option.map_eq_some_iff] at hget
    obtain ⟨e₀, hold, rfl⟩ := hget
    exact .inl ⟨e₀, hold, rfl, rfl⟩

namespace Sources

variable {log : Log} {id : ContainerId} {state : ContainerState} {op : Operation}

theorem new (hnone : ∀ o, log.Stored o → o.container ≠ id) (kind : ContainerKind) :
    Sources log id (.new kind) := by
  cases kind with
  | list => exact fun a e hget => by cases hget
  | map => exact .empty hnone
  | text => trivial

theorem push_of_ne (h : Sources log id state) (hne : op.container ≠ id) :
    Sources (log.push op) id state := by
  cases state with
  | list s => exact fun a e hget => (h a e hget).push op
  | map f => exact Records.push_of_ne h hne
  | text s => trivial

theorem take (h : Sources log id state) (hid : op.container = id) (htidy : state.Tidy)
    (hfits : op.action.flaw? state.kind = none)
    (hnew : ∀ a, op.covers a = true → state.holds a = false) :
    Sources (log.push op) id (state.take op) := by
  cases state with
  | list s =>
    rw [ContainerState.take_list s hfits]
    intro a e hget
    rcases Sequence.Tidy.element_take reading_list htidy hnew hget with
      ⟨e₀, hold, hvalue, -⟩ | ⟨i, n, hi, hv, ha, -⟩
    · rw [← hvalue]
      exact (h a e₀ hold).push op
    · exact ⟨op, i, n, Log.stored_push.2 (.inr rfl), hid, hi, hv, ha⟩
  | map f =>
    rw [ContainerState.take_map f hfits]
    exact Records.take h hid
  | text s =>
    rw [ContainerState.take_text s hfits]
    trivial

end Sources

/-- Whatever operations a store took, and in whatever order, its values come from them. -/
theorem Store.Advances.sources {store : Store} (h : Store.empty.Advances store)
    (id : ContainerId) : Sources store.log id (store.registry.stateOf id) := by
  induction h with
  | refl => exact .new (fun o ho => by cases ho) id.kind
  | @tail before _ hadv hstep ih =>
    obtain ⟨op, ha, rfl⟩ := hstep
    have hbefore : before.Coherent := coherent_empty.advances hadv
    show Sources (before.log.push op) id ((before.registry.absorb op).stateOf id)
    rw [Registry.stateOf_absorb (ha.created?_ne hbefore.log)]
    split
    · next hid =>
      subst hid
      exact ih.take rfl (hbefore.stateOf op.container).2.1 (hbefore.fits ha) fun a hcovers =>
        hbefore.not_holds_new ha op.container hcovers
    · next hid => exact ih.push_of_ne (Ne.symm hid)

end CausalDoc
