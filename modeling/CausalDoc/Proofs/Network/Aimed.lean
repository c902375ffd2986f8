import CausalDoc.Proofs.Network.Faithful
import CausalDoc.Proofs.Store.Presence

/- What operations refer to on an honest run.

   An edit refers to elements that its replica holds in the container, and what a replica
   holds there was inserted by an operation on this container. So on an honest run every
   operation refers to elements of its own container (`Honest.aimed`). With each of its
   operations a log has the past of it, so the same is true of the operations in the log of
   one replica (`Corpus.aimed`). -/

namespace CausalDoc

/-- A log has, with an operation, the insertions that the operation refers to. -/
theorem Corpus.aimed {Written : Operation → Prop} (hc : Corpus Written) {store : Store}
    (h : store.Coherent) (hw : ∀ o, store.log.Stored o → Written o) (ha : Anchored Written)
    (haimed : Aimed Written) : Aimed store.log.Stored := by
  intro op hop a hnamed
  obtain ⟨o, ho, hid, hinserts, hcovers⟩ := haimed op (hw op hop) a hnamed
  have hfirst := h.log.contains_of_covers hop (Operation.covers_id (h.log.sound hop).length_pos)
  have hknown := hc.contains_of_pastIn h hw (ha op (hw op hop) a hnamed) hfirst
  exact ⟨o, hc.stored_of_contains h hw ho hcovers hknown, hid, hinserts, hcovers⟩

theorem Aimed.orNew {Written : Operation → Prop} {op : Operation} (h : Aimed Written)
    (hnamed : ∀ a ∈ op.named, ∃ o, Written o ∧ o.container = op.container ∧ o.inserts = true ∧
      o.covers a = true) : Aimed (OrNew Written op) := by
  intro o hcase a ha
  obtain ⟨o', ho', hinsertion⟩ : ∃ o', Written o' ∧ o'.container = o.container ∧
      o'.inserts = true ∧ o'.covers a = true := by
    rcases hcase with ho | rfl
    · exact h o ho a ha
    · exact hnamed a ha
  exact ⟨o', .inl ho', hinsertion⟩

/-- The containers of a document are what its log makes of them, when operations refer to their
past only. -/
theorem Holds.shows {Written : Operation → Prop} {doc : Document} (hc : Corpus Written)
    (ha : Anchored Written) (h : Holds Written doc) (id : ContainerId) :
    Shows doc.log id (doc.stateAt id) := by
  have hgrounded := hc.grounded h.lawful.store h.written ha
  exact (h.lawful.advances.reflects hgrounded).stateOf id

namespace Network

variable {net : Network} {peer : Nat} {replica : Replica}

theorem Honest.aimed (h : net.Honest) : Aimed net.Written := by
  induction h with
  | refl =>
    intro op hop
    obtain ⟨_, h, _⟩ := hop
    cases h
  | @tail before after hbefore hstep ih =>
    have hfaithful : before.Faithful := Honest.faithful hbefore
    obtain ⟨-, hsame | ⟨peer, replica, op, hreplica, -, -, hnamed, -, hmore⟩⟩ :=
      hfaithful.step_writes hstep
    · rw [hsame]
      exact ih
    · rw [hmore]
      have hholds := hfaithful.holds hreplica
      apply ih.orNew
      intro a ha
      obtain ⟨o, ho, hinsertion⟩ :=
        (hholds.shows hfaithful.corpus hfaithful.anchored op.container).exists_insertion
          hholds.lawful.log (hnamed a ha)
      exact ⟨o, hholds.written o ho, hinsertion⟩

/-- What a replica's log tells of the elements of a container: its operations refer to elements of
their container and of their past, and the container is what they make of it. -/
theorem Honest.log_shows (h : net.Honest) (hreplica : net.replicas peer = some replica)
    (id : ContainerId) : replica.document.log.Coherent ∧ replica.document.log.Grounded ∧
      Aimed replica.document.log.Stored ∧
      Shows replica.document.log id (replica.document.stateAt id) := by
  have hfaithful := h.faithful
  have hc := hfaithful.corpus
  have hholds := hfaithful.holds hreplica
  exact ⟨hholds.lawful.log, hc.grounded hholds.lawful.store hholds.written hfaithful.anchored,
    hc.aimed hholds.lawful.store hholds.written hfaithful.anchored h.aimed,
    hholds.shows hc hfaithful.anchored id⟩

end Network

end CausalDoc
