import CausalDoc.Proofs.Document.Frontiers
import CausalDoc.Proofs.Network.Convergence

/- Frontiers on an honest run.

   An edit lists the frontiers of its replica: last atoms, which have the replica's whole log
   in their past, the creation of the container that it changes included. So operations list
   last atoms only and see their container's creation through them (`Honest.tipped`), in the
   log of every replica too, and there the frontiers are the newest operations. -/

namespace CausalDoc.Network

variable {net : Network} {peer : Nat} {replica : Replica}

/-- On an honest run operations list last atoms, and see their container's creation through what
they list. -/
theorem Honest.tipped (h : net.Honest) : Tipped net.Written := by
  induction h with
  | refl =>
    have hnone : ∀ op, ¬ empty.Written op := by
      intro op hop
      obtain ⟨_, h, _⟩ := hop
      cases h
    exact ⟨fun op hop => absurd hop (hnone op), fun op hop => absurd hop (hnone op)⟩
  | @tail before after hbefore hstep ih =>
    have hfaithful : before.Faithful := Honest.faithful hbefore
    obtain ⟨-, hsame | ⟨peer, replica, op, hreplica, ha, hdeps, -, -, hmore⟩⟩ :=
      hfaithful.step_writes hstep
    · rw [hsame]
      exact ih
    · rw [hmore]
      have hholds := hfaithful.holds hreplica
      exact ih.orNew hholds.lawful.store hholds.written ha hdeps

/-- The frontiers of a document on an honest run are its newest operations.

They ascend strictly and have one entry for each peer at most; they are the last atoms of the logged
operations of which no atom is in the past of another logged operation, and an operation is in the
past of another one with all atoms or with none; they stand for the version of the document; and
without any one of them the others stand for a smaller one. -/
theorem Honest.frontiers_newest (h : net.Honest) (hreplica : net.replicas peer = some replica) :
    let log := replica.document.log
    let frontiers := log.frontiers
    frontiers.toList.Pairwise (fun a b => compare a b = .lt) ∧
      (∀ a ∈ frontiers.toList, ∀ b ∈ frontiers.toList, a.peer = b.peer → a = b) ∧
      (∀ a, a ∈ frontiers.toList ↔ ∃ op, log.Stored op ∧ a = op.lastId ∧
        ∀ o, log.Stored o → o ≠ op → ¬ log.Influences op o) ∧
      (∀ op o, log.Stored op → log.Stored o → op ≠ o → (log.Influences op o ↔
        ∀ a b, op.covers a = true → o.covers b = true → log.HappensBefore a b)) ∧
      log.versionOf frontiers = .ok replica.document.version ∧
      ∀ f ∈ frontiers.toList, ∃ v, log.versionOf ⟨frontiers.ids.filter (· ≠ f)⟩ = .ok v ∧
        v.order? replica.document.version = some .lt := by
  have hholds := h.faithful.holds hreplica
  have hstore := hholds.lawful.store
  have ht := h.faithful.corpus.tipped hstore hholds.written h.tipped
  intro log frontiers
  refine ⟨hstore.log.ascending, ?_, fun a => hstore.mem_frontiers_iff ht, ?_,
    hstore.log.versionOf_frontiers, fun f hf => hstore.versionOf_drop ht hf⟩
  · intro a ha b hb hpeer
    obtain ⟨hnext, -⟩ := (hstore.log.frontiers a).1 ha
    obtain ⟨hnext', -⟩ := (hstore.log.frontiers b).1 hb
    rw [hpeer, hnext'] at hnext
    exact AtomId.ext hpeer (Nat.succ.inj hnext).symm
  · intro op o hop ho hne
    refine ⟨?_, ?_⟩
    · intro hinfluences a b ha hb
      have hbefore := (hstore.influences_iff ht hop ho hne).1 hinfluences
      exact hstore.happensBefore_of_covers hop ho hbefore ha hb
    · intro hall
      have hcovers := Operation.covers_lastId (hstore.log.sound hop).length_pos
      have hcovers' := Operation.covers_id (hstore.log.sound ho).length_pos
      exact ⟨op.lastId, o.id, hcovers, hcovers', hall _ _ hcovers hcovers'⟩

/-- After a merge of what two replicas typed at the same time neither text is in the past of the
other: the last letters of both are the frontiers, and dropping the first one loses it. -/
theorem frontiers_newest_typed :
    let merged := (typed 1 "ab").merge (typed 2 "xy")
    let log := merged.document.log
    log.frontiers.toList = [⟨1, 1⟩, ⟨2, 1⟩] ∧
      (∃ op, log.Stored op ∧ ⟨1, 1⟩ = op.lastId ∧
        ∀ o, log.Stored o → o ≠ op → ¬ log.Influences op o) ∧
      ∃ v, log.versionOf ⟨log.frontiers.ids.filter (· ≠ ⟨1, 1⟩)⟩ = .ok v ∧
        v.order? merged.document.version = some .lt := by
  have hsize : ((typed 2 "xy").batchFor (some (typed 1 "ab").document.version)).encode.length <
      0x10000000000000000 := by
    decide +kernel
  have hfrontiers : ((typed 1 "ab").merge (typed 2 "xy")).document.log.frontiers.toList =
      [⟨1, 1⟩, ⟨2, 1⟩] := by
    decide +kernel
  intro merged log
  obtain ⟨net, hnet, hleft, hright⟩ := honest_typed
  have hmerge : (net.put 1 merged).Honest := hnet.step (.merge hleft hright hsize)
  have hmerged : (net.put 1 merged).replicas 1 = some merged := by
    rw [replicas_put, if_pos rfl]
  obtain ⟨-, -, hnewest, -, -, hminimal⟩ := Honest.frontiers_newest hmerge hmerged
  have hfirst : (⟨1, 1⟩ : AtomId) ∈ log.frontiers.toList := by
    rw [hfrontiers]
    exact List.mem_cons_self
  exact ⟨hfrontiers, (hnewest ⟨1, 1⟩).1 hfirst, hminimal ⟨1, 1⟩ hfirst⟩

end CausalDoc.Network
