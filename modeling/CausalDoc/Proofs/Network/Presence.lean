import CausalDoc.Proofs.Document.Handle
import CausalDoc.Proofs.Network.Aimed
import CausalDoc.Proofs.Network.Convergence

/- No lost update and no resurrection.

   On an honest run the elements of a list or a text are told by the log of its document
   alone: those that a logged operation inserts, and of these all are visible but those
   that a logged operation deletes. A log only grows, so an element that was deleted never
   comes back. -/

namespace CausalDoc

/-- The visible elements of a list or a text, in order. -/
def ContainerState.visibleIds : ContainerState → List AtomId
  | list s => s.visibleIds
  | text s => s.visibleIds
  | map _ => []

namespace Network

variable {net : Network} {peer : Nat} {replica : Replica}

/-- The lists and texts of a replica on an honest run present what its log says of them. -/
theorem Honest.presents (h : net.Honest) (hreplica : net.replicas peer = some replica)
    (id : ContainerId) :
    (id.kind = .list →
      Presents Operation.listInsertion? replica.document.log id (replica.document.listAt id)) ∧
    (id.kind = .text →
      Presents Operation.textInsertion? replica.document.log id (replica.document.textAt id)) := by
  obtain ⟨hlog, hgrounded, haimed, hshows⟩ := h.log_shows hreplica id
  have hstore := (h.faithful.holds hreplica).lawful.store
  refine ⟨fun hkind => ?_, fun hkind => ?_⟩
  · rw [Document.stateAt_list hstore hkind] at hshows
    exact hshows.2.presents reading_list (hlog.readsIn_list hkind) hlog hgrounded haimed
  · rw [Document.stateAt_text hstore hkind] at hshows
    exact hshows.2.presents reading_text (hlog.readsIn_text hkind) hlog hgrounded haimed

/-- The lists and texts of a replica on an honest run hold what its log says, nothing else and
nothing twice, and what was deleted does not come back.

The elements are the atoms of the logged operations that insert into the container, each with the
value that its operation gave it; visible are those that no logged operation deletes; and the
content lists the values of these. At every later moment of the run the replica still holds the
elements, and those that were deleted are not visible again. -/
theorem Honest.keeps_elements (h : net.Honest) (hreplica : net.replicas peer = some replica)
    (id : ContainerId) :
    (id.kind = .list →
      Presents Operation.listInsertion? replica.document.log id (replica.document.listAt id)) ∧
    (id.kind = .text →
      Presents Operation.textInsertion? replica.document.log id (replica.document.textAt id)) ∧
    (∀ after, net.Run after → ∃ later, after.replicas peer = some later ∧
      ∀ a, (replica.document.stateAt id).holds a = true →
        (later.document.stateAt id).holds a = true ∧
          (a ∈ (later.document.stateAt id).visibleIds →
            a ∈ (replica.document.stateAt id).visibleIds)) := by
  obtain ⟨hlist, htext⟩ := h.presents hreplica id
  have hstore := (h.faithful.holds hreplica).lawful.store
  refine ⟨hlist, htext, fun after hrun => ?_⟩
  obtain ⟨later, hlater, hgrown⟩ := h.faithful.run_keeps hrun hreplica
  have hafter : after.Honest := h.trans hrun
  obtain ⟨hlist', htext'⟩ := hafter.presents hlater id
  have hstore' := (hafter.faithful.holds hlater).lawful.store
  refine ⟨later, hlater, fun a ha => ?_⟩
  cases hkind : id.kind with
  | list =>
    rw [Document.stateAt_list hstore hkind] at ha ⊢
    rw [Document.stateAt_list hstore' hkind]
    exact (hlist hkind).grows (hlist' hkind) hgrown ha
  | text =>
    rw [Document.stateAt_text hstore hkind] at ha ⊢
    rw [Document.stateAt_text hstore' hkind]
    exact (htext hkind).grows (htext' hkind) hgrown ha
  | map =>
    -- a map holds no elements
    have hmap := (hstore.stateOf id).1.trans hkind
    change (replica.document.stateAt id).kind = .map at hmap
    cases hstate : replica.document.stateAt id with
    | list s =>
      rw [hstate] at hmap
      cases hmap
    | text s =>
      rw [hstate] at hmap
      cases hmap
    | map f =>
      rw [hstate] at ha
      cases ha

/-- A replica that typed two letters and deleted the first one. -/
def erased : Replica := (typed 1 "ab").edit (.root "t" .text) (.deleteRange 0 1) 5

/-- The first letter is an element, and invisible as a logged operation deletes it. -/
theorem keeps_elements_erased :
    let log := erased.document.log
    (∃ op, log.Stored op ∧ op.container = .root "t" .text ∧ op.inserts = true ∧
      op.covers ⟨1, 0⟩ = true) ∧ Deletes log (.root "t" .text) ⟨1, 0⟩ := by
  have hholds : (erased.document.textAt (.root "t" .text)).contains ⟨1, 0⟩ = true := by decide +kernel
  have hvisible : (erased.document.textAt (.root "t" .text)).visibleIds = [⟨1, 1⟩] := by decide +kernel
  intro log
  obtain ⟨net, hnet, hreplica⟩ := @honest_typed_edit (.deleteRange 0 1) trivial
  obtain ⟨-, htext, -⟩ := @Honest.keeps_elements net 1 erased hnet hreplica (.root "t" .text)
  have hpresents := htext rfl
  refine ⟨(hpresents.held _).1 hholds, ?_⟩
  obtain ⟨e, hget⟩ := Sequence.contains_iff.1 hholds
  apply Classical.byContradiction
  intro hnot
  have hthere := (hpresents.content.2.1 ⟨1, 0⟩).2
    ⟨⟨e.value, (hpresents.element _ _).1 ⟨e, hget, rfl⟩⟩, hnot⟩
  rw [hvisible] at hthere
  revert hthere
  decide

end Network

end CausalDoc
