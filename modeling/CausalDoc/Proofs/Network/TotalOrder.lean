import CausalDoc.Proofs.Network.Merge
import CausalDoc.Proofs.Store.Order

/- One order of elements.

   Any two documents of an honest run, be it at different moments, have a join, and it does
   not matter which one takes over from the other. The order of a container in either of
   them is a sublist of its order in the join, so the two agree on all elements that both
   hold. -/

namespace CausalDoc

theorem Holds.order_join {Written : Operation → Prop} {doc other : Document} (hc : Corpus Written)
    (h : Holds Written doc) (h' : Holds Written other) (id : ContainerId) :
    (doc.stateAt id).order.Sublist ((doc.join other).stateAt id).order :=
  (h.advances_join hc h').order h.lawful.store id

namespace Network

variable {net after : Network} {peer otherPeer : Nat} {replica other : Replica}

/-- The elements that two replicas hold, be it at different moments of an honest run, stand in the
same order in both, deleted ones included: what stands before what in one of them does so in the
other. No element stands twice. -/
theorem Honest.keeps_order (h : net.Honest) (hrun : net.Run after)
    (hreplica : net.replicas peer = some replica)
    (hother : after.replicas otherPeer = some other) (id : ContainerId) (x y : AtomId) :
    let early := (replica.document.stateAt id).order
    let late := (other.document.stateAt id).order
    early.Nodup ∧ late.Nodup ∧
      (x ∈ early → y ∈ early → x ∈ late → y ∈ late →
        ([x, y].Sublist early ↔ [x, y].Sublist late)) := by
  obtain ⟨hafter, hgrown⟩ := h.faithful.run hrun
  have hc := hafter.corpus
  have hearly : Holds after.Written replica.document :=
    (h.faithful.holds hreplica).mono hgrown
  have hlate := hafter.holds hother
  have hnodup : ∀ {d : Document}, Holds after.Written d → (d.stateAt id).order.Nodup :=
    fun hd => (hd.lawful.store.stateOf id).2.1.nodup_order
  -- both orders are sublists of the order that either replica gets from the other one
  obtain ⟨joined, hjoined⟩ : ∃ joined,
      joined = ((replica.document.join other.document).stateAt id).order := ⟨_, rfl⟩
  have hsub : (replica.document.stateAt id).order.Sublist joined := by
    rw [hjoined]
    exact hearly.order_join hc hlate id
  have hsub' : (other.document.stateAt id).order.Sublist joined := by
    have hsame := Document.alike_of_store (hearly.join_comm hc hlate hafter.anchored)
    rw [hjoined, hsame.2.2.1 id]
    exact hlate.order_join hc hearly id
  have hall : joined.Nodup := by
    have hadvances := hearly.lawful.advances.trans (hearly.advances_join hc hlate)
    rw [hjoined]
    exact ((Store.coherent_empty.advances hadvances).stateOf id).2.1.nodup_order
  intro early late
  refine ⟨hnodup hearly, hnodup hlate, fun hx hy hx' hy' => ⟨fun hxy => ?_, fun hxy => ?_⟩⟩
  · apply sublist_of_subset hall (hxy.trans hsub) hsub'
    exact List.cons_subset.2 ⟨hx', List.cons_subset.2 ⟨hy', List.nil_subset _⟩⟩
  · apply sublist_of_subset hall (hxy.trans hsub') hsub
    exact List.cons_subset.2 ⟨hx, List.cons_subset.2 ⟨hy, List.nil_subset _⟩⟩

/-- Two letters of one replica stand in the order in which they were typed also after others were
typed at the same place. -/
theorem keeps_order_typed :
    let merged := (typed 1 "ab").merge (typed 2 "xy")
    [(⟨1, 0⟩ : AtomId), ⟨1, 1⟩].Sublist (merged.document.stateAt (.root "t" .text)).order := by
  have hsize : ((typed 2 "xy").batchFor (some (typed 1 "ab").document.version)).encode.length <
      0x10000000000000000 := by
    decide +kernel
  have hearly : ((typed 1 "ab").document.stateAt (.root "t" .text)).order =
      [⟨1, 0⟩, ⟨1, 1⟩] := by
    decide +kernel
  have hlate : (((typed 1 "ab").merge (typed 2 "xy")).document.stateAt (.root "t" .text)).order =
      [⟨2, 0⟩, ⟨2, 1⟩, ⟨1, 0⟩, ⟨1, 1⟩] := by
    decide +kernel
  intro merged
  obtain ⟨net, hnet, hleft, hright⟩ := honest_typed
  have hmerge : net.Step (net.put 1 merged) := .merge hleft hright hsize
  have hmerged : (net.put 1 merged).replicas 1 = some merged := by
    rw [replicas_put, if_pos rfl]
  obtain ⟨-, -, hkeeps⟩ := Honest.keeps_order hnet (.single hmerge) hleft hmerged
    (.root "t" .text) ⟨1, 0⟩ ⟨1, 1⟩
  rw [hearly, hlate] at hkeeps
  rw [hlate]
  exact (hkeeps (by decide) (by decide) (by decide) (by decide)).1 (.refl _)

end Network

end CausalDoc
