import CausalDoc.Proofs.Network.Aimed
import CausalDoc.Proofs.Network.Convergence
import CausalDoc.Proofs.Store.Contiguity

/- Concurrent runs never interleave.

   On an honest run every insertion has its place, and between two of its elements there is
   nothing but what was inserted with one of them in the past. -/

namespace CausalDoc.Network

variable {net : Network} {peer : Nat} {replica : Replica} {run : Operation}

/-- The elements of an insertion stay together at every replica of an honest run.

They stand in the order of their counters, deleted ones included. Any other element between two of
them was inserted by an operation that has one of them in its causal past; so no element of a
concurrent operation is between them. -/
theorem Honest.keeps_run_together (h : net.Honest) (hreplica : net.replicas peer = some replica)
    (hrun : replica.document.log.Stored run) (hinserts : run.inserts = true) :
    let log := replica.document.log
    let order := (replica.document.stateAt run.container).order
    run.atoms.Sublist order ∧
      (∀ x e y, run.covers x = true → run.covers y = true → [x, e, y].Sublist order →
        run.covers e = true ∨ ∃ o, log.Stored o ∧ o.container = run.container ∧
          o.covers e = true ∧ ∃ a, run.covers a = true ∧ log.HappensBefore a o.id) ∧
      (∀ o, log.Stored o → o ≠ run → log.Concurrent run o → ∀ x e y, run.covers x = true →
        run.covers y = true → o.covers e = true → ¬ [x, e, y].Sublist order) := by
  obtain ⟨hlog, hgrounded, haimed, hshows⟩ := h.log_shows hreplica run.container
  obtain ⟨hatoms, hbetween⟩ :=
    hshows.run_together hlog hgrounded haimed hrun rfl hinserts
  intro log order
  refine ⟨hatoms, hbetween, fun o ho hne hconcurrent x e y hx hy he hsub => ?_⟩
  rcases hbetween x e y hx hy hsub with hown | ⟨o', ho', -, he', a, ha, hbefore⟩
  · exact hne (hlog.eq_of_covers ho hrun he hown)
  · rw [← hlog.eq_of_covers ho ho' he he'] at hbefore
    exact hconcurrent.1 a ha hbefore

/-- A replica that typed two letters and then a third one between them. -/
def parted : Replica := (typed 1 "ab").edit (.root "t" .text) (.insertText 1 "c") 5

/-- The first two letters. -/
def firstLetters : Operation :=
  ⟨⟨1, 0⟩, 0, [], .root "t" .text, 5, .insert none (.text "ab")⟩

/-- The third letter is between the first two, and has one of them in its past. -/
theorem keeps_run_together_parted :
    let log := parted.document.log
    [(⟨1, 0⟩ : AtomId), ⟨1, 2⟩, ⟨1, 1⟩].Sublist
        (parted.document.stateAt (.root "t" .text)).order ∧
      ∃ o, log.Stored o ∧ o.covers ⟨1, 2⟩ = true ∧
        ∃ a, firstLetters.covers a = true ∧ log.HappensBefore a o.id := by
  have horder : (parted.document.stateAt (.root "t" .text)).order =
      [⟨1, 0⟩, ⟨1, 2⟩, ⟨1, 1⟩] := by
    decide +kernel
  have hget : parted.document.log.get? ⟨1, 0⟩ = some firstLetters := by decide +kernel
  intro log
  obtain ⟨net, hnet, hreplica⟩ := @honest_typed_edit (.insertText 1 "c") trivial
  have hrun : log.Stored firstLetters := Log.stored_of_get? hget
  obtain ⟨-, hbetween, -⟩ :=
    @Honest.keeps_run_together net 1 parted _ hnet hreplica hrun (by decide)
  have hsub : [(⟨1, 0⟩ : AtomId), ⟨1, 2⟩, ⟨1, 1⟩].Sublist
      (parted.document.stateAt (.root "t" .text)).order := by
    rw [horder]
  refine ⟨hsub, ?_⟩
  rcases hbetween ⟨1, 0⟩ ⟨1, 2⟩ ⟨1, 1⟩ (by decide) (by decide) hsub with
    hown | ⟨o, ho, -, hcovers, hpast⟩
  · exact absurd hown (by decide)
  · exact ⟨o, ho, hcovers, hpast⟩

end CausalDoc.Network
