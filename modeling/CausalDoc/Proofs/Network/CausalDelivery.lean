import CausalDoc.Proofs.Network.Faithful
import Mathlib.Order.Bounds.Defs

/- Causal delivery without loss or duplication.

   At every moment of an honest run a document accounts for all it has made or was sent.
   What of it has its past there is in the log, the rest is parked once, under the first
   atom that it misses. -/

namespace CausalDoc.Network

variable {net : Network} {peer : Nat} {replica : Replica}

/-- What a document on an honest run has made of the operations that it made or was sent.

The version covers the largest causally closed set of their atoms; parked are those that are not
covered, each first atom once, and the atoms waited for are the first missing dependencies of
these; a batch of operations that were all seen before changes nothing; and nothing is parked
once all the past of what was seen was seen. -/
theorem Honest.delivers (h : net.Honest) (hreplica : net.replicas peer = some replica) :
    IsGreatest {atoms | atoms ⊆ atomsOf replica.seen ∧ CausallyClosed replica.seen atoms}
        replica.document.atoms ∧
      (∀ op, op ∈ replica.document.pending.operations ↔
        op ∈ replica.seen ∧ ¬ replica.document.Knows op) ∧
      (replica.document.pending.operations.map Operation.id).Nodup ∧
      replica.document.pending.size = replica.document.pending.operations.length ∧
      (∀ m, m ∈ replica.document.pending.missing ↔
        ∃ op ∈ replica.document.pending.operations, replica.document.missing? op = some m) ∧
      (∀ bytes, (∀ op ∈ Batch.carried bytes, op ∈ replica.seen) →
        (replica.document.receive bytes).document = replica.document) ∧
      (CausallyClosed replica.seen (atomsOf replica.seen) → replica.document.pending.size = 0) := by
  have hc := h.faithful.corpus
  have haccount := h.faithful.accounts hreplica
  have hpending := haccount.lawful.pending
  refine ⟨haccount.isGreatest_atoms hc, fun op => haccount.mem_operations_iff hc, hpending.once,
    hpending.size_eq, fun m => haccount.mem_missing_iff, fun bytes => haccount.receive_seen hc, ?_⟩
  intro hclosed
  rw [hpending.size_eq, haccount.operations_eq_nil hc hclosed]
  rfl

/-- A replica that typed two letters. -/
def opened : Replica :=
  (Replica.new Config.standard 1).edit (.root "t" .text) (.insertText 0 "ab") 5

/-- The same replica with a third one. -/
def continued : Replica := opened.edit (.root "t" .text) (.insertText 2 "c") 5

/-- A reader that gets the third letter before the others waits for the last one of these. -/
theorem delivers_early :
    let reader := (Replica.new Config.standard 2).receive
      (continued.batchFor (some opened.document.version)).encode
    reader.document.pending.missing = [⟨1, 1⟩] ∧
      ∃ op ∈ reader.document.pending.operations, reader.document.missing? op = some ⟨1, 1⟩ := by
  have hsize : (continued.batchFor (some opened.document.version)).encode.length <
      0x10000000000000000 := by
    decide +kernel
  have hmissing : ((Replica.new Config.standard 2).receive
      (continued.batchFor (some opened.document.version)).encode).document.pending.missing =
        [⟨1, 1⟩] := by
    decide +kernel
  intro reader
  have hjoin := Honest.step .refl (.join Config.standard 1 (by decide) rfl)
  have hjoin' := hjoin.step (.join Config.standard 2 (by decide) rfl)
  have hedit := hjoin'.step
    (@Step.edit _ 1 (.new Config.standard 1) (.root "t" .text) (.insertText 0 "ab") 5 rfl trivial
      (by decide))
  have hedit' := hedit.step
    (@Step.edit _ 1 opened (.root "t" .text) (.insertText 2 "c") 5 rfl trivial (by decide))
  have hsend := hedit'.step (@Step.send _ 1 continued (some opened.document.version) rfl hsize)
  have hreceive := hsend.step
    (@Step.receive _ 2 (.new Config.standard 2) _ rfl List.mem_cons_self)
  obtain ⟨-, -, -, -, hwaiting, -, -⟩ := @Honest.delivers _ 2 reader hreceive rfl
  refine ⟨hmissing, (hwaiting ⟨1, 1⟩).1 ?_⟩
  rw [hmissing]
  exact List.mem_singleton.2 rfl

end CausalDoc.Network
