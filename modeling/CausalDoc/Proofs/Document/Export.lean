import CausalDoc.Document.Exchange
import CausalDoc.Proofs.Document.Reachable

/- What a document sends can be received.

   Operations are searched for flaws when they are made and when they are read, but what is
   sent are parts of them, cut where the other version happens to end, and some of these are
   parts of parts. A cut leaves a sound operation sound, and what the log takes is sound
   whatever bytes it came in, so a batch made by a document never has a flaw in it. -/

namespace CausalDoc.Document

variable {doc : Document}

theorem exists_status {bytes : Wire.Bytes} {batch : Batch} (hdecode : Batch.decode bytes = .ok batch)
    (other : Document) : ∃ status, (other.receive bytes).result = .ok status := by
  obtain ⟨after, -, hdrain⟩ := Intake.exists_turns (Intake.start other) batch.operations
  exact (receive_of_ok hdecode hdrain).2

/-- Everything that a document sends can be received.

The operations in its log and their parts that a version lacks are sound. The snapshot is read back
as all operations of the log, and the updates for a version as those that it lacks, in their order;
and any document at all receives them without an error. -/
theorem Reachable.exports_importable (h : doc.Reachable) :
    (∀ op, doc.log.Stored op → op.Sound) ∧
      (∀ version, ∀ op ∈ doc.log.since version, op.Sound) ∧
      (doc.snapshot.encode.length < 0x10000000000000000 →
        Batch.decode doc.snapshot.encode = .ok ⟨.snapshot, doc.log.all⟩ ∧
          ∀ other : Document, ∃ status, (other.receive doc.snapshot.encode).result = .ok status) ∧
      ∀ version, (doc.updatesSince version).encode.length < 0x10000000000000000 →
        Batch.decode (doc.updatesSince version).encode = .ok ⟨.updates, doc.log.since version⟩ ∧
          ∀ other : Document, ∃ status,
            (other.receive (doc.updatesSince version).encode).result = .ok status := by
  refine ⟨fun op hop => h.lawful.log.sound hop,
    fun version op hop => (h.lawful.cut_since version op hop).1, fun hsize => ?_,
    fun version hsize => ?_⟩
  · -- the whole history is what the empty version lacks
    have hdecode := h.lawful.decode_since .snapshot .empty hsize
    exact ⟨hdecode, exists_status hdecode⟩
  · have hdecode := h.lawful.decode_since .updates version hsize
    exact ⟨hdecode, exists_status hdecode⟩

/-- Of a text of two characters a version that has the first one is sent the second, as an operation
of its own. The snapshot has the text in one operation. An empty document receives both. -/
theorem exports_importable_cut :
    let doc := ((new Config.standard 1).edit (.root "t" .text) (.insertText 0 "ab") 5).document
    let version := VersionVector.empty.setLast ⟨1, 0⟩
    let whole : Operation := ⟨⟨1, 0⟩, 0, [], .root "t" .text, 5, .insert none (.text "ab")⟩
    let part : Operation := ⟨⟨1, 1⟩, 1, [], .root "t" .text, 5, .insert (some ⟨1, 0⟩) (.text "b")⟩
    Batch.decode doc.snapshot.encode = .ok ⟨.snapshot, [whole]⟩ ∧
      Batch.decode (doc.updatesSince version).encode = .ok ⟨.updates, [part]⟩ ∧
      (∃ status, ((new Config.standard 2).receive doc.snapshot.encode).result = .ok status) ∧
      ∃ status, ((new Config.standard 2).receive (doc.updatesSince version).encode).result =
        .ok status := by
  intro doc version whole part
  have h : doc.Reachable := .edit _ _ _ (.new Config.standard 1 (by decide)) trivial (by decide)
  obtain ⟨-, -, hsnapshot, hupdates⟩ := Reachable.exports_importable h
  obtain ⟨hall, hreceived⟩ := hsnapshot (by decide +kernel)
  obtain ⟨hsince, hreceived'⟩ := hupdates version (by decide +kernel)
  have hwhole : doc.log.all = [whole] := by decide +kernel
  have hpart : doc.log.since version = [part] := by decide +kernel
  rw [hwhole] at hall
  rw [hpart] at hsince
  exact ⟨hall, hsince, hreceived _, hreceived' _⟩

end CausalDoc.Document
