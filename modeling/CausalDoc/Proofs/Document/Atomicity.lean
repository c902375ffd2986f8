import CausalDoc.Proofs.Document.Drain

/- Receiving is all or nothing.

   Bytes that are not a batch are turned away before anything is touched. With a batch
   nothing can go wrong later on, when part of it is applied already: an operation that is
   judged ready has its predecessor in the log and does not overlap it, so it continues the
   history of its peer, and its container can be used (`perform_of_ready`). No law of the
   document is needed for that, and none of what is queued or parked. -/

namespace CausalDoc.Document

variable {doc : Document} {op part : Operation}

theorem perform_of_ready (h : doc.judge op = .ready part) :
    doc.log.append part = .ok (doc.log.push part) ∧
      ∃ after warnings, doc.perform part = (after, .ok warnings) := by
  have hnext := next_of_ready h
  obtain ⟨-, -, -, -, hresolvable⟩ := judge_eq_ready h
  exact ⟨Log.append_eq hnext, _, _, perform_eq hresolvable hnext⟩

/-- Receiving fails exactly when the bytes are not a batch, with the error of the decoder, and then
the document is what it was, nobody is told of anything, and nothing is warned of. Otherwise it
succeeds: the queue is worked off to its end, and every operation that is judged ready on the way
is performed and logged. -/
theorem receive_all_or_nothing (doc : Document) (bytes : Wire.Bytes) :
    (∀ error, (doc.receive bytes).result = .error error ↔
      ∃ cause, Batch.decode bytes = .error cause ∧ error = .decode cause) ∧
    (∀ cause, Batch.decode bytes = .error cause →
      doc.receive bytes = ⟨doc, .error (.decode cause), [], []⟩) ∧
    (∀ batch, Batch.decode bytes = .ok batch → ∃ after status,
      Relation.ReflTransGen Intake.Turn (Intake.start doc, batch.operations) (after, []) ∧
      (doc.receive bytes).document = after.document ∧
      (doc.receive bytes).result = .ok status) ∧
    (∀ met op part, doc.Meets bytes met op → met.judge op = .ready part →
      met.log.append part = .ok (met.log.push part) ∧
        ∃ after warnings, met.perform part = (after, .ok warnings)) := by
  have hfailed : ∀ cause, Batch.decode bytes = .error cause →
      doc.receive bytes = ⟨doc, .error (.decode cause), [], []⟩ := by
    intro cause hdecode
    rw [receive, hdecode]
    rfl
  have hdone : ∀ batch, Batch.decode bytes = .ok batch → ∃ after status,
      Relation.ReflTransGen Intake.Turn (Intake.start doc, batch.operations) (after, []) ∧
      (doc.receive bytes).document = after.document ∧
      (doc.receive bytes).result = .ok status := by
    intro batch hdecode
    obtain ⟨after, hturns, hdrain⟩ := Intake.exists_turns (Intake.start doc) batch.operations
    obtain ⟨hdocument, status, hresult⟩ := receive_of_ok hdecode hdrain
    exact ⟨after, status, hturns, hdocument, hresult⟩
  refine ⟨fun error => ?_, hfailed, hdone, fun met op part _ hjudge => perform_of_ready hjudge⟩
  cases hdecode : Batch.decode bytes with
  | error cause =>
    rw [hfailed cause hdecode]
    simp [eq_comm]
  | ok batch =>
    obtain ⟨-, status, -, -, hresult⟩ := hdone batch hdecode
    rw [hresult]
    simp

end CausalDoc.Document
