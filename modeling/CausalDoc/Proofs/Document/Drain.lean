import CausalDoc.Proofs.Pending
import CausalDoc.Proofs.Store.Reflects

/- Working off a queue of operations.

   What one operation off the queue does to a document is a function of the two
   (`Document.advance`); the counts and warnings kept on the way decide nothing. One turn
   of the work takes one operation off the queue (`Intake.Turn`). Working the queue off
   repeats it and never stops early (`Intake.exists_turns`), so whatever one turn keeps
   holds at the end (`Intake.drain_invariant`). -/

namespace CausalDoc

namespace Document

variable {doc : Document} {op part : Operation}

/-- The part of an operation that is not known. -/
def newPart (doc : Document) (op : Operation) : Operation :=
  if op.id.counter < doc.version.nextCounter op.id.peer then
    op.suffix (doc.version.nextCounter op.id.peer)
  else op

/-- The first atom that an operation depends on and the log lacks. -/
def missing? (doc : Document) (op : Operation) : Option AtomId :=
  op.dependencies.find? fun d => !doc.log.contains d

theorem missing?_eq_none_iff :
    doc.missing? op = none ↔ ∀ d ∈ op.dependencies, doc.log.contains d = true := by
  rw [missing?, List.find?_eq_none]
  simp

theorem missing?_eq_some {m : AtomId} (h : doc.missing? op = some m) :
    m ∈ op.dependencies ∧ doc.log.contains m = false := by
  refine ⟨List.mem_of_find?_eq_some h, ?_⟩
  simpa using List.find?_some h

theorem judge_of_le (h : op.stop ≤ doc.version.nextCounter op.id.peer) : doc.judge op = .known := by
  unfold judge
  rw [if_pos h]

theorem judge_of_lt (h : doc.version.nextCounter op.id.peer < op.stop) :
    doc.judge op =
      match doc.missing? (doc.newPart op) with
      | some m => .waiting m (doc.newPart op)
      | none =>
        match (doc.newPart op).dependencies.find?
          fun d => (doc.log.lamport? d).any ((doc.newPart op).lamport ≤ ·) with
        | some d => .stale d (doc.newPart op)
        | none =>
          if doc.registry.isResolvable (doc.newPart op).container then .ready (doc.newPart op)
          else .orphan (doc.newPart op) := by
  unfold judge
  rw [if_neg (Nat.not_le.2 h)]
  rfl

/-- An operation that is judged ready is the new part of the one that came, and everything it
depends on is known and older. -/
theorem judge_eq_ready (h : doc.judge op = .ready part) :
    doc.version.nextCounter op.id.peer < op.stop ∧ part = doc.newPart op ∧
      doc.missing? part = none ∧
      (∀ d ∈ part.dependencies, ∀ l, doc.log.lamport? d = some l → l < part.lamport) ∧
      doc.registry.isResolvable part.container = true := by
  by_cases hnew : doc.version.nextCounter op.id.peer < op.stop
  · rw [judge_of_lt hnew] at h
    generalize doc.newPart op = new at h
    split at h
    · cases h
    · next hmissing =>
      split at h
      · cases h
      · next hold =>
        split at h
        · next hresolvable =>
          obtain rfl : new = part := Verdict.ready.inj h
          refine ⟨hnew, rfl, hmissing, fun d hd l hl => ?_, hresolvable⟩
          have hd' := List.find?_eq_none.1 hold d hd
          rw [hl, Option.any_some, decide_eq_true_eq] at hd'
          exact Nat.not_le.1 hd'
        · cases h
  · rw [judge_of_le (Nat.not_lt.1 hnew)] at h
    cases h

theorem judge_eq_known (h : doc.judge op = .known) :
    op.stop ≤ doc.version.nextCounter op.id.peer := by
  apply Nat.not_lt.1
  intro hnew
  rw [judge_of_lt hnew] at h
  split at h
  · cases h
  · split at h
    · cases h
    · split at h <;> cases h

theorem judge_eq_waiting {m : AtomId} (h : doc.judge op = .waiting m part) :
    part = doc.newPart op ∧ doc.missing? part = some m := by
  by_cases hnew : doc.version.nextCounter op.id.peer < op.stop
  · rw [judge_of_lt hnew] at h
    split at h
    · next hmissing =>
      cases h
      exact ⟨rfl, hmissing⟩
    · split at h
      · cases h
      · split at h <;> cases h
  · rw [judge_of_le (Nat.not_lt.1 hnew)] at h
    cases h

/-- An orphan is the new part of the operation that came, and misses nothing but its container. -/
theorem judge_eq_orphan (h : doc.judge op = .orphan part) :
    part = doc.newPart op ∧ doc.missing? part = none ∧
      doc.registry.isResolvable part.container = false := by
  by_cases hnew : doc.version.nextCounter op.id.peer < op.stop
  · rw [judge_of_lt hnew] at h
    split at h
    · cases h
    · next hmissing =>
      split at h
      · cases h
      · split at h
        · cases h
        · next hresolvable =>
          cases h
          exact ⟨rfl, hmissing, Bool.eq_false_iff.2 hresolvable⟩
  · rw [judge_of_le (Nat.not_lt.1 hnew)] at h
    cases h

theorem next_of_ready (h : doc.judge op = .ready part) :
    part.id.counter = doc.version.nextCounter part.id.peer := by
  obtain ⟨hnew, rfl, hmissing, -⟩ := judge_eq_ready h
  unfold newPart at hmissing ⊢
  split
  · next hpart =>
    rw [Operation.suffix_id]
    exact Nat.max_eq_left (Nat.le_of_lt hpart)
  · next hwhole =>
    rw [if_neg hwhole] at hmissing
    by_cases hzero : op.id.counter = 0
    · omega
    · -- the predecessor is known
      have hprevious : (⟨op.id.peer, op.id.counter - 1⟩ : AtomId) ∈ op.dependencies := by
        apply Operation.mem_dependencies.2
        right
        left
        exact ⟨rfl, by dsimp only; omega⟩
      have hknown := missing?_eq_none_iff.1 hmissing _ hprevious
      rw [Log.contains, VersionVector.includes_iff] at hknown
      dsimp only at hknown
      change _ < doc.version.nextCounter op.id.peer at hknown
      omega

/-- An operation that is ready can be taken. -/
theorem admits_of_ready (hlog : doc.log.Coherent) (hsound : op.Sound)
    (h : doc.judge op = .ready part) : doc.store.Admits part := by
  obtain ⟨hnew, rfl, hmissing, hold, hresolvable⟩ := judge_eq_ready h
  have hpart : (doc.newPart op).Sound := by
    unfold newPart
    split
    · exact hsound.suffix hnew
    · exact hsound
  refine ⟨⟨hpart, next_of_ready h, fun d hd => ?_⟩, hresolvable⟩
  obtain ⟨l, hl⟩ := hlog.contains_iff_lamport?.1 (missing?_eq_none_iff.1 hmissing d hd)
  exact ⟨l, hl, hold d hd l hl⟩

/-! ## One operation -/

/-- Parks an operation, unless one with its first atom is parked. -/
def hold (doc : Document) (m : AtomId) (op : Operation) : Document :=
  { doc with pending := (doc.pending.push? m op).getD doc.pending }

/-- Takes an operation and releases what waited for it. -/
def take (doc : Document) (op : Operation) : Document :=
  { doc with
    log := doc.log.push op
    registry := doc.registry.absorb op
    pending := (doc.pending.takeReady op.id.peer op.stop).2 }

/-- What an operation off the queue makes of the document, and what it adds to the queue. -/
def advance (doc : Document) (op : Operation) : Document × List Operation :=
  match doc.judge op with
  | .known => (doc, [])
  | .waiting m part => (doc.hold m part, [])
  | .stale _ _ => (doc, [])
  | .orphan part => (doc.hold (part.container.creator?.getD part.id) part, [])
  | .ready part => (doc.take part, (doc.pending.takeReady part.id.peer part.stop).1)

/-- Parking leaves the document, as one with the same first atom is parked, or changes what is
parked only. -/
theorem hold_cases (doc : Document) (m : AtomId) (op : Operation) :
    op.id ∈ doc.pending.parked ∧ doc.hold m op = doc ∨
      ∃ pending, doc.pending.push? m op = some pending ∧ doc.hold m op = { doc with pending } := by
  unfold hold
  cases hpush : doc.pending.push? m op with
  | none => exact .inl ⟨Pending.push?_eq_none_iff.1 hpush, rfl⟩
  | some pending => exact .inr ⟨pending, rfl, rfl⟩

theorem advance_peer : (doc.advance op).1.peer = doc.peer := by
  unfold advance
  split <;> rfl

theorem advance_config : (doc.advance op).1.config = doc.config := by
  unfold advance
  split <;> rfl

theorem store_advance : (doc.advance op).1.store = doc.store ∨
    ∃ part, doc.judge op = .ready part ∧ (doc.advance op).1.store = doc.store.absorb part := by
  unfold advance
  split
  case h_5 part hready => exact .inr ⟨part, hready, rfl⟩
  all_goals exact .inl rfl

theorem stored_advance {o : Operation} (ho : doc.log.Stored o) :
    (doc.advance op).1.log.Stored o := by
  rcases @store_advance doc op with hsame | ⟨part, -, htaken⟩
  · rw [show (doc.advance op).1.log = doc.log from congrArg Store.log hsame]
    exact ho
  · rw [show (doc.advance op).1.log = doc.log.push part from congrArg Store.log htaken]
    exact Log.stored_push.2 (.inl ho)

end Document

/-! ## The queue -/

namespace Intake

theorem park_document (intake : Intake) (m : AtomId) (op : Operation) :
    (intake.park m op).document = intake.document.hold m op := by
  unfold park Document.hold
  cases intake.document.pending.push? m op <;> rfl

/-- The batch after an operation that is ready. -/
def accept (intake : Intake) (op : Operation) : Intake :=
  (intake.release
    { intake.document with
      log := intake.document.log.push op
      registry := intake.document.registry.absorb op }
    (if (intake.document.registry.stateOf op.container).canApply op then []
      else [.noEffect op.id op.container]) op).1

/-- An operation that is ready is taken, and what waited for it joins the queue at its end. -/
theorem drain_ready {intake : Intake} {op part : Operation} {queue : List Operation}
    (hjudge : intake.document.judge op = .ready part) :
    intake.drain (op :: queue) = (intake.accept part).drain
      (queue ++ (intake.document.pending.takeReady part.id.peer part.stop).1) := by
  obtain ⟨-, -, -, -, hresolvable⟩ := Document.judge_eq_ready hjudge
  have hperform := Document.perform_eq hresolvable (Document.next_of_ready hjudge)
  rw [drain, hjudge]
  dsimp only
  split
  · next hfailed =>
    rw [hperform] at hfailed
    cases hfailed
  · next hdone =>
    rw [hperform] at hdone
    cases hdone
    rfl

/-- The batch after an operation off the queue. -/
def advance (intake : Intake) (op : Operation) : Intake :=
  match intake.document.judge op with
  | .known => intake.skip
  | .waiting m part => intake.park m part
  | .stale dependency part => intake.reject dependency part
  | .orphan part => intake.parkOrphan part
  | .ready part => intake.accept part

theorem advance_document (intake : Intake) (op : Operation) :
    (intake.advance op).document = (intake.document.advance op).1 := by
  unfold advance Document.advance
  cases intake.document.judge op with
  | waiting m part | orphan part => exact park_document ..
  | known | stale dependency part | ready part => rfl

theorem drain_cons (intake : Intake) (op : Operation) (queue : List Operation) :
    intake.drain (op :: queue) =
      (intake.advance op).drain (queue ++ (intake.document.advance op).2) := by
  unfold advance Document.advance
  cases hjudge : intake.document.judge op with
  | ready part => exact drain_ready hjudge
  | known | waiting m part | stale dependency part | orphan part =>
    rw [drain, hjudge, List.append_nil]

/-- One turn of the work: one operation comes off the queue. -/
inductive Turn : Intake × List Operation → Intake × List Operation → Prop where
  | off (intake : Intake) (op : Operation) (queue : List Operation) :
    Turn (intake, op :: queue) (intake.advance op, queue ++ (intake.document.advance op).2)

/-- The queue is worked off to the end, turn by turn. -/
theorem exists_turns (intake : Intake) (queue : List Operation) :
    ∃ after, Relation.ReflTransGen Turn (intake, queue) (after, []) ∧
      intake.drain queue = (after, .ok ()) := by
  have turn : ∀ {intake : Intake} {op : Operation} {queue : List Operation},
      (∃ after, Relation.ReflTransGen Turn
        (intake.advance op, queue ++ (intake.document.advance op).2) (after, []) ∧
        (intake.advance op).drain (queue ++ (intake.document.advance op).2) = (after, .ok ())) →
      ∃ after, Relation.ReflTransGen Turn (intake, op :: queue) (after, []) ∧
        intake.drain (op :: queue) = (after, .ok ()) := by
    intro intake op queue hrest
    obtain ⟨after, hturns, hdrain⟩ := hrest
    exact ⟨after, .head (.off intake op queue) hturns, (drain_cons ..).trans hdrain⟩
  induction intake, queue using drain.induct with
  | case1 intake => exact ⟨intake, .refl, by rw [drain]⟩
  | case2 intake op queue hjudge ih =>
    apply turn
    rw [advance, Document.advance, hjudge, List.append_nil]
    exact ih
  | case3 intake op queue m part hjudge ih =>
    apply turn
    rw [advance, Document.advance, hjudge, List.append_nil]
    exact ih
  | case4 intake op queue dependency part hjudge ih =>
    apply turn
    rw [advance, Document.advance, hjudge, List.append_nil]
    exact ih
  | case5 intake op queue part hjudge ih =>
    apply turn
    rw [advance, Document.advance, hjudge, List.append_nil]
    exact ih
  | case6 intake op queue part hjudge document e hperform =>
    -- a ready operation continues the log, so performing it does not fail
    obtain ⟨-, -, -, -, hresolvable⟩ := Document.judge_eq_ready hjudge
    rw [Document.perform_eq hresolvable (Document.next_of_ready hjudge)] at hperform
    cases hperform
  | case7 intake op queue part hjudge document warnings hperform released ih =>
    apply turn
    obtain ⟨-, -, -, -, hresolvable⟩ := Document.judge_eq_ready hjudge
    rw [Document.perform_eq hresolvable (Document.next_of_ready hjudge)] at hperform
    cases hperform
    rw [advance, Document.advance, hjudge]
    exact ih

/-- What a turn keeps holds after any number of them. -/
theorem turns_invariant {P : Intake → List Operation → Prop}
    (hturn : ∀ intake op queue, P intake (op :: queue) →
      P (intake.advance op) (queue ++ (intake.document.advance op).2))
    {start after : Intake × List Operation} (hturns : Relation.ReflTransGen Turn start after)
    (h : P start.1 start.2) : P after.1 after.2 := by
  induction hturns with
  | refl => exact h
  | tail _ hlast ih =>
    cases hlast with
    | off intake op queue => exact hturn intake op queue ih

/-- What every operation off the queue keeps holds when the queue is worked off, and it is
worked off to the end. -/
theorem drain_invariant {P : Document → List Operation → Prop}
    (hstep : ∀ doc op queue, P doc (op :: queue) →
      P (doc.advance op).1 (queue ++ (doc.advance op).2))
    (intake : Intake) (queue : List Operation) (h : P intake.document queue) :
    ∃ after, intake.drain queue = (after, .ok ()) ∧ P after.document [] := by
  obtain ⟨after, hturns, hdrain⟩ := exists_turns intake queue
  refine ⟨after, hdrain, ?_⟩
  refine turns_invariant (P := fun i q => P i.document q) (fun i op q hi => ?_) hturns h
  rw [advance_document]
  exact hstep _ _ _ hi

end Intake

namespace Document

theorem receive_of_error {doc : Document} {bytes : Wire.Bytes} {e : DecodeError}
    (h : Batch.decode bytes = .error e) : (doc.receive bytes).document = doc := by
  simp only [receive, h]
  rfl

/-- The outcome of a batch is read off the work on its queue. -/
theorem receive_result {doc : Document} {bytes : Wire.Bytes} {batch : Batch} {after : Intake}
    (h : Batch.decode bytes = .ok batch)
    (hdrain : (Intake.start doc).drain batch.operations = (after, .ok ())) :
    (doc.receive bytes).document = after.document ∧
      (doc.receive bytes).result = .ok { after.status with
        buffered := (after.parked.filter after.document.pending.contains).size } ∧
      (doc.receive bytes).deliveries =
        if 0 < after.status.applied then
          after.document.notify .received after.touched.toList doc.version
        else [] := by
  simp only [receive, h, hdrain]
  exact ⟨trivial, trivial, trivial⟩

theorem receive_of_ok {doc : Document} {bytes : Wire.Bytes} {batch : Batch} {after : Intake}
    (h : Batch.decode bytes = .ok batch)
    (hdrain : (Intake.start doc).drain batch.operations = (after, .ok ())) :
    (doc.receive bytes).document = after.document ∧
      ∃ status, (doc.receive bytes).result = .ok status := by
  obtain ⟨hdocument, hresult, -⟩ := receive_result h hdrain
  exact ⟨hdocument, _, hresult⟩

/-- While the document receives the bytes, the operation comes off the queue when the document has
become `met`. -/
def Meets (doc : Document) (bytes : Wire.Bytes) (met : Document) (op : Operation) : Prop :=
  ∃ batch intake queue, Batch.decode bytes = .ok batch ∧
    Relation.ReflTransGen Intake.Turn (Intake.start doc, batch.operations) (intake, op :: queue) ∧
    intake.document = met

/-- What every operation off the queue keeps holds after a batch. -/
theorem receive_invariant {P : Document → List Operation → Prop} (doc : Document)
    (bytes : Wire.Bytes)
    (hstep : ∀ doc op queue, P doc (op :: queue) →
      P (doc.advance op).1 (queue ++ (doc.advance op).2))
    (hbad : ∀ e, Batch.decode bytes = .error e → P doc [])
    (hstart : ∀ batch, Batch.decode bytes = .ok batch → P doc batch.operations) :
    P (doc.receive bytes).document [] := by
  cases hdecode : Batch.decode bytes with
  | error e =>
    rw [receive_of_error hdecode]
    exact hbad e hdecode
  | ok batch =>
    obtain ⟨after, hdrain, hafter⟩ := Intake.drain_invariant hstep (Intake.start doc)
      batch.operations (hstart batch hdecode)
    rw [(receive_of_ok hdecode hdrain).1]
    exact hafter

/-- A batch takes nothing from the log, and leaves the peer. -/
theorem receive_keeps (doc : Document) (bytes : Wire.Bytes) :
    (doc.receive bytes).document.peer = doc.peer ∧
      ∀ op, doc.log.Stored op → (doc.receive bytes).document.log.Stored op := by
  apply receive_invariant
    (P := fun d _ => d.peer = doc.peer ∧ ∀ op, doc.log.Stored op → d.log.Stored op) doc bytes
  · intro d op queue hgiven
    obtain ⟨hpeer, hstored⟩ := hgiven
    exact ⟨advance_peer.trans hpeer, fun o ho => stored_advance (hstored o ho)⟩
  · exact fun _ _ => ⟨rfl, fun _ ho => ho⟩
  · exact fun _ _ => ⟨rfl, fun _ ho => ho⟩

theorem receive_config (doc : Document) (bytes : Wire.Bytes) :
    (doc.receive bytes).document.config = doc.config := by
  apply receive_invariant (P := fun d _ => d.config = doc.config) doc bytes
  · exact fun d op queue hsame => advance_config.trans hsame
  · exact fun _ _ => rfl
  · exact fun _ _ => rfl

end Document

end CausalDoc
