import CausalDoc.Proofs.Document.Reachable
import CausalDoc.Proofs.Store.InTurn
import Mathlib.Data.List.Dedup
import Mathlib.Data.List.Perm.Subperm
import Mathlib.Logic.Relation

/- The course of the work on a batch, and its accounts.

   The work on a queue is a list of turns (`Document.turns`), and what is applied and what
   is parked on the way are read off it (`performed`, `setAside`). Each turn leaves less
   work than it found, so there are not more turns than work at the start
   (`length_turns_le`), and no other way to go through the queue takes longer
   (`Intake.acc_turn`). The status keeps count of the turns: whatever comes off the queue is
   applied, passed over, dropped or parked, and what is released was parked before
   (`Intake.drain_balance`). -/

namespace CausalDoc

namespace Document

variable {doc : Document} {op part o : Operation} {queue : List Operation}

/-! ## Turns -/

/-- Every turn leaves less work. -/
theorem work_advance (doc : Document) (op : Operation) (queue : List Operation) :
    Intake.work (queue ++ (doc.advance op).2).length (doc.advance op).1.pending.load <
      Intake.work (op :: queue).length doc.pending.load := by
  have hhold : ∀ m part, (doc.hold m part).pending.load ≤ doc.pending.load + 1 := by
    intro m part
    rcases doc.hold_cases m part with ⟨-, hsame⟩ | ⟨pending, hpush, hafter⟩
    · rw [hsame]
      omega
    · rw [hafter]
      exact Nat.le_of_eq (Pending.load_push? hpush)
  unfold advance
  rw [List.length_append]
  cases doc.judge op with
  | known | stale dependency part => exact Intake.work_lt_of_take (Nat.le_succ _)
  | waiting m part | orphan part => exact Intake.work_lt_of_take (hhold _ _)
  | ready part => exact Intake.work_lt_of_release (Pending.load_takeReady ..)

/-- The turns in which a queue is worked off: the document as an operation meets it, and the
operation. -/
def turns (doc : Document) : List Operation → List (Document × Operation)
  | [] => []
  | op :: queue => (doc, op) :: (doc.advance op).1.turns (queue ++ (doc.advance op).2)
termination_by queue => Intake.work queue.length doc.pending.load
decreasing_by exact work_advance ..

theorem length_turns_le (doc : Document) (queue : List Operation) :
    (doc.turns queue).length ≤ Intake.work queue.length doc.pending.load := by
  induction doc, queue using turns.induct with
  | case1 doc =>
    rw [turns]
    exact Nat.zero_le _
  | case2 doc op queue ih =>
    have hless := work_advance doc op queue
    rw [turns, List.length_cons]
    omega

/-- What is applied when an operation comes off the queue. -/
def applies (doc : Document) (op : Operation) : List Operation :=
  match doc.judge op with
  | .ready part => [part]
  | _ => []

/-- The first atom of what is parked when an operation comes off the queue. -/
def parks (doc : Document) (op : Operation) : List AtomId :=
  match doc.judge op with
  | .waiting _ part | .orphan part => if part.id ∈ doc.pending.parked then [] else [part.id]
  | _ => []

/-- What is applied while a queue is worked off, in the order in which it is applied. -/
def performed (doc : Document) (queue : List Operation) : List Operation :=
  (doc.turns queue).flatMap fun turn => turn.1.applies turn.2

/-- The first atoms of what is parked while a queue is worked off, also of what was released on the
way and is parked again. -/
def setAside (doc : Document) (queue : List Operation) : List AtomId :=
  (doc.turns queue).flatMap fun turn => turn.1.parks turn.2

theorem performed_nil : doc.performed [] = [] := by
  rw [performed, turns, List.flatMap_nil]

theorem setAside_nil : doc.setAside [] = [] := by
  rw [setAside, turns, List.flatMap_nil]

theorem performed_cons : doc.performed (op :: queue) =
    doc.applies op ++ (doc.advance op).1.performed (queue ++ (doc.advance op).2) := by
  rw [performed, turns, List.flatMap_cons]
  rfl

theorem setAside_cons : doc.setAside (op :: queue) =
    doc.parks op ++ (doc.advance op).1.setAside (queue ++ (doc.advance op).2) := by
  rw [setAside, turns, List.flatMap_cons]
  rfl

/-- The store takes what is applied. -/
theorem store_applies : (doc.advance op).1.store = doc.store.absorbAll (doc.applies op) := by
  unfold advance applies
  cases doc.judge op <;> rfl

theorem admits_applies (hlog : doc.log.Coherent) (hsound : op.Sound) :
    doc.store.AdmitsAll (doc.applies op) := by
  unfold applies
  cases hjudge : doc.judge op with
  | ready part => exact ⟨admits_of_ready hlog hsound hjudge, trivial⟩
  | known | waiting m part | stale dependency part | orphan part => trivial

/-- What is applied while a queue is worked off is admitted, each operation in its turn. -/
theorem Lawful.admits_performed (h : doc.Lawful)
    (hqueue : ∀ op ∈ queue, op.Sound ∧ op.Writable) :
    doc.store.AdmitsAll (doc.performed queue) := by
  induction doc, queue using turns.induct with
  | case1 doc =>
    rw [performed_nil]
    trivial
  | case2 doc op queue ih =>
    obtain ⟨hsound, hw⟩ := hqueue op List.mem_cons_self
    obtain ⟨hafter, hreleased⟩ := h.advance hsound hw
    rw [performed_cons, Store.admitsAll_append, ← store_applies]
    refine ⟨admits_applies h.log hsound, ih hafter fun o ho => ?_⟩
    rcases List.mem_append.1 ho with ho | ho
    · exact hqueue o (List.mem_cons_of_mem _ ho)
    · exact hreleased o ho

theorem tidy_advance (h : doc.pending.Tidy) : (doc.advance op).1.pending.Tidy := by
  have hhold : ∀ m part, (doc.hold m part).pending.Tidy := by
    intro m part
    rcases doc.hold_cases m part with ⟨-, hsame⟩ | ⟨pending, hpush, hafter⟩
    · rw [hsame]
      exact h
    · rw [hafter]
      exact h.push? hpush
  unfold advance
  cases doc.judge op with
  | known | stale dependency part => exact h
  | waiting m part | orphan part => exact hhold _ _
  | ready part => exact h.takeReady _ _

end Document

/-! ## What is counted -/

namespace Intake

variable {intake after last : Intake} {op : Operation} {queue : List Operation}

theorem acc_turn (start : Intake × List Operation) :
    Acc (fun after before => Turn before after) start := by
  have hless : ∀ {before after : Intake × List Operation}, Turn before after →
      work after.2.length after.1.document.pending.load <
        work before.2.length before.1.document.pending.load := by
    intro before after hturn
    cases hturn with
    | off intake op queue =>
      dsimp only
      rw [advance_document]
      exact Document.work_advance ..
  exact Subrelation.accessible hless
    (InvImage.accessible (fun s : Intake × List Operation => work s.2.length s.1.document.pending.load)
      (Nat.lt_wfRel.wf.apply _))

/-- The turns are what the work passes through. -/
theorem mem_turns {met : Document} :
    (met, op) ∈ intake.document.turns queue ↔ ∃ passed rest,
      Relation.ReflTransGen Turn (intake, queue) (passed, op :: rest) ∧ passed.document = met := by
  induction hdoc : intake.document, queue using Document.turns.induct generalizing intake with
  | case1 doc =>
    rw [Document.turns]
    refine ⟨fun h => absurd h List.not_mem_nil, ?_⟩
    rintro ⟨passed, rest, hturns, -⟩
    rcases Relation.ReflTransGen.cases_head hturns with heq | ⟨next, hturn, -⟩
    · cases heq
    · cases hturn
  | case2 doc first queue ih =>
    subst hdoc
    have hrest := @ih (intake.advance first) (advance_document intake first)
    rw [Document.turns, List.mem_cons, hrest]
    refine ⟨?_, ?_⟩
    · rintro (heq | ⟨passed, rest, hturns, hmet⟩)
      · cases heq
        exact ⟨intake, queue, .refl, rfl⟩
      · exact ⟨passed, rest, .head (.off intake first queue) hturns, hmet⟩
    · rintro ⟨passed, rest, hturns, hmet⟩
      rcases Relation.ReflTransGen.cases_head hturns with heq | ⟨next, hturn, hturns⟩
      · cases heq
        exact .inl (by rw [hmet])
      · cases hturn
        exact .inr ⟨passed, rest, hturns, hmet⟩

/-- The counts, and the store, follow what was applied and what was parked. -/
structure Accounts (before : Intake) (ops : List Operation) (ids : List AtomId)
    (after : Intake) : Prop where
  store : after.document.store = before.document.store.absorbAll ops
  applied : after.status.applied = before.status.applied + ops.length
  touched : ∀ c, c ∈ after.touched ↔ c ∈ before.touched ∨ ∃ o ∈ ops, o.container = c
  parked : ∀ id, id ∈ after.parked ↔ id ∈ before.parked ∨ id ∈ ids

theorem Accounts.refl (intake : Intake) : intake.Accounts [] [] intake where
  store := rfl
  applied := rfl
  touched := fun id => by simp
  parked := fun id => by simp

theorem Accounts.trans {ops ops' : List Operation} {ids ids' : List AtomId}
    (h : intake.Accounts ops ids after) (h' : after.Accounts ops' ids' last) :
    intake.Accounts (ops ++ ops') (ids ++ ids') last where
  store := by rw [h'.store, h.store, Store.absorbAll_append]
  applied := by
    rw [h'.applied, h.applied, List.length_append]
    omega
  touched := fun id => by
    rw [h'.touched, h.touched, or_assoc]
    simp only [List.mem_append, or_and_right, exists_or]
  parked := fun id => by rw [h'.parked, h.parked, List.mem_append, or_assoc]

theorem accounts_park (intake : Intake) (m : AtomId) (part : Operation) :
    intake.Accounts [] (if part.id ∈ intake.document.pending.parked then [] else [part.id])
      (intake.park m part) := by
  unfold park
  cases hpush : intake.document.pending.push? m part with
  | some pending =>
    have hnew : part.id ∉ intake.document.pending.parked := fun hin => by
      rw [Pending.push?_eq_none_iff.2 hin] at hpush
      cases hpush
    rw [if_neg hnew]
    refine ⟨rfl, rfl, fun id => by simp, fun id => ?_⟩
    rw [OrderedSet.mem_insert, List.mem_singleton, or_comm]
  | none =>
    rw [if_pos (Pending.push?_eq_none_iff.1 hpush)]
    exact ⟨rfl, rfl, fun id => by simp [skip], fun id => by simp [skip]⟩

theorem accounts_advance (intake : Intake) (op : Operation) :
    intake.Accounts (intake.document.applies op) (intake.document.parks op)
      (intake.advance op) := by
  unfold advance Document.applies Document.parks
  cases intake.document.judge op with
  | known => exact ⟨rfl, rfl, fun id => by simp [skip], fun id => by simp [skip]⟩
  | stale dependency part => exact ⟨rfl, rfl, fun id => by simp [reject], fun id => by simp [reject]⟩
  | waiting m part => exact accounts_park intake m part
  | orphan part =>
    have hparked := accounts_park
      { intake with warnings := intake.warnings ++ [.unknownContainer part.id part.container] }
      (part.container.creator?.getD part.id) part
    exact ⟨hparked.store, hparked.applied, hparked.touched, hparked.parked⟩
  | ready part =>
    refine ⟨rfl, rfl, fun id => ?_, fun id => by simp [accept, release]⟩
    show id ∈ intake.touched.insert part.container ↔ _
    rw [OrderedSet.mem_insert]
    simp [or_comm, eq_comm]

theorem accounts_drain (intake : Intake) (queue : List Operation) :
    intake.Accounts (intake.document.performed queue) (intake.document.setAside queue)
      (intake.drain queue).1 := by
  induction hdoc : intake.document, queue using Document.turns.induct generalizing intake with
  | case1 doc =>
    rw [drain, Document.performed_nil, Document.setAside_nil]
    exact .refl intake
  | case2 doc op queue ih =>
    subst hdoc
    rw [drain_cons, Document.performed_cons, Document.setAside_cons]
    exact (accounts_advance intake op).trans (ih _ (advance_document intake op))

/-- What has been dealt with, and what is still parked. -/
def accounted (intake : Intake) : Nat :=
  intake.status.applied + intake.status.skipped + intake.status.rejected +
    intake.document.pending.size

theorem balance_park (intake : Intake) (m : AtomId) (part : Operation)
    (h : intake.document.pending.Tidy) :
    (intake.park m part).accounted = intake.accounted + 1 := by
  unfold park accounted
  cases hpush : intake.document.pending.push? m part with
  | some pending =>
    have := h.size_push? hpush
    dsimp only
    omega
  | none =>
    dsimp only [skip]
    omega

/-- An operation that comes off the queue is dealt with or parked, and what it adds to the queue was
parked before. -/
theorem balance_advance (intake : Intake) (op : Operation) (h : intake.document.pending.Tidy) :
    (intake.advance op).accounted + (intake.document.advance op).2.length =
      intake.accounted + 1 := by
  unfold advance Document.advance
  cases intake.document.judge op with
  | known =>
    show intake.skip.accounted + 0 = intake.accounted + 1
    dsimp only [skip, accounted]
    omega
  | stale dependency part =>
    show (intake.reject dependency part).accounted + 0 = intake.accounted + 1
    dsimp only [reject, accounted]
    omega
  | waiting m part => exact balance_park intake m part h
  | orphan part =>
    exact balance_park
      { intake with warnings := intake.warnings ++ [.unknownContainer part.id part.container] }
      (part.container.creator?.getD part.id) part h
  | ready part =>
    have hsize := h.size_takeReady part.id.peer part.stop
    show (intake.accept part).accounted + (intake.document.pending.takeReady _ _).1.length = _
    dsimp only [accept, release, accounted]
    omega

/-- When the queue is worked off, all that was in it is dealt with or parked. -/
theorem drain_balance (intake : Intake) (queue : List Operation)
    (h : intake.document.pending.Tidy) :
    (intake.drain queue).1.accounted = intake.accounted + queue.length := by
  obtain ⟨after, hturns, hdrain⟩ := exists_turns intake queue
  have hkept := turns_invariant
    (P := fun i q => i.document.pending.Tidy ∧
      i.accounted + q.length = intake.accounted + queue.length) (fun i op q hgiven => ?_)
    hturns ⟨h, rfl⟩
  · rw [hdrain]
    exact hkept.2
  · obtain ⟨htidy, hsum⟩ := hgiven
    have hturn := balance_advance i op htidy
    refine ⟨?_, ?_⟩
    · rw [advance_document]
      exact Document.tidy_advance htidy
    · rw [List.length_cons] at hsum
      rw [List.length_append]
      omega

end Intake

namespace Document

variable {doc : Document} {bytes : Wire.Bytes} {batch : Batch}

theorem meets_iff {met : Document} {op : Operation} (h : Batch.decode bytes = .ok batch) :
    (met, op) ∈ doc.turns batch.operations ↔ doc.Meets bytes met op := by
  show (met, op) ∈ (Intake.start doc).document.turns batch.operations ↔ _
  rw [Intake.mem_turns]
  refine ⟨?_, ?_⟩
  · intro hgiven
    obtain ⟨passed, rest, hturns, hmet⟩ := hgiven
    exact ⟨batch, passed, rest, h, hturns, hmet⟩
  · intro hgiven
    obtain ⟨batch', passed, rest, h', hturns, hmet⟩ := hgiven
    rw [h] at h'
    cases h'
    exact ⟨passed, rest, hturns, hmet⟩

/-- What is buffered are the operations that were parked on the way and still are, each once. -/
theorem buffered_eq {pending : Pending} {parked : OrderedSet AtomId} {ids : List AtomId}
    (hparked : ∀ id, id ∈ parked ↔ id ∈ ids) :
    (parked.filter pending.contains).size = (ids.dedup.filter pending.contains).length := by
  have hperm : (parked.filter pending.contains).toList.Perm (ids.dedup.filter pending.contains) := by
    refine (List.perm_ext_iff_of_nodup (OrderedSet.nodup_toList _)
      ((List.nodup_dedup ids).filter _)).2 fun id => ?_
    rw [OrderedSet.mem_toList, OrderedSet.mem_filter, hparked, List.mem_filter, List.mem_dedup]
  exact hperm.length_eq

theorem buffered_le_size (pending : Pending) (parked : OrderedSet AtomId) :
    (parked.filter pending.contains).size ≤ pending.size := by
  have hsub : (parked.filter pending.contains).toList ⊆ pending.parked.toList := fun id hid =>
    of_decide_eq_true (OrderedSet.mem_filter.1 hid).2
  exact (List.subperm_of_subset (OrderedSet.nodup_toList _) hsub).length_le

/-- The work on a batch ends, and its status tells what has become of every operation. -/
structure Settles (doc : Document) (bytes : Wire.Bytes) (queue : List Operation)
    (status : ReceiveStatus) : Prop where
  /-- The work ends with an empty queue, -/
  ends : ∃ after, Relation.ReflTransGen Intake.Turn (Intake.start doc, queue) (after, []) ∧
    (doc.receive bytes).document = after.document
  /-- without an error. -/
  result : (doc.receive bytes).result = .ok status
  /-- What came in, or was parked before, is applied, passed over, dropped or parked. -/
  balance : doc.pending.size + queue.length =
    status.applied + status.skipped + status.rejected + (doc.receive bytes).document.pending.size
  /-- The log has grown by what was applied. -/
  grown : (doc.receive bytes).document.log.operationCount =
    doc.log.operationCount + status.applied
  /-- Buffered are the operations that were parked on the way and still are, each once. -/
  buffered : status.buffered =
    ((doc.setAside queue).dedup.filter (doc.receive bytes).document.pending.contains).length
  /-- So there are not more of them than are parked. -/
  buffered_le : status.buffered ≤ (doc.receive bytes).document.pending.size
  /-- The version tells whether something was applied. -/
  version : (doc.receive bytes).document.version ≠ doc.version ↔ 0 < status.applied

/-- A reachable document works off every batch, and the status accounts for all that came in or was
parked.

No way through the queue goes on for ever. The turns are what operations off the queue meet, and
there are no more of them than there is work in the queue and the buffer at the start. -/
theorem Reachable.receive_settles (h : doc.Reachable) (hbatch : Batch.decode bytes = .ok batch) :
    Acc (fun after before => Intake.Turn before after) (Intake.start doc, batch.operations) ∧
      (∀ met op, (met, op) ∈ doc.turns batch.operations ↔ doc.Meets bytes met op) ∧
      (doc.turns batch.operations).length ≤
        Intake.work batch.operations.length doc.pending.load ∧
      ∃ status, doc.Settles bytes batch.operations status := by
  refine ⟨Intake.acc_turn _, fun met op => meets_iff hbatch, doc.length_turns_le _, ?_⟩
  obtain ⟨after, hturns, hdrain⟩ := Intake.exists_turns (Intake.start doc) batch.operations
  obtain ⟨hdocument, hresult, -⟩ := receive_result hbatch hdrain
  have haccounts := (Intake.start doc).accounts_drain batch.operations
  have hbalance := (Intake.start doc).drain_balance batch.operations h.lawful.pending
  have hadmits := h.lawful.admits_performed (Batch.decode_sound hbatch)
  rw [hdrain] at haccounts hbalance
  have happlied : after.status.applied = (doc.performed batch.operations).length :=
    haccounts.applied.trans (Nat.zero_add _)
  have hparked : ∀ id, id ∈ after.parked ↔ id ∈ doc.setAside batch.operations := fun id => by
    rw [haccounts.parked id]
    exact or_iff_right (OrderedSet.not_mem_empty id)
  have hlog : after.document.log = (doc.store.absorbAll (doc.performed batch.operations)).log :=
    congrArg Store.log haccounts.store
  refine ⟨_, ⟨after, hturns, hdocument⟩, hresult, ?_, ?_, ?_, ?_, ?_⟩
  · rw [hdocument]
    have hstart : (Intake.start doc).accounted = doc.pending.size := Nat.zero_add _
    rw [hstart] at hbalance
    exact hbalance.symm
  · rw [hdocument, hlog, Store.operationCount_absorbAll, happlied]
    rfl
  · rw [hdocument]
    exact buffered_eq hparked
  · rw [hdocument]
    exact buffered_le_size _ _
  · have hversion := hadmits.version_ne_iff
    rw [← hlog] at hversion
    rw [hdocument, happlied, List.length_pos_iff]
    exact hversion

/-- A letter. -/
def letter : Operation := ⟨⟨1, 0⟩, 0, [], .root "t" .text, 0, .insert none (.text "a")⟩

/-- A letter that goes behind it. -/
def nextLetter : Operation :=
  ⟨⟨2, 0⟩, 1, [⟨1, 0⟩], .root "t" .text, 0, .insert (some ⟨1, 0⟩) (.text "b")⟩

/-- A letter that goes behind one of peer 9. -/
def stray : Operation :=
  ⟨⟨3, 0⟩, 5, [⟨9, 0⟩], .root "t" .text, 0, .insert (some ⟨9, 0⟩) (.text "c")⟩

/-- The second letter came before the first one and is parked. -/
def early : Document :=
  ((new Config.standard 4).receive (Batch.mk .updates [nextLetter]).encode).document

/-- The first letter releases the second one, and the stray one is parked: of the three operations
that were parked or came in, two are applied and one is parked. -/
theorem receive_settles_early :
    let bytes := (Batch.mk .updates [letter, stray]).encode
    early.pending.size = 1 ∧
      ∃ status, early.Settles bytes [letter, stray] status ∧ status = ⟨2, 1, 0, 0⟩ := by
  intro bytes
  have hreachable : early.Reachable := .receive _ (.new Config.standard 4 (by decide))
  have hdecode : Batch.decode bytes = .ok ⟨.updates, [letter, stray]⟩ := by decide +kernel
  obtain ⟨-, -, -, status, hsettles⟩ := Reachable.receive_settles hreachable hdecode
  have hstatus : (early.receive bytes).result = .ok ⟨2, 1, 0, 0⟩ := by decide +kernel
  have hresult := hsettles.result
  rw [hstatus] at hresult
  exact ⟨by decide +kernel, status, hsettles, (Except.ok.inj hresult).symm⟩

end Document

end CausalDoc
