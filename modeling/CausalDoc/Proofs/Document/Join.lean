import CausalDoc.Document.Exchange
import CausalDoc.Proofs.Document.Corpus
import CausalDoc.Proofs.Document.Reachable
import CausalDoc.Proofs.Log.Delta

/- Taking over what another document has.

   Between documents that hold operations of one corpus, what one sends for the version of
   the other is what the other lacks (`Holds.mem_since`). It comes in the order of the
   stamps, so behind all it depends on, and every operation is ready when its turn comes
   (`Supplies.run`): none is parked, dropped or passed over (`Intake.drain_inTurn`). What
   the receiver then has is the union of the two (`Document.join`), and as containers are
   a function of the log, it does not matter who takes over from whom. -/

namespace CausalDoc

/-- The document keeps what every document keeps, and holds operations of the corpus only. -/
structure Holds (Written : Operation → Prop) (doc : Document) : Prop where
  lawful : doc.Lawful
  written : ∀ op, doc.log.Stored op → Written op

theorem Holds.mono {Written More : Operation → Prop} {doc : Document}
    (hmore : ∀ o, Written o → More o) (h : Holds Written doc) : Holds More doc :=
  ⟨h.lawful, fun o ho => hmore o (h.written o ho)⟩

namespace Document

/-- Takes operations one after the other. -/
def takeAll (doc : Document) (ops : List Operation) : Document := ops.foldl take doc

/-- Every operation is ready, and nothing of it known, when its turn comes. -/
def ReadyInTurn : Document → List Operation → Prop
  | _, [] => True
  | doc, op :: ops => doc.judge op = .ready op ∧ (doc.take op).ReadyInTurn ops

/-- What the document has once it took what `other` has and it lacks. -/
def join (doc other : Document) : Document := doc.takeAll (other.log.since doc.version)

theorem stored_takeAll {o : Operation} : ∀ {ops : List Operation} {doc : Document},
    (doc.takeAll ops).log.Stored o ↔ doc.log.Stored o ∨ o ∈ ops
  | [], doc => by simp [takeAll]
  | op :: ops, doc => by
    calc ((doc.take op).takeAll ops).log.Stored o
        ↔ (doc.take op).log.Stored o ∨ o ∈ ops := stored_takeAll
      _ ↔ (doc.log.Stored o ∨ o = op) ∨ o ∈ ops := or_congr_left Log.stored_push
      _ ↔ doc.log.Stored o ∨ o ∈ op :: ops := by rw [List.mem_cons, or_assoc]

end Document

/-! ## Operations in turn -/

/-- The queue brings a document operations of the corpus that it lacks, each once, in the order of
their stamps and with all they depend on. -/
structure Supplies (Written : Operation → Prop) (doc : Document) (queue : List Operation) :
    Prop where
  store : doc.store.Coherent
  known : ∀ o, doc.log.Stored o → Written o
  written : ∀ op ∈ queue, Written op
  lacking : ∀ op ∈ queue, ¬ doc.log.Stored op
  once : queue.Nodup
  sorted : queue.Pairwise fun a b => ¬ b.stamp < a.stamp
  closed : ∀ op ∈ queue, ∀ d ∈ op.dependencies,
    ∃ o, (doc.log.Stored o ∨ o ∈ queue) ∧ o.covers d = true

namespace Supplies

variable {Written : Operation → Prop} {doc : Document} {op : Operation} {queue : List Operation}
  (hc : Corpus Written)

include hc

theorem contains_dep (h : Supplies Written doc (op :: queue)) {d : AtomId}
    (hd : d ∈ op.dependencies) : doc.log.contains d = true := by
  have hop := h.written op List.mem_cons_self
  obtain ⟨o, hwhere, hcovers⟩ := h.closed op List.mem_cons_self d hd
  rcases hwhere with hstored | hqueued
  · exact h.store.log.contains_of_covers hstored hcovers
  · -- a dependency has the smaller stamp, so it is not queued behind
    exfalso
    obtain ⟨o', ho', hcovers', hlt⟩ := hc.deps hop d hd
    obtain rfl := hc.unique (h.written o hqueued) ho' hcovers hcovers'
    have hstamp : o.stamp < op.stamp := by
      apply Stamp.lt_of_lamport_lt
      show o.lamport < op.lamport
      omega
    rcases List.mem_cons.1 hqueued with rfl | hbehind
    · exact Stamp.lt_irrefl _ hstamp
    · exact (List.pairwise_cons.1 h.sorted).1 o hbehind hstamp

theorem ready (h : Supplies Written doc (op :: queue)) :
    doc.judge op = .ready op ∧ doc.store.Admits op := by
  have hop := h.written op List.mem_cons_self
  have hstop := (hc.sound hop).stop_pos
  have hwhole : op.suffix 0 = op := Operation.suffix_of_le (Nat.zero_le _)
  have hmissing : doc.missing? (op.suffix 0) = none := by
    rw [hwhole]
    exact Document.missing?_eq_none_iff.2 fun d hd => h.contains_dep hc hd
  obtain ⟨-, hready, hadmits⟩ := hc.judge_ready h.store h.known hop hstop
    (h.lacking op List.mem_cons_self) hmissing
  rw [hwhole] at hready
  exact ⟨hready, hadmits⟩

theorem take (h : Supplies Written doc (op :: queue)) : Supplies Written (doc.take op) queue := by
  obtain ⟨hfirst, honce⟩ := List.nodup_cons.1 h.once
  have hop := h.written op List.mem_cons_self
  refine ⟨h.store.absorb (h.ready hc).2, ?_, ?_, ?_, honce, (List.pairwise_cons.1 h.sorted).2, ?_⟩
  · intro o ho
    rcases Log.stored_push.1 ho with ho | rfl
    · exact h.known o ho
    · exact hop
  · exact fun o ho => h.written o (List.mem_cons_of_mem _ ho)
  · intro o ho hstored
    rcases Log.stored_push.1 hstored with hstored | rfl
    · exact h.lacking o (List.mem_cons_of_mem _ ho) hstored
    · exact hfirst ho
  · intro o ho d hd
    obtain ⟨o', hwhere, hcovers⟩ := h.closed o (List.mem_cons_of_mem _ ho) d hd
    refine ⟨o', ?_, hcovers⟩
    rcases hwhere with hstored | hqueued
    · exact .inl (Log.stored_push.2 (.inl hstored))
    · rcases List.mem_cons.1 hqueued with rfl | hqueued
      · exact .inl (Log.stored_push.2 (.inr rfl))
      · exact .inr hqueued

/-- All are ready in turn, and the store takes them. -/
theorem run : ∀ {queue : List Operation} {doc : Document}, Supplies Written doc queue →
    doc.ReadyInTurn queue ∧ doc.store.Advances (doc.takeAll queue).store
  | [], _, _ => ⟨trivial, .refl⟩
  | op :: queue, doc, h => by
    obtain ⟨hready, hadmits⟩ := h.ready hc
    obtain ⟨hrest, hadvances⟩ := run (h.take hc)
    exact ⟨⟨hready, hrest⟩, .head ⟨op, hadmits, rfl⟩ hadvances⟩

end Supplies

/-- Operations that are ready in turn are taken one after the other, before anything else. What
they release joins the queue behind the rest. -/
theorem Intake.drain_inTurn : ∀ {ops : List Operation} {intake : Intake} (rest : List Operation),
    intake.document.ReadyInTurn ops →
    ∃ (later : Intake) (released : List Operation),
      intake.drain (ops ++ rest) = later.drain (rest ++ released) ∧
      later.document = intake.document.takeAll ops ∧
      later.status = { intake.status with applied := intake.status.applied + ops.length } ∧
      later.parked = intake.parked ∧
      intake.document.pending.operations.Perm (released ++ later.document.pending.operations)
  | [], intake, rest, _ => ⟨intake, [], by rw [List.append_nil]; rfl, rfl, rfl, rfl, .refl _⟩
  | op :: ops, intake, rest, h => by
    obtain ⟨hready, hrest⟩ := h
    have hfirst := Pending.operations_takeReady intake.document.pending op.id.peer op.stop
    obtain ⟨ready, hreleased⟩ : ∃ ready,
        ready = (intake.document.pending.takeReady op.id.peer op.stop).1 := ⟨_, rfl⟩
    rw [← hreleased] at hfirst
    obtain ⟨later, released, hdrain, hdocument, hstatus, hparked, hperm⟩ :=
      @drain_inTurn ops (intake.accept op) (rest ++ ready) hrest
    refine ⟨later, ready ++ released, ?_, hdocument, ?_, hparked, ?_⟩
    · rw [List.cons_append, drain_ready hready, ← hreleased, List.append_assoc, hdrain,
        List.append_assoc]
    · rw [hstatus, List.length_cons, Nat.add_comm ops.length 1, ← Nat.add_assoc]
      rfl
    · rw [List.append_assoc]
      exact hfirst.trans (hperm.append_left ready)

/-! ## The union of two logs -/

section Join

variable {Written : Operation → Prop} {doc other : Document} {op : Operation}
  (hc : Corpus Written) (h : Holds Written doc) (h' : Holds Written other)

include hc h h'

namespace Holds

/-- What is sent for the version of a document is what the document lacks. -/
theorem mem_since :
    op ∈ other.log.since doc.version ↔ other.log.Stored op ∧ ¬ doc.log.Stored op := by
  -- a document that lacks an operation has none of its atoms
  have hbehind : ∀ {o : Operation}, other.log.Stored o →
      (¬ doc.log.Stored o ↔ doc.version.nextCounter o.id.peer < o.stop) ∧
        (¬ doc.log.Stored o → o.suffix (doc.version.nextCounter o.id.peer) = o) := by
    intro o ho
    have hwritten := h'.written o ho
    have hpos := (hc.sound hwritten).length_pos
    have hstop := (hc.sound hwritten).stop_pos
    have hknown := hc.known_iff h.lawful.store h.written hwritten hstop
    rw [Operation.suffix_stop hstop] at hknown
    refine ⟨by rw [← hknown, Nat.not_le], fun hnot => Operation.suffix_of_le ?_⟩
    apply Nat.le_of_not_lt
    intro hlt
    apply hnot
    apply hc.stored_of_contains h.lawful.store h.written hwritten (Operation.covers_id hpos)
    rw [Log.contains, VersionVector.includes_iff]
    exact hlt
  rw [h'.lawful.log.mem_since]
  refine ⟨?_, ?_⟩
  · intro hgiven
    obtain ⟨o, ho, hlt, rfl⟩ := hgiven
    have hnot := (hbehind ho).1.2 hlt
    rw [(hbehind ho).2 hnot]
    exact ⟨ho, hnot⟩
  · intro hgiven
    obtain ⟨hop, hnot⟩ := hgiven
    exact ⟨op, hop, (hbehind hop).1.1 hnot, ((hbehind hop).2 hnot).symm⟩

theorem supplies : Supplies Written doc (other.log.since doc.version) where
  store := h.lawful.store
  known := h.written
  written := fun op hop => h'.written op ((h.mem_since hc h').1 hop).1
  lacking := fun op hop => ((h.mem_since hc h').1 hop).2
  once := h'.lawful.log.nodup_since _
  sorted := other.log.pairwise_since _
  closed := by
    intro op hop d hd
    have hdep := h'.lawful.log.contains_dep ((h.mem_since hc h').1 hop).1 hd
    obtain ⟨o, ho, hcovers⟩ := h'.lawful.log.contains_iff_covers.1 hdep
    refine ⟨o, ?_, hcovers⟩
    by_cases hstored : doc.log.Stored o
    · exact .inl hstored
    · exact .inr ((h.mem_since hc h').2 ⟨ho, hstored⟩)

theorem stored_join : (doc.join other).log.Stored op ↔ doc.log.Stored op ∨ other.log.Stored op := by
  rw [Document.join, Document.stored_takeAll, h.mem_since hc h']
  by_cases hstored : doc.log.Stored op <;> simp [hstored]

theorem advances_join : doc.store.Advances (doc.join other).store :=
  ((h.supplies hc h').run hc).2

/-- It does not matter who takes over from whom. -/
theorem join_comm (ha : Anchored Written) : (doc.join other).store = (other.join doc).store := by
  have hadvances := h.lawful.advances.trans (h.advances_join hc h')
  refine hc.store_ext (Store.coherent_empty.advances hadvances) ?_ ha hadvances
    (h'.lawful.advances.trans (h'.advances_join hc h)) ?_
  · intro o ho
    rcases (h.stored_join hc h').1 ho with ho | ho
    · exact h.written o ho
    · exact h'.written o ho
  · intro o
    show (doc.join other).log.Stored o ↔ (other.join doc).log.Stored o
    rw [h.stored_join hc h', h'.stored_join hc h, or_comm]

end Holds

end Join

end CausalDoc
