import CausalDoc.Proofs.Document.Drain
import CausalDoc.Proofs.Document.Edit
import CausalDoc.Proofs.Log.Delta
import CausalDoc.Proofs.Wire.Batch

/- What every document keeps, whatever bytes it receives.

   A document is reachable when it starts empty, takes edits and arbitrary byte strings, and
   lets subscribers in and out (`Document.Reachable`). Its store then only ever takes
   operations that it admits, and what it stores and parks is sound and can be written
   (`Document.Lawful`). So the log is causally closed and Lamport times grow along
   causality (`Reachable.log_causal`). -/

namespace CausalDoc

namespace Document

/-- Documents reached from an empty one by edits and received bytes, whoever listens. -/
inductive Reachable : Document → Prop where
  | new (config : Config) (freshPeer : Nat) :
      (Document.new config freshPeer).peer < 0x10000000000000000 →
      Reachable (Document.new config freshPeer)
  | edit {doc : Document} (container : ContainerId) (edit : Edit) (wallTime : Nat) :
      Reachable doc → edit.Writable → wallTime < 0x10000000000000000 →
      Reachable (doc.edit container edit wallTime).document
  | receive {doc : Document} (bytes : Wire.Bytes) :
      Reachable doc → Reachable (doc.receive bytes).document
  | subscribe {doc : Document} : Reachable doc → Reachable doc.subscribe.document
  | unsubscribe {doc : Document} (number : Nat) :
      Reachable doc → Reachable (doc.unsubscribe number).document

/-- What every reachable document keeps. -/
structure Lawful (doc : Document) : Prop where
  peer : doc.peer < 0x10000000000000000
  /-- The store took its operations one by one. -/
  advances : Store.empty.Advances doc.store
  stored : ∀ op, doc.log.Stored op → op.Writable
  pending : doc.pending.Tidy
  parked : ∀ op ∈ doc.pending.operations, op.Sound ∧ op.Writable

variable {doc : Document} {op : Operation}

namespace Lawful

theorem store (h : doc.Lawful) : doc.store.Coherent :=
  Store.coherent_empty.advances h.advances

theorem log (h : doc.Lawful) : doc.log.Coherent := h.store.log

theorem new (config : Config) (freshPeer : Nat)
    (hpeer : (Document.new config freshPeer).peer < 0x10000000000000000) :
    (Document.new config freshPeer).Lawful where
  peer := hpeer
  advances := .refl
  stored := fun op h => by cases h
  pending := Pending.tidy_empty
  parked := fun op h => by cases h

theorem writable_of_contains (h : doc.Lawful) {a : AtomId} (ha : doc.log.contains a = true) :
    a.Writable := by
  obtain ⟨op, hop, hcovers⟩ := h.log.contains_iff_covers.1 ha
  exact (h.log.sound hop).writable_of_covers (h.stored op hop).id.1 hcovers

/-! ## Edits -/

theorem writable_action {edit : Edit} {state : ContainerState} {action : Action}
    (hedit : edit.Writable) (hmakes : edit.Makes state action)
    (hholds : ∀ a, state.holds a = true → a.Writable) : action.Writable := by
  cases hmakes with
  | insertValues _ _ =>
    exact ⟨fun a ha => hholds a (ContainerState.holds_of_anchorFor ha), hedit⟩
  | insertText _ _ =>
    exact ⟨fun a ha => hholds a (ContainerState.holds_of_anchorFor ha), trivial⟩
  | insertContainer _ => exact fun a ha => hholds a (ContainerState.holds_of_anchorFor ha)
  | deleteRange _ _ => exact fun a ha => hholds a (ContainerState.holds_of_mem_idsInRange ha)
  | setField =>
    intro v heq
    subst heq
    exact hedit
  | setContainer => trivial

theorem timestamp_lt (h : doc.Lawful) : doc.log.clock.latestTimestamp < 0x10000000000000000 := by
  rcases h.log.timestamp.2 with hzero | ⟨op, hop, heq⟩
  · omega
  · have := (h.stored op hop).timestamp
    omega

/-- A new operation can be written. -/
theorem writable_draft (h : doc.Lawful) {container : ContainerId} {edit : Edit} {action : Action}
    {wallTime : Nat} (hedit : edit.Writable) (hwall : wallTime < 0x10000000000000000)
    (haction : edit.action? (doc.stateAt container) = .ok (some action))
    (ha : doc.store.Admits (doc.draft container action wallTime)) :
    (doc.draft container action wallTime).Writable := by
  have hsound := ha.log.sound
  have hlamport := hsound.lamport_lt
  refine ⟨?_, by omega, ?_, ?_, ?_, ?_⟩
  · exact hsound.writable_of_covers h.peer (Operation.covers_id hsound.length_pos)
  · intro d hd
    exact h.writable_of_contains (h.log.contains_of_frontier hd)
  · cases container with
    | root name kind => trivial
    | created creator kind =>
      have hcreator : doc.log.contains creator = true := by
        apply ha.log.contains_dep h.log
        exact Operation.mem_dependencies.2 (.inr (.inr rfl))
      exact h.writable_of_contains hcreator
  · have := h.timestamp_lt
    unfold draft Clock.now
    dsimp only
    split <;> omega
  · apply writable_action hedit (Edit.makes_of_action? haction)
    intro a hholds
    exact h.writable_of_contains ((h.store.stateOf container).2.2 a hholds)

theorem write (h : doc.Lawful) (ha : doc.store.Admits op) (hw : op.Writable) :
    (doc.write op).Lawful where
  peer := h.peer
  advances := .tail h.advances ⟨op, ha, rfl⟩
  stored := by
    intro o ho
    rcases Log.stored_push.1 ho with ho | rfl
    · exact h.stored o ho
    · exact hw
  pending := h.pending
  parked := h.parked

theorem edit (h : doc.Lawful) (container : ContainerId) {edit : Edit} {wallTime : Nat}
    (hedit : edit.Writable) (hwall : wallTime < 0x10000000000000000) :
    (doc.edit container edit wallTime).document.Lawful := by
  rcases edit_cases h.store container edit wallTime with
    hsame | ⟨action, haction, ha, -, hafter⟩
  · rw [hsame]
    exact h
  · rw [hafter]
    exact h.write ha (h.writable_draft hedit hwall haction ha)

/-! ## Received bytes -/

theorem hold (h : doc.Lawful) (m : AtomId) (hsound : op.Sound) (hw : op.Writable) :
    (doc.hold m op).Lawful := by
  rcases doc.hold_cases m op with ⟨-, hsame⟩ | ⟨pending, hpush, hafter⟩
  · rw [hsame]
    exact h
  · rw [hafter]
    refine ⟨h.peer, h.advances, h.stored, h.pending.push? hpush, ?_⟩
    intro o ho
    rcases List.mem_cons.1 ((Pending.operations_push? hpush).mem_iff.1 ho) with rfl | ho
    · exact ⟨hsound, hw⟩
    · exact h.parked o ho

theorem take (h : doc.Lawful) (ha : doc.store.Admits op) (hw : op.Writable) :
    (doc.take op).Lawful ∧
      ∀ o ∈ (doc.pending.takeReady op.id.peer op.stop).1, o.Sound ∧ o.Writable := by
  have hperm := Pending.operations_takeReady doc.pending op.id.peer op.stop
  refine ⟨⟨h.peer, (h.write ha hw).advances, (h.write ha hw).stored, h.pending.takeReady _ _, ?_⟩,
    ?_⟩
  · intro o ho
    exact h.parked o (hperm.mem_iff.2 (List.mem_append_right _ ho))
  · intro o ho
    exact h.parked o (hperm.mem_iff.2 (List.mem_append_left _ ho))

theorem newPart (hsound : op.Sound) (hw : op.Writable)
    (hnew : doc.version.nextCounter op.id.peer < op.stop) :
    (doc.newPart op).Sound ∧ (doc.newPart op).Writable := by
  unfold Document.newPart
  split
  · exact ⟨hsound.suffix hnew, hw.suffix hsound hnew⟩
  · exact ⟨hsound, hw⟩

/-- An operation off the queue leaves the document lawful. -/
theorem advance (h : doc.Lawful) (hsound : op.Sound) (hw : op.Writable) :
    (doc.advance op).1.Lawful ∧ ∀ o ∈ (doc.advance op).2, o.Sound ∧ o.Writable := by
  by_cases hnew : doc.version.nextCounter op.id.peer < op.stop
  · obtain ⟨hpartSound, hpart⟩ := newPart hsound hw hnew
    unfold Document.advance
    cases hjudge : doc.judge op with
    | known => exact ⟨h, by simp⟩
    | stale d part => exact ⟨h, by simp⟩
    | ready part =>
      have ha := admits_of_ready h.log hsound hjudge
      obtain ⟨-, rfl, -⟩ := judge_eq_ready hjudge
      exact h.take ha hpart
    | waiting m part =>
      obtain ⟨rfl, -⟩ := judge_eq_waiting hjudge
      exact ⟨h.hold m hpartSound hpart, by simp⟩
    | orphan part =>
      obtain ⟨rfl, -⟩ := judge_eq_orphan hjudge
      exact ⟨h.hold _ hpartSound hpart, by simp⟩
  · unfold Document.advance
    rw [judge_of_le (Nat.not_lt.1 hnew)]
    exact ⟨h, by simp⟩

/-- What an operation off the queue of a lawful document keeps holds after a batch. -/
theorem receive_induction {P : Document → Prop} (h : doc.Lawful) (bytes : Wire.Bytes)
    (hstep : ∀ {d : Document} {op : Operation}, d.Lawful → op.Sound → P d → P (d.advance op).1)
    (hdoc : P doc) : (doc.receive bytes).document.Lawful ∧ P (doc.receive bytes).document := by
  have hafter := receive_invariant
    (P := fun d queue => (d.Lawful ∧ P d) ∧ ∀ op ∈ queue, op.Sound ∧ op.Writable)
    doc bytes ?_ (fun _ _ => ⟨⟨h, hdoc⟩, by simp⟩)
    fun batch hbatch => ⟨⟨h, hdoc⟩, Batch.decode_sound hbatch⟩
  · exact hafter.1
  · intro d op queue hgiven
    obtain ⟨⟨hd, hkept⟩, hqueue⟩ := hgiven
    obtain ⟨hsound, hw⟩ := hqueue op List.mem_cons_self
    obtain ⟨hd', hreleased⟩ := hd.advance hsound hw
    refine ⟨⟨hd', hstep hd hsound hkept⟩, fun o ho => ?_⟩
    rcases List.mem_append.1 ho with ho | ho
    · exact hqueue o (List.mem_cons_of_mem _ ho)
    · exact hreleased o ho

theorem receive (h : doc.Lawful) (bytes : Wire.Bytes) : (doc.receive bytes).document.Lawful :=
  (h.receive_induction (P := fun _ => True) bytes (fun _ _ _ => trivial) trivial).1

/-! ## Sent bytes -/

/-- What a version is sent is sound and can be written. -/
theorem cut_since (h : doc.Lawful) (version : VersionVector) :
    ∀ op ∈ doc.log.since version, op.Sound ∧ op.Writable := by
  intro op hop
  obtain ⟨o, ho, hlt, rfl⟩ := h.log.mem_since.1 hop
  exact ⟨(h.log.sound ho).suffix hlt, (h.stored o ho).suffix (h.log.sound ho) hlt⟩

/-- What a document sends is read as it was sent. -/
theorem decode_since (h : doc.Lawful) (kind : BatchKind) (version : VersionVector)
    (hsize : (Batch.mk kind (doc.log.since version)).encode.length < 0x10000000000000000) :
    Batch.decode (Batch.mk kind (doc.log.since version)).encode =
      .ok ⟨kind, doc.log.since version⟩ :=
  Batch.decode_encode (fun op hop => (h.cut_since version op hop).1)
    (fun op hop => (h.cut_since version op hop).2) hsize

end Lawful

theorem Reachable.lawful (h : doc.Reachable) : doc.Lawful := by
  induction h with
  | new config freshPeer hpeer => exact Lawful.new config freshPeer hpeer
  | edit container edit wallTime _ hedit hwall ih => exact ih.edit container hedit hwall
  | receive bytes _ ih => exact ih.receive bytes
  | subscribe _ ih | unsubscribe number _ ih =>
    exact ⟨ih.peer, ih.advances, ih.stored, ih.pending, ih.parked⟩

/-! ## The log of a reachable document -/

/-- The log of a reachable document is gapless and causally closed, and stamps are a linear
extension of causality.

Its histories are contiguous from counter 0 and hold exactly the atoms of the version; what an
operation depends on is stored with a smaller Lamport time; no two atoms share a stamp; what
happens before has the smaller stamp; and the clock is one above the largest stored Lamport time,
with the largest stored timestamp. -/
theorem Reachable.log_causal (h : doc.Reachable) :
    (∀ peer, (∀ op ∈ doc.log.history peer, op.id.peer = peer) ∧
      Contiguous 0 (doc.log.history peer) ∧
      doc.version.nextCounter peer = endOf 0 (doc.log.history peer)) ∧
    (∀ a, doc.version.includes a = true ↔ ∃ op, doc.log.Stored op ∧ op.covers a = true) ∧
    (∀ op, doc.log.Stored op → ∀ d ∈ op.dependencies, doc.log.contains d = true ∧
      ∃ l, doc.log.lamport? d = some l ∧ l < op.lamport) ∧
    (∀ a b l, a.peer = b.peer → doc.log.lamport? a = some l → doc.log.lamport? b = some l →
      a = b) ∧
    (∀ a b, doc.log.HappensBefore a b → ∃ k l, doc.log.lamport? a = some k ∧
      doc.log.lamport? b = some l ∧ (⟨k, a.peer⟩ : Stamp) < ⟨l, b.peer⟩) ∧
    (∀ a l, doc.log.lamport? a = some l → l < doc.log.clock.nextLamport) ∧
    (doc.log.clock.nextLamport = 0 ∧ (∀ op, ¬ doc.log.Stored op) ∨
      ∃ a l, doc.log.lamport? a = some l ∧ doc.log.clock.nextLamport = l + 1) ∧
    doc.log.Largest Operation.timestamp doc.log.clock.latestTimestamp := by
  have hlog := h.lawful.log
  refine ⟨fun peer => ⟨fun op hop => hlog.own hop, hlog.contiguous peer, hlog.next peer⟩, ?_, ?_,
    fun a b l hpeer ha hb => hlog.eq_of_lamport? hpeer ha hb, ?_,
    fun a l ha => hlog.lamport?_lt_next ha, ?_, hlog.timestamp⟩
  · intro a
    show doc.log.contains a = true ↔ _
    rw [hlog.contains_iff]
    exact exists_congr fun op => hlog.get?_eq_some_iff
  · intro op hop d hd
    exact ⟨hlog.contains_dep hop hd, hlog.deps hop d hd⟩
  · intro a b hab
    obtain ⟨k, l, hk, hl, hlt⟩ := hab.lamport_lt hlog
    exact ⟨k, l, hk, hl, Stamp.lt_of_lamport_lt hlt⟩
  · rcases hlog.lamport.2 with hzero | ⟨op, hop, heq⟩
    · left
      refine ⟨hzero, fun op hop => ?_⟩
      have hlt := hlog.lamport?_lt_next (hlog.lamport?_id hop)
      rw [hzero] at hlt
      exact Nat.not_lt_zero _ hlt
    · -- the last atom of the operation that reaches furthest
      right
      have hpos := (hlog.sound hop).length_pos
      have hget := hlog.get?_eq_some_iff.2 ⟨hop, Operation.covers_lastId hpos⟩
      refine ⟨op.lastId, _, Log.lamport?_eq_some_iff.2 ⟨op, hget, rfl⟩, ?_⟩
      rw [← heq, Operation.lastId, AtomId.forward_counter]
      dsimp only
      omega

/-- A text of two characters takes the Lamport times 0 and 1. -/
theorem log_causal_typed :
    let doc := ((new Config.standard 1).edit (.root "t" .text) (.insertText 0 "ab") 5).document
    doc.log.clock.nextLamport = 2 ∧ doc.log.lamport? ⟨1, 1⟩ = some 1 ∧
      doc.log.Largest Operation.timestamp doc.log.clock.latestTimestamp := by
  intro doc
  have h : doc.Reachable := .edit _ _ _ (.new Config.standard 1 (by decide)) trivial (by decide)
  exact ⟨by decide, by decide, (Reachable.log_causal h).2.2.2.2.2.2.2⟩

end Document

end CausalDoc
