import CausalDoc.Proofs.Network.Aimed
import CausalDoc.Proofs.Network.Convergence
import CausalDoc.Proofs.Store.Order

/- On an honest run operations find what they refer to.

   Before an operation is applied its listed dependencies, its predecessor and the creation
   of its container are looked for, and nothing else is. Still its anchor and what it deletes
   are there. An edit refers to elements that its replica held, and lists frontiers that the
   whole log of that replica lies below; so what it refers to is in its causal past, and a
   log that has the dependencies has all of that past (`Holds.holds_named`). A batch is
   followed turn by turn: what comes off the queue is known, or misses an atom, or takes full
   effect, so nothing is rejected and nothing orphaned (`Smooth.turn`). -/

namespace CausalDoc

/-- The document applies the operation with full effect. -/
structure Document.TakesFully (doc : Document) (op : Operation) : Prop where
  /-- The container can be used. -/
  resolvable : doc.registry.isResolvable op.container = true
  applies : (doc.stateAt op.container).canApply op = true
  /-- What the operation is anchored to stands in the container. -/
  anchor : ∀ a, op.anchor? = some a → (doc.stateAt op.container).holds a = true
  /-- What it deletes stands there. -/
  targets : ∀ a ∈ op.targets, (doc.stateAt op.container).holds a = true
  /-- It is logged and its container changes by it, without a warning. -/
  performed : ∃ after, doc.perform op = (after, .ok []) ∧ after.log = doc.log.push op ∧
    after.stateAt op.container = (doc.stateAt op.container).apply op

section Holds

variable {Written : Operation → Prop} {doc : Document} {op : Operation} (hc : Corpus Written)
  (ha : Anchored Written) (haimed : Aimed Written) (h : Holds Written doc) (hop : Written op)

include hc ha haimed h hop

/-- With the dependencies of an operation, a document holds all that the operation refers to. -/
theorem Holds.holds_named (hdeps : ∀ d ∈ op.dependencies, doc.log.contains d = true) :
    ∀ a ∈ op.named, (doc.stateAt op.container).holds a = true := by
  intro a hnamed
  have hstore := h.lawful.store
  have hthere : doc.log.contains a = true :=
    hc.contains_of_pastIn_id hstore h.written hop hdeps (ha op hop a hnamed)
  obtain ⟨o, ho, hid, hinserts, hcovers⟩ := haimed op hop a hnamed
  have hstored : doc.log.Stored o := hc.stored_of_contains hstore h.written ho hcovers hthere
  exact (h.shows hc ha op.container).holds_insertion hstore.log
    (hc.grounded hstore h.written ha) (hc.aimed hstore h.written ha haimed) hstored hid hinserts
    hcovers

theorem Holds.takesFully (hadmits : doc.store.Admits op) : doc.TakesFully op := by
  have hstore := h.lawful.store
  have hnamed := h.holds_named hc ha haimed hop fun d hd =>
    hadmits.log.contains_dep hstore.log hd
  have hanchor : ∀ a, op.anchor? = some a → (doc.stateAt op.container).holds a = true := by
    intro a hanchor
    apply hnamed
    simp [Operation.named, hanchor]
  have happlies : (doc.stateAt op.container).canApply op = true :=
    ContainerState.canApply_of_holds (hstore.fits hadmits) hanchor
  have hperform : doc.perform op = (doc.write op, .ok []) := by
    rw [Document.perform_eq hadmits.resolvable hadmits.log.next]
    exact congrArg (fun warnings => (doc.write op, Except.ok warnings)) (if_pos happlies)
  have hstate : (doc.write op).stateAt op.container = (doc.stateAt op.container).apply op := by
    show (doc.registry.absorb op).stateOf op.container = _
    rw [Registry.stateOf_absorb (hadmits.created?_ne hstore.log), if_pos rfl]
    exact if_pos happlies
  refine ⟨hadmits.resolvable, happlies, hanchor, fun a hin => ?_, _, hperform, rfl, hstate⟩
  apply hnamed
  simp [Operation.named, hin]

end Holds

/-! ## A batch, turn by turn -/

section Turns

variable {Written : Operation → Prop} {seen queue : List Operation} {op : Operation}
  (hc : Corpus Written) (ha : Anchored Written) (haimed : Aimed Written)

include hc ha haimed

/-- An operation that comes off the queue is known, or misses an atom, or takes full effect. -/
theorem Delivers.effect_cases {doc : Document} (h : Delivers Written seen doc (op :: queue)) :
    doc.judge op = .known ∨ (∃ m, doc.judge op = .waiting m op) ∨
      doc.judge op = .ready op ∧ doc.TakesFully op := by
  rcases h.judge_cases hc with ⟨-, hknown⟩ | ⟨m, -, hwaiting⟩ | ⟨hop, hready, hadmits⟩
  · exact .inl hknown
  · exact .inr (.inl ⟨m, hwaiting⟩)
  · have hholds : Holds Written doc := ⟨h.lawful, h.written⟩
    exact .inr (.inr ⟨hready, hholds.takesFully hc ha haimed hop hadmits⟩)

/-- The batch is accounted for so far, nothing was rejected, and nothing gave reason to warn. -/
structure Smooth (Written : Operation → Prop) (seen : List Operation) (intake : Intake)
    (queue : List Operation) : Prop where
  account : Delivers Written seen intake.document queue
  rejected : intake.status.rejected = 0
  warnings : intake.warnings = []

theorem Smooth.turn {intake : Intake} (hwritable : ∀ o, Written o → o.Writable)
    (h : Smooth Written seen intake (op :: queue)) :
    Smooth Written seen (intake.advance op) (queue ++ (intake.document.advance op).2) := by
  have haccount := h.account.advance hc hwritable
  rw [← Intake.advance_document] at haccount
  suffices hstatus : (intake.advance op).status.rejected = 0 ∧ (intake.advance op).warnings = [] from
    ⟨haccount, hstatus.1, hstatus.2⟩
  unfold Intake.advance
  rcases h.account.effect_cases hc ha haimed with hjudge | ⟨m, hjudge⟩ | ⟨hjudge, htakes⟩
  · rw [hjudge]
    exact ⟨h.rejected, h.warnings⟩
  · rw [hjudge]
    show (intake.park m op).status.rejected = 0 ∧ (intake.park m op).warnings = []
    unfold Intake.park
    split <;> exact ⟨h.rejected, h.warnings⟩
  · rw [hjudge]
    have happlies : (intake.document.registry.stateOf op.container).canApply op = true :=
      htakes.applies
    refine ⟨h.rejected, ?_⟩
    simp [Intake.accept, Intake.release, happlies, h.warnings]

end Turns

namespace Network

variable {net : Network} {doc : Document} {bytes : Wire.Bytes}

/-- In some next step of the run the document receives the bytes: a batch that was sent, what a
merge takes over, or what a fork starts with. -/
inductive Imports (net : Network) : Document → Wire.Bytes → Prop where
  | receive {peer : Nat} {replica : Replica} {bytes : Wire.Bytes} :
      net.replicas peer = some replica → bytes ∈ net.sent →
      Imports net replica.document bytes
  | merge {peer otherPeer : Nat} {replica other : Replica} :
      net.replicas peer = some replica → net.replicas otherPeer = some other →
      (other.batchFor (some replica.document.version)).encode.length < 0x10000000000000000 →
      Imports net replica.document (other.batchFor (some replica.document.version)).encode
  | fork {peer : Nat} {replica : Replica} (freshPeer : Nat) :
      net.replicas peer = some replica → freshPeer < 0x10000000000000000 →
      (replica.batchFor none).encode.length < 0x10000000000000000 →
      Imports net (Document.new { replica.document.config with peer := none } freshPeer)
        (replica.batchFor none).encode

/-- A document that receives bytes on an honest run accounts for what it has seen, and the bytes
carry written operations and suffixes of them. -/
theorem Faithful.imports (h : net.Faithful) (himport : net.Imports doc bytes) :
    (∃ seen, Delivers net.Written seen doc []) ∧
      ∀ op ∈ Batch.carried bytes, SuffixIn net.Written op := by
  cases himport with
  | receive hreplica hbytes => exact ⟨⟨_, h.accounts hreplica⟩, h.sent _ hbytes⟩
  | merge hreplica hother hsize =>
    exact ⟨⟨_, h.accounts hreplica⟩, h.carried_batchFor hother _ hsize⟩
  | fork freshPeer hreplica hpeer hsize =>
    exact ⟨⟨_, delivers_new _ freshPeer hpeer⟩, h.carried_batchFor hreplica none hsize⟩

theorem Honest.decode_sent (h : net.Honest) :
    ∀ bytes ∈ net.sent, ∃ batch, Batch.decode bytes = .ok batch := by
  induction h with
  | refl => exact fun _ hbytes => absurd hbytes List.not_mem_nil
  | @tail before after hbefore hstep ih =>
    cases hstep with
    | send version hreplica hsize =>
      intro bytes hbytes
      rcases List.mem_cons.1 hbytes with rfl | hbytes
      · exact ⟨_, (Honest.faithful hbefore).decode_batchFor hreplica version hsize⟩
      · exact ih bytes hbytes
    | join | edit | receive | merge | fork => exact ih

theorem Honest.decode_imports (h : net.Honest) (himport : net.Imports doc bytes) :
    ∃ batch, Batch.decode bytes = .ok batch := by
  cases himport with
  | receive _ hbytes => exact h.decode_sent _ hbytes
  | merge _ hother hsize => exact ⟨_, h.faithful.decode_batchFor hother _ hsize⟩
  | fork _ hreplica _ hsize => exact ⟨_, h.faithful.decode_batchFor hreplica none hsize⟩

/-- The batch goes smoothly from its first turn to its last. -/
theorem Honest.smooth (h : net.Honest) (himport : net.Imports doc bytes) {batch : Batch}
    (hdecode : Batch.decode bytes = .ok batch) : ∃ seen, ∀ intake queue,
      Relation.ReflTransGen Intake.Turn (Intake.start doc, batch.operations) (intake, queue) →
        Smooth net.Written seen intake queue := by
  have hfaithful := h.faithful
  obtain ⟨⟨seen, haccount⟩, hbytes⟩ := hfaithful.imports himport
  rw [Batch.carried, hdecode] at hbytes
  have hstart : Smooth net.Written (seen ++ batch.operations) (Intake.start doc)
      batch.operations := ⟨haccount.enqueue hbytes, rfl, rfl⟩
  refine ⟨seen ++ batch.operations, fun intake queue hturns => ?_⟩
  exact Intake.turns_invariant
    (P := fun i q => Smooth net.Written (seen ++ batch.operations) i q)
    (fun i op q hi => hi.turn hfaithful.corpus hfaithful.anchored h.aimed
      fun _ ho => hfaithful.writable ho) hturns hstart

/-- On an honest run every operation finds what it refers to.

When an operation that is not known comes off the queue of a batch and the log has all that it
depends on, it is ready and takes full effect: its container can be used, its anchor and all that
it deletes stand there, and it is applied without a warning. No operation is ever stale or without
a container. So nothing of a batch is rejected, and the only warning there may be is that many
operations are parked. -/
theorem Honest.takes_effect (h : net.Honest) (himport : net.Imports doc bytes) :
    (∀ met op, doc.Meets bytes met op → met.version.nextCounter op.id.peer < op.stop →
      (∀ d ∈ (met.newPart op).dependencies, met.log.contains d = true) →
        met.judge op = .ready (met.newPart op) ∧ met.TakesFully (met.newPart op)) ∧
    (∀ met op, doc.Meets bytes met op →
      (∀ dependency part, met.judge op ≠ .stale dependency part) ∧
        ∀ part, met.judge op ≠ .orphan part) ∧
    ∃ status, (doc.receive bytes).result = .ok status ∧ status.rejected = 0 ∧
      ∀ warning ∈ (doc.receive bytes).warnings,
        ∃ pending threshold, warning = .pendingGrew pending threshold := by
  have hc := h.faithful.corpus
  have ha := h.faithful.anchored
  -- each operation is met in a document that still accounts for what it has seen
  have hmet : ∀ {met op}, doc.Meets bytes met op → ∃ seen queue,
      Delivers net.Written seen met (op :: queue) := by
    intro met op hmeets
    obtain ⟨batch, intake, queue, hdecode, hturns, rfl⟩ := hmeets
    obtain ⟨seen, hsmooth⟩ := h.smooth himport hdecode
    exact ⟨seen, queue, (hsmooth intake _ hturns).account⟩
  refine ⟨fun met op hmeets hnew hdeps => ?_, fun met op hmeets => ?_, ?_⟩
  · obtain ⟨seen, queue, haccount⟩ := hmet hmeets
    rcases haccount.effect_cases hc ha h.aimed with hjudge | ⟨m, hjudge⟩ | ⟨hjudge, htakes⟩
    · exact absurd (Document.judge_eq_known hjudge) (Nat.not_le.2 hnew)
    · obtain ⟨hpart, hmissing⟩ := Document.judge_eq_waiting hjudge
      rw [hpart, Document.missing?_eq_none_iff.2 hdeps] at hmissing
      cases hmissing
    · obtain ⟨-, hpart, -⟩ := Document.judge_eq_ready hjudge
      rw [← hpart]
      exact ⟨hjudge, htakes⟩
  · obtain ⟨seen, queue, haccount⟩ := hmet hmeets
    rcases haccount.effect_cases hc ha h.aimed with hjudge | ⟨m, hjudge⟩ | ⟨hjudge, -⟩ <;>
      simp [hjudge]
  · obtain ⟨batch, hdecode⟩ := h.decode_imports himport
    obtain ⟨after, hturns, hdrain⟩ := Intake.exists_turns (Intake.start doc) batch.operations
    obtain ⟨seen, hsmooth⟩ := h.smooth himport hdecode
    have hafter := hsmooth after [] hturns
    simp only [Document.receive, hdecode, hdrain]
    refine ⟨_, rfl, hafter.rejected, fun warning hwarning => ?_⟩
    rw [hafter.warnings, List.nil_append] at hwarning
    split at hwarning
    · exact ⟨_, _, List.mem_singleton.1 hwarning⟩
    · exact absurd hwarning List.not_mem_nil

/-- A replica that typed receives what another one typed at the same place. -/
theorem takes_effect_typed :
    let doc := (typed 2 "xy").document
    let bytes := ((typed 1 "ab").batchFor none).encode
    (∃ op, doc.Meets bytes doc op ∧ doc.TakesFully op) ∧
      ∃ status, (doc.receive bytes).result = .ok status ∧ status.rejected = 0 := by
  have hsize : ((typed 1 "ab").batchFor none).encode.length < 0x10000000000000000 := by decide +kernel
  have hqueue : ∃ op, ((typed 1 "ab").batchFor none).operations = [op] ∧
      (typed 2 "xy").document.newPart op = op ∧ op.dependencies = [] ∧
      (typed 2 "xy").document.version.nextCounter op.id.peer < op.stop := by
    refine ⟨⟨⟨1, 0⟩, 0, [], .root "t" .text, 5, .insert none (.text "ab")⟩, ?_, ?_, rfl, ?_⟩ <;> decide +kernel
  intro doc bytes
  obtain ⟨net, hnet, hleft, hright⟩ := honest_typed
  have hsent := hnet.step (.send none hleft hsize)
  have himport : Imports { net with sent := bytes :: net.sent } doc bytes :=
    .receive hright List.mem_cons_self
  obtain ⟨htakes, -, status, hstatus, hrejected, -⟩ := Honest.takes_effect hsent himport
  refine ⟨?_, status, hstatus, hrejected⟩
  obtain ⟨op, hop, hwhole, hnone, hnew⟩ := hqueue
  have hmeets : doc.Meets bytes doc op := by
    refine ⟨_, Intake.start doc, [], hnet.faithful.decode_batchFor hleft none hsize, ?_, rfl⟩
    rw [hop]
  have heffect := htakes doc op hmeets hnew
  rw [hwhole, hnone] at heffect
  exact ⟨op, hmeets, (heffect fun d hd => absurd hd List.not_mem_nil).2⟩

end Network

end CausalDoc
