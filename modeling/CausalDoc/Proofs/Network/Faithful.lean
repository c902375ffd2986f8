import CausalDoc.Proofs.Network.Basic

/- What every honest run keeps.

   In a faithful network the operations that replicas wrote are a corpus and refer to their
   past only, every replica accounts for what it has seen, and batches carry nothing but
   written operations and suffixes of them. Only an edit writes: the new operation continues
   the history of its peer, which its replica has in full, and lists the frontiers, so all
   that it refers to is in its past. Every other step brings written operations to a replica
   (`Faithful.put`). -/

namespace CausalDoc.Network

/-- What every network on an honest run keeps. -/
structure Faithful (net : Network) : Prop where
  corpus : Corpus net.Written
  anchored : Anchored net.Written
  peer : ∀ {p : Nat} {replica : Replica}, net.replicas p = some replica →
    replica.document.peer = p
  accounts : ∀ {p : Nat} {replica : Replica}, net.replicas p = some replica →
    Delivers net.Written replica.seen replica.document []
  sent : ∀ bytes ∈ net.sent, ∀ op ∈ Batch.carried bytes, SuffixIn net.Written op

theorem faithful_empty : empty.Faithful where
  corpus := by
    have hnone : ∀ {op : Operation}, ¬ empty.Written op := fun ⟨_, h, _⟩ => by cases h
    exact ⟨fun h => absurd h hnone, fun h => absurd h hnone, fun h => absurd h hnone,
      fun h => absurd h hnone⟩
  anchored := fun _ ⟨_, h, _⟩ => by cases h
  peer := fun h => by cases h
  accounts := fun h => by cases h
  sent := fun _ h => absurd h List.not_mem_nil

variable {net : Network} {peer : Nat} {replica : Replica}

namespace Faithful

theorem writable (h : net.Faithful) {op : Operation} (hop : net.Written op) : op.Writable := by
  obtain ⟨replica, hreplica, hstored⟩ := hop
  exact (h.accounts hreplica).lawful.stored op hstored

/-- A replica holds written operations only. -/
theorem holds (h : net.Faithful) (hreplica : net.replicas peer = some replica) :
    Holds net.Written replica.document :=
  ⟨(h.accounts hreplica).lawful, (h.accounts hreplica).written⟩

/-- A replica has all operations of its peer. -/
theorem stored_of_written (hreplica : net.replicas peer = some replica) {op : Operation}
    (hop : net.Written op) (hpeer : op.id.peer = peer) : replica.document.log.Stored op := by
  obtain ⟨own, hown, hstored⟩ := hop
  rw [hpeer, hreplica, Option.some.injEq] at hown
  rwa [hown]

/-! ## Batches -/

theorem decode_batchFor (h : net.Faithful) (hreplica : net.replicas peer = some replica)
    (version : Option VersionVector)
    (hsize : (replica.batchFor version).encode.length < 0x10000000000000000) :
    Batch.decode (replica.batchFor version).encode = .ok (replica.batchFor version) := by
  have hlawful := (h.accounts hreplica).lawful
  cases version with
  | some since => exact hlawful.decode_since .updates since hsize
  | none =>
    -- a snapshot is what is sent for the empty version
    exact hlawful.decode_since .snapshot .empty hsize

theorem carried_batchFor (h : net.Faithful) (hreplica : net.replicas peer = some replica)
    (version : Option VersionVector)
    (hsize : (replica.batchFor version).encode.length < 0x10000000000000000) :
    ∀ op ∈ Batch.carried (replica.batchFor version).encode, SuffixIn net.Written op := by
  have haccount := h.accounts hreplica
  rw [Batch.carried, h.decode_batchFor hreplica version hsize]
  obtain ⟨since, hsince⟩ : ∃ since, (replica.batchFor version).operations =
      replica.document.log.since since := by
    cases version with
    | some since => exact ⟨since, rfl⟩
    | none => exact ⟨.empty, rfl⟩
  intro op hop
  change op ∈ (replica.batchFor version).operations at hop
  rw [hsince] at hop
  obtain ⟨o, ho, hlt, heq⟩ := haccount.lawful.log.mem_since.1 hop
  exact ⟨o, haccount.written o ho, _, hlt, heq⟩

/-! ## Steps that write nothing -/

/-- A replica may change without writing, if it accounts for what it has seen and keeps all
operations of its peer. -/
theorem put (h : net.Faithful) (hown : replica.document.peer = peer)
    (haccount : Delivers net.Written replica.seen replica.document [])
    (hkeeps : ∀ op, net.Written op → op.id.peer = peer → replica.document.log.Stored op) :
    (net.put peer replica).Faithful ∧ (net.put peer replica).Written = net.Written := by
  have hsame : (net.put peer replica).Written = net.Written := by
    funext op
    apply propext
    rw [written_put]
    refine ⟨?_, ?_⟩
    · intro hcase
      rcases hcase with ⟨-, hop⟩ | ⟨-, hstored⟩
      · exact hop
      · exact haccount.written op hstored
    · intro hop
      by_cases hpeer : op.id.peer = peer
      · exact .inr ⟨hpeer, hkeeps op hop hpeer⟩
      · exact .inl ⟨hpeer, hop⟩
  refine ⟨⟨?_, ?_, ?_, ?_, ?_⟩, hsame⟩
  · rw [hsame]
    exact h.corpus
  · rw [hsame]
    exact h.anchored
  · intro p r hr
    rw [replicas_put] at hr
    split at hr
    · next hp => rw [← Option.some.inj hr, hp, hown]
    · exact h.peer hr
  · intro p r hr
    rw [hsame]
    rw [replicas_put] at hr
    split at hr
    · rw [← Option.some.inj hr]
      exact haccount
    · exact h.accounts hr
  · rw [hsame]
    exact h.sent

/-- A new replica may come under a peer that is free, with the history of another one or none. -/
theorem put_new (h : net.Faithful) (replica : Replica) (hfree : net.replicas peer = none)
    (hown : replica.document.peer = peer)
    (haccount : Delivers net.Written replica.seen replica.document []) :
    (net.put peer replica).Faithful ∧ (net.put peer replica).Written = net.Written := by
  apply h.put hown haccount
  intro op hgiven hpeer
  obtain ⟨r, hr, -⟩ := hgiven
  rw [hpeer, hfree] at hr
  cases hr

theorem put_receive (h : net.Faithful) (hreplica : net.replicas peer = some replica)
    {bytes : Wire.Bytes} (hbytes : ∀ op ∈ Batch.carried bytes, SuffixIn net.Written op) :
    (net.put peer (replica.receive bytes)).Faithful ∧
      (net.put peer (replica.receive bytes)).Written = net.Written := by
  obtain ⟨hpeer, hgrown⟩ := replica.document.receive_keeps bytes
  apply h.put
  · exact hpeer.trans (h.peer hreplica)
  · exact (h.accounts hreplica).receive h.corpus (fun _ ho => h.writable ho) hbytes
  · exact fun op hop hown => hgrown op (stored_of_written hreplica hop hown)

theorem delivers_new (config : Config) (freshPeer : Nat)
    (hpeer : (Document.new config freshPeer).peer < 0x10000000000000000) :
    Delivers net.Written [] (Document.new config freshPeer) [] where
  lawful := .new config freshPeer hpeer
  genuine := fun _ h => absurd h List.not_mem_nil
  written := fun _ h => absurd h List.not_mem_nil
  logged := fun _ h => absurd h List.not_mem_nil
  queued := fun _ h => absurd h List.not_mem_nil
  waiting := fun m op ⟨ops, h, _⟩ => by cases h
  settled := fun _ h => absurd h List.not_mem_nil

/-! ## Edits -/

/-- A replica may write an operation that lists its frontiers and refers to what it has. -/
theorem write (h : net.Faithful) (hreplica : net.replicas peer = some replica) {op : Operation}
    (ha : replica.document.store.Admits op) (hwritable : op.Writable) (hpeer : op.id.peer = peer)
    (hnamed : ∀ a ∈ op.named, replica.document.log.contains a = true)
    (hdeps : op.deps = replica.document.log.frontiers.toList) :
    (net.put peer ⟨replica.document.write op, replica.seen ++ [op]⟩).Faithful ∧
      (net.put peer ⟨replica.document.write op, replica.seen ++ [op]⟩).Written =
        OrNew net.Written op := by
  have haccount := h.accounts hreplica
  have hstore := haccount.lawful.store
  have hall : ∀ o, net.Written o → o.id.peer = op.id.peer → replica.document.log.Stored o :=
    fun o ho hown => stored_of_written hreplica ho (hown.trans hpeer)
  -- written is what the replica of the author stores, and only this replica has changed
  have hwritten : (net.put peer ⟨replica.document.write op, replica.seen ++ [op]⟩).Written =
      OrNew net.Written op := by
    funext o
    apply propext
    rw [written_put]
    refine ⟨?_, ?_⟩
    · intro hcase
      rcases hcase with ⟨-, ho⟩ | ⟨-, hstored⟩
      · exact .inl ho
      · rcases Log.stored_push.1 hstored with hstored | heq
        · exact .inl (haccount.written o hstored)
        · exact .inr heq
    · intro hcase
      rcases hcase with ho | rfl
      · by_cases hown : o.id.peer = peer
        · exact .inr ⟨hown, Log.stored_push.2 (.inl (stored_of_written hreplica ho hown))⟩
        · exact .inl ⟨hown, ho⟩
      · exact .inr ⟨hpeer, Log.stored_push.2 (.inr rfl)⟩
  refine ⟨⟨?_, ?_, ?_, ?_, ?_⟩, hwritten⟩
  · rw [hwritten]
    exact h.corpus.orNew hstore haccount.written ha hall
  · rw [hwritten]
    apply h.anchored.orNew hstore haccount.written ha hnamed
    intro f hf
    rw [hdeps]
    exact hf
  · intro p r hr
    rw [replicas_put] at hr
    split at hr
    · next hp =>
      rw [← Option.some.inj hr, hp]
      show replica.document.peer = peer
      exact h.peer hreplica
    · exact h.peer hr
  · intro p r hr
    rw [hwritten]
    rw [replicas_put] at hr
    split at hr
    · rw [← Option.some.inj hr]
      exact haccount.write h.corpus hall ha hwritable
    · exact (h.accounts hr).mono fun _ => .inl
  · rw [hwritten]
    exact fun bytes hbytes op hop => (h.sent bytes hbytes op hop).mono fun _ => .inl

/-! ## Runs -/

/-- A step keeps the network faithful, and writes nothing, or one operation that a replica can take,
that lists its frontiers, that refers to elements which it holds, and that bears the time of its
clock if it records it. -/
theorem step_writes {after : Network} (h : net.Faithful) (hstep : net.Step after) :
    after.Faithful ∧ (after.Written = net.Written ∨
      ∃ peer replica op, net.replicas peer = some replica ∧ replica.document.store.Admits op ∧
        op.deps = replica.document.log.frontiers.toList ∧
        (∀ a ∈ op.named, (replica.document.stateAt op.container).holds a = true) ∧
        (∃ wallTime, op.timestamp = (if replica.document.config.recordTimestamps then
          replica.document.log.clock.now wallTime else 0)) ∧
        after.Written = OrNew net.Written op) := by
  cases hstep with
  | join config freshPeer hpeer hfree =>
    obtain ⟨hafter, hsame⟩ := h.put_new (.new config freshPeer) hfree rfl
      (delivers_new config freshPeer hpeer)
    exact ⟨hafter, .inl hsame⟩
  | @edit peer replica container edit wallTime hreplica hedit hwall =>
    rcases replica.edit_cases (h.accounts hreplica).lawful container hedit hwall with
      hsame | ⟨op, ha, hwritable, hpeer, hnamed, hdeps, htime, hafter⟩
    · rw [hsame, put_self hreplica]
      exact ⟨h, .inl rfl⟩
    · have hstored : ∀ a ∈ op.named, replica.document.log.contains a = true :=
        fun a ha => ((h.accounts hreplica).lawful.store.stateOf op.container).2.2 a (hnamed a ha)
      rw [hafter]
      obtain ⟨hafter, hmore⟩ :=
        h.write hreplica ha hwritable (hpeer.trans (h.peer hreplica)) hstored hdeps
      exact ⟨hafter, .inr ⟨peer, replica, op, hreplica, ha, hdeps, hnamed, ⟨wallTime, htime⟩, hmore⟩⟩
  | @send peer replica version hreplica hsize =>
    refine ⟨⟨h.corpus, h.anchored, h.peer, h.accounts, ?_⟩, .inl rfl⟩
    intro bytes hbytes
    rcases List.mem_cons.1 hbytes with rfl | hbytes
    · exact h.carried_batchFor hreplica version hsize
    · exact h.sent bytes hbytes
  | receive hreplica hbytes =>
    obtain ⟨hafter, hsame⟩ := h.put_receive hreplica (h.sent _ hbytes)
    exact ⟨hafter, .inl hsame⟩
  | merge hreplica hother hsize =>
    rw [Replica.merge_eq]
    obtain ⟨hafter, hsame⟩ := h.put_receive hreplica (h.carried_batchFor hother _ hsize)
    exact ⟨hafter, .inl hsame⟩
  | @fork peer replica freshPeer hreplica hpeer hfree hsize =>
    have haccount := (delivers_new { replica.document.config with peer := none } freshPeer
      hpeer).receive h.corpus (fun _ ho => h.writable ho) (h.carried_batchFor hreplica none hsize)
    obtain ⟨hafter, hsame⟩ := h.put_new (replica.fork freshPeer) hfree
      (Document.receive_keeps _ _).1 haccount
    exact ⟨hafter, .inl hsame⟩

/-- A step keeps the network faithful, and what is written stays written. -/
theorem step {after : Network} (h : net.Faithful) (hstep : net.Step after) :
    after.Faithful ∧ ∀ op, net.Written op → after.Written op := by
  obtain ⟨hafter, hsame | ⟨-, -, op, -, -, -, -, -, hmore⟩⟩ := h.step_writes hstep
  · exact ⟨hafter, fun o ho => hsame ▸ ho⟩
  · exact ⟨hafter, fun o ho => hmore ▸ .inl ho⟩

theorem step_keeps {after : Network} (h : net.Faithful) (hstep : net.Step after)
    (hreplica : net.replicas peer = some replica) :
    ∃ later, after.replicas peer = some later ∧
      later.document.config = replica.document.config ∧
      ∀ op, replica.document.log.Stored op → later.document.log.Stored op := by
  -- a step other than a send puts one replica, so it is enough to look at that one
  have hput : ∀ {p : Nat} {changed : Replica}, (∀ r, net.replicas p = some r →
      changed.document.config = r.document.config ∧
        ∀ op, r.document.log.Stored op → changed.document.log.Stored op) →
      ∃ later, (net.put p changed).replicas peer = some later ∧
        later.document.config = replica.document.config ∧
        ∀ op, replica.document.log.Stored op → later.document.log.Stored op := by
    intro p changed hkeeps
    rw [replicas_put]
    by_cases hp : peer = p
    · subst hp
      exact ⟨changed, if_pos rfl, hkeeps replica hreplica⟩
    · exact ⟨replica, by rw [if_neg hp, hreplica], rfl, fun op hop => hop⟩
  have hnone : ∀ {p : Nat} {changed : Replica}, net.replicas p = none →
      ∀ r, net.replicas p = some r → changed.document.config = r.document.config ∧
        ∀ op, r.document.log.Stored op → changed.document.log.Stored op := by
    intro p changed hfree r hr
    rw [hfree] at hr
    cases hr
  cases hstep with
  | join config freshPeer hpeer hfree => exact hput (hnone hfree)
  | edit container edit wallTime hedited hedit hwall =>
    apply hput
    intro r hr
    obtain rfl := Option.some.inj (hedited.symm.trans hr)
    rcases Replica.edit_cases (h.accounts hr).lawful container hedit hwall with
      hsame | ⟨new, -, -, -, -, -, -, hafter⟩
    · rw [hsame]
      exact ⟨rfl, fun op hop => hop⟩
    · rw [hafter]
      exact ⟨rfl, fun op hop => Log.stored_push.2 (.inl hop)⟩
  | send => exact ⟨replica, hreplica, rfl, fun op hop => hop⟩
  | receive hreceiver hbytes =>
    apply hput
    intro r hr
    obtain rfl := Option.some.inj (hreceiver.symm.trans hr)
    exact ⟨Document.receive_config _ _, (Document.receive_keeps _ _).2⟩
  | merge hreceiver hother hsize =>
    rw [Replica.merge_eq]
    apply hput
    intro r hr
    obtain rfl := Option.some.inj (hreceiver.symm.trans hr)
    exact ⟨Document.receive_config _ _, (Document.receive_keeps _ _).2⟩
  | fork freshPeer hforked hpeer hfree hsize => exact hput (hnone hfree)

theorem run {after : Network} (h : net.Faithful) (hrun : net.Run after) :
    after.Faithful ∧ ∀ op, net.Written op → after.Written op := by
  induction hrun with
  | refl => exact ⟨h, fun _ => id⟩
  | tail _ hstep ih =>
    obtain ⟨hmid, hgrown⟩ := ih
    obtain ⟨hafter, hgrown'⟩ := hmid.step hstep
    exact ⟨hafter, fun op hop => hgrown' op (hgrown op hop)⟩

theorem run_keeps {after : Network} (h : net.Faithful) (hrun : net.Run after)
    (hreplica : net.replicas peer = some replica) :
    ∃ later, after.replicas peer = some later ∧
      ∀ op, replica.document.log.Stored op → later.document.log.Stored op := by
  induction hrun with
  | refl => exact ⟨replica, hreplica, fun op hop => hop⟩
  | tail hbefore hstep ih =>
    obtain ⟨mid, hmid, hkept⟩ := ih
    obtain ⟨later, hlater, -, hkept'⟩ := (h.run hbefore).1.step_keeps hstep hmid
    exact ⟨later, hlater, fun op hop => hkept' op (hkept op hop)⟩

end Faithful

theorem Honest.step {after : Network} (h : net.Honest) (hstep : net.Step after) : after.Honest :=
  .tail h hstep

theorem Honest.faithful (h : net.Honest) : net.Faithful := (faithful_empty.run h).1

end CausalDoc.Network
