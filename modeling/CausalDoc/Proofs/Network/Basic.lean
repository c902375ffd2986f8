import CausalDoc.Proofs.Document.Delivery
import CausalDoc.Proofs.Document.Merge

/- Replicas that exchange batches.

   A network is any number of replicas, each under the peer it writes as, and the batches
   that were sent so far. In a step a replica joins, makes an edit, sends a batch for some
   version, receives a batch that was sent, merges another replica, or is forked from one
   (`Network.Step`). What was sent stays: it may be received any number of times, in any
   order, or never.

   Replicas keep no record of what they have seen; `Replica.seen` is kept beside them to
   speak of it, and no step looks at it. -/

namespace CausalDoc

/-- A document with the operations that it made or was sent. -/
structure Replica where
  document : Document
  /-- What it made or was sent, repetitions included. -/
  seen : List Operation

namespace Replica

def new (config : Config) (freshPeer : Nat) : Replica := ⟨.new config freshPeer, []⟩

/-- Makes an edit. What it makes is what comes to its own history. -/
def edit (replica : Replica) (container : ContainerId) (edit : Edit) (wallTime : Nat) : Replica :=
  let before := replica.document
  let after := (before.edit container edit wallTime).document
  ⟨after, replica.seen ++
    (after.log.history before.peer).drop (before.log.history before.peer).length⟩

/-- What is sent for a version; without one it is the whole history. -/
def batchFor (replica : Replica) : Option VersionVector → Batch
  | some version => replica.document.updatesSince version
  | none => replica.document.snapshot

def receive (replica : Replica) (bytes : Wire.Bytes) : Replica :=
  ⟨(replica.document.receive bytes).document, replica.seen ++ Batch.carried bytes⟩

def merge (replica other : Replica) : Replica :=
  ⟨(replica.document.merge other.document).document,
    replica.seen ++
      Batch.carried (other.batchFor (some replica.document.version)).encode⟩

/-- A new replica with the history of this one. -/
def fork (replica : Replica) (freshPeer : Nat) : Replica :=
  ⟨(replica.document.fork freshPeer).document, Batch.carried (replica.batchFor none).encode⟩

variable {replica : Replica}

/-- An edit changes nothing, or it writes an operation that lists the frontiers, refers to elements
of its container, and bears the time of the clock if the document records it. -/
theorem edit_cases (h : replica.document.Lawful) (container : ContainerId) {edit : Edit}
    {wallTime : Nat} (hedit : edit.Writable) (hwall : wallTime < 0x10000000000000000) :
    replica.edit container edit wallTime = replica ∨
      ∃ op, replica.document.store.Admits op ∧ op.Writable ∧
        op.id.peer = replica.document.peer ∧
        (∀ a ∈ op.named, (replica.document.stateAt op.container).holds a = true) ∧
        op.deps = replica.document.log.frontiers.toList ∧
        op.timestamp = (if replica.document.config.recordTimestamps then
          replica.document.log.clock.now wallTime else 0) ∧
        replica.edit container edit wallTime =
          ⟨replica.document.write op, replica.seen ++ [op]⟩ := by
  unfold Replica.edit
  dsimp only
  rcases Document.edit_cases h.store container edit wallTime with
    hsame | ⟨action, haction, ha, hnamed, hafter⟩
  · left
    rw [hsame, List.drop_length, List.append_nil]
  · right
    refine ⟨_, ha, h.writable_draft hedit hwall haction ha, rfl, hnamed, rfl, rfl, ?_⟩
    have hhistory : (replica.document.write
        (replica.document.draft container action wallTime)).log.history replica.document.peer =
        replica.document.log.history replica.document.peer ++
          [replica.document.draft container action wallTime] := by
      show (replica.document.log.push _).history _ = _
      rw [Log.history_push]
      exact if_pos rfl
    rw [hafter, hhistory, List.drop_left]

theorem merge_eq (other : Replica) :
    replica.merge other =
      replica.receive (other.batchFor (some replica.document.version)).encode := by
  rw [merge, receive, Document.merge_document]
  rfl

end Replica

/-- Replicas by their peers, and the batches sent so far. -/
structure Network where
  replicas : Nat → Option Replica
  sent : List Wire.Bytes

namespace Network

def empty : Network := ⟨fun _ => none, []⟩

def put (net : Network) (peer : Nat) (replica : Replica) : Network :=
  { net with replicas := fun p => if p = peer then some replica else net.replicas p }

/-- One step of an honest run. Peers and wall times have 64 bits, what edits bring in has the form
that the wire has, and a batch has fewer than 2 ^ 64 bytes. No two replicas share a peer. -/
inductive Step (net : Network) : Network → Prop where
  | join (config : Config) (freshPeer : Nat) :
      (Document.new config freshPeer).peer < 0x10000000000000000 →
      net.replicas (Document.new config freshPeer).peer = none →
      Step net (net.put (Document.new config freshPeer).peer (.new config freshPeer))
  | edit {peer : Nat} {replica : Replica} (container : ContainerId) (edit : Edit)
      (wallTime : Nat) :
      net.replicas peer = some replica → edit.Writable → wallTime < 0x10000000000000000 →
      Step net (net.put peer (replica.edit container edit wallTime))
  | send {peer : Nat} {replica : Replica} (version : Option VersionVector) :
      net.replicas peer = some replica →
      (replica.batchFor version).encode.length < 0x10000000000000000 →
      Step net { net with sent := (replica.batchFor version).encode :: net.sent }
  | receive {peer : Nat} {replica : Replica} {bytes : Wire.Bytes} :
      net.replicas peer = some replica → bytes ∈ net.sent →
      Step net (net.put peer (replica.receive bytes))
  | merge {peer otherPeer : Nat} {replica other : Replica} :
      net.replicas peer = some replica → net.replicas otherPeer = some other →
      (other.batchFor (some replica.document.version)).encode.length < 0x10000000000000000 →
      Step net (net.put peer (replica.merge other))
  | fork {peer : Nat} {replica : Replica} (freshPeer : Nat) :
      net.replicas peer = some replica → freshPeer < 0x10000000000000000 →
      net.replicas freshPeer = none →
      (replica.batchFor none).encode.length < 0x10000000000000000 →
      Step net (net.put freshPeer (replica.fork freshPeer))

/-- Any number of steps. -/
def Run : Network → Network → Prop := Relation.ReflTransGen Step

/-- A network that an honest run leads to. -/
def Honest (net : Network) : Prop := empty.Run net

/-- The operation is in the log of the replica that it names as its author. -/
def Written (net : Network) (op : Operation) : Prop :=
  ∃ replica, net.replicas op.id.peer = some replica ∧ replica.document.log.Stored op

variable {net : Network} {peer : Nat} {replica : Replica}

theorem replicas_put (p : Nat) :
    (net.put peer replica).replicas p = if p = peer then some replica else net.replicas p := rfl

theorem put_self (h : net.replicas peer = some replica) : net.put peer replica = net := by
  unfold put
  congr 1
  funext p
  split
  · next hp => rw [hp, h]
  · rfl

/-- What is written after a replica has changed: by others what it was before, by itself what is
in its log. -/
theorem written_put {op : Operation} :
    (net.put peer replica).Written op ↔
      op.id.peer ≠ peer ∧ net.Written op ∨ op.id.peer = peer ∧ replica.document.log.Stored op := by
  unfold Written
  rw [replicas_put]
  by_cases hpeer : op.id.peer = peer
  · simp [hpeer]
  · simp [hpeer]

end Network

end CausalDoc
