import CausalDoc.Document.Edit

/- Receiving operations.

   A batch is decoded as a whole before anything else happens. Its operations then
   form a queue. An operation whose causal past is missing is parked; one that can be
   applied is applied, and the operations that waited for it join the queue at its
   end. Parking takes an operation from the queue and releasing moves it back, but
   something is released only after something was applied and so left both, which is
   why the queue runs empty. -/

namespace CausalDoc

/-- What came of the operations of a batch. -/
structure ReceiveStatus where
  /-- The number applied, those included that were parked before. -/
  applied : Nat
  /-- The number parked on the way that are still parked. -/
  buffered : Nat
  /-- The number already known or already parked. -/
  skipped : Nat
  /-- The number dropped because their Lamport time was not above a dependency's. -/
  rejected : Nat
  deriving DecidableEq, Repr

/-- What is to be done with an operation. -/
inductive Verdict where
  /-- Nothing: all its atoms are known. -/
  | known
  /-- Park it until `missing` is there. -/
  | waiting (missing : AtomId) (op : Operation)
  /-- Drop it: it is not newer than a dependency. -/
  | stale (dependency : AtomId) (op : Operation)
  /-- Park it: nothing creates its container. -/
  | orphan (op : Operation)
  /-- Apply it. -/
  | ready (op : Operation)
  deriving DecidableEq, Repr

namespace Document

/-- Judges an operation that arrives. Of one that is known in part only the rest counts. -/
def judge (doc : Document) (op : Operation) : Verdict :=
  let next := doc.version.nextCounter op.id.peer
  if op.stop ≤ next then .known
  else
    let op := if op.id.counter < next then op.suffix next else op
    match op.dependencies.find? fun d => !doc.log.contains d with
    | some missing => .waiting missing op
    | none =>
      match op.dependencies.find? fun d => (doc.log.lamport? d).any (op.lamport ≤ ·) with
      | some dependency => .stale dependency op
      | none => if doc.registry.isResolvable op.container then .ready op else .orphan op

/-- Applies an operation to its container, if the container holds what it refers to, and logs
it. -/
def perform (doc : Document) (op : Operation) : Document × Except DocumentError (List Warning) :=
  match doc.registry.resolve op.container with
  | .error e => (doc, .error e)
  | .ok (registry, state) =>
    let applies := state.canApply op
    let registry := if applies then registry.set op.container (state.apply op) else registry
    let changed := { doc with registry := registerCreated registry op }
    match doc.log.append op with
    | .error e => (changed, .error e)
    | .ok log =>
      ({ changed with log }, .ok (if applies then [] else [.noEffect op.id op.container]))

theorem perform_pending (doc : Document) (op : Operation) :
    (doc.perform op).1.pending = doc.pending := by
  unfold perform
  split
  · rfl
  · dsimp only
    split <;> rfl

end Document

/-! ## The queue -/

/-- A batch under way. -/
structure Intake where
  /-- The document so far. -/
  document : Document
  /-- The counts so far; `buffered` is known only at the end. -/
  status : ReceiveStatus
  /-- The containers that operations were applied to. -/
  touched : OrderedSet ContainerId
  /-- The operations parked on the way, by their first atoms. -/
  parked : OrderedSet AtomId
  /-- The warnings so far. -/
  warnings : List Warning

namespace Intake

def start (doc : Document) : Intake := ⟨doc, ⟨0, 0, 0, 0⟩, .empty, .empty, []⟩

def skip (intake : Intake) : Intake :=
  { intake with status := { intake.status with skipped := intake.status.skipped + 1 } }

/-- Drops an operation that is not newer than a dependency. -/
def reject (intake : Intake) (dependency : AtomId) (op : Operation) : Intake :=
  { intake with
    status := { intake.status with rejected := intake.status.rejected + 1 }
    warnings := intake.warnings ++ [.notNewer op.id op.lamport dependency] }

/-- Parks an operation; one that is parked already is passed over. -/
def park (intake : Intake) (missing : AtomId) (op : Operation) : Intake :=
  match intake.document.pending.push? missing op with
  | some pending =>
    { intake with
      document := { intake.document with pending }
      parked := intake.parked.insert op.id }
  | none => intake.skip

/-- Parks an operation whose container nothing creates, under the atom that should have. -/
def parkOrphan (intake : Intake) (op : Operation) : Intake :=
  let warned : Intake :=
    { intake with warnings := intake.warnings ++ [.unknownContainer op.id op.container] }
  warned.park (op.container.creator?.getD op.id) op

/-- Takes note of an applied operation and releases what waited for it. -/
def release (intake : Intake) (document : Document) (warnings : List Warning) (op : Operation) :
    Intake × List Operation :=
  let (ready, pending) := document.pending.takeReady op.id.peer op.stop
  ({ intake with
      document := { document with pending }
      status := { intake.status with applied := intake.status.applied + 1 }
      touched := intake.touched.insert op.container
      warnings := intake.warnings ++ warnings }, ready)

theorem load_park (intake : Intake) (missing : AtomId) (op : Operation) :
    (intake.park missing op).document.pending.load ≤ intake.document.pending.load + 1 := by
  unfold park
  split
  · rename_i h
    exact Nat.le_of_eq (Pending.load_push? h)
  · exact Nat.le_succ _

theorem load_release (intake : Intake) (document : Document) (warnings : List Warning)
    (op : Operation) :
    (intake.release document warnings op).2.length +
        (intake.release document warnings op).1.document.pending.load =
      document.pending.load :=
  Pending.load_takeReady ..

/-- The work left with `queued` operations in the queue and `parked` ones that may come back. -/
def work (queued parked : Nat) : Nat := (queued + parked) * (queued + parked) + queued

/-- Taking an operation off the queue leaves less work, even if one is parked for it. -/
theorem work_lt_of_take {queued parked parked' : Nat} (h : parked' ≤ parked + 1) :
    work queued parked' < work (queued + 1) parked := by
  have hle : queued + parked' ≤ queued + 1 + parked := by omega
  have := Nat.mul_le_mul hle hle
  unfold work
  omega

/-- Releasing operations leaves less work, because the one applied is gone for good. -/
theorem work_lt_of_release {queued parked released parked' : Nat}
    (h : released + parked' = parked) :
    work (queued + released) parked' < work (queued + 1) parked := by
  obtain ⟨n, hn⟩ : ∃ n, queued + released + parked' = n := ⟨_, rfl⟩
  have hsquare : (n + 1) * (n + 1) = n * n + n + n + 1 := by
    rw [Nat.add_mul, Nat.mul_add]
    omega
  unfold work
  rw [hn, show queued + 1 + parked = n + 1 by omega, hsquare]
  omega

/-- Works the queue off. An error stops the work and leaves what was done. -/
def drain (intake : Intake) : List Operation → Intake × Except DocumentError Unit
  | [] => (intake, .ok ())
  | op :: queue =>
    match intake.document.judge op with
    | .known => drain intake.skip queue
    | .waiting missing part => drain (intake.park missing part) queue
    | .stale dependency part => drain (intake.reject dependency part) queue
    | .orphan part => drain (intake.parkOrphan part) queue
    | .ready part =>
      match _performed : intake.document.perform part with
      | (document, .error e) => ({ intake with document }, .error e)
      | (document, .ok warnings) =>
        let released := intake.release document warnings part
        drain released.1 (queue ++ released.2)
termination_by queue => work queue.length intake.document.pending.load
decreasing_by
  -- known, waiting, stale and orphan: the queue is shorter, and at most one more is parked
  · exact work_lt_of_take (Nat.le_succ _)
  · exact work_lt_of_take (load_park ..)
  · exact work_lt_of_take (Nat.le_succ _)
  · exact work_lt_of_take (load_park ..)
  -- ready: applying touches nothing that is parked, and what is released was parked
  · have hpending := congrArg (fun r => r.1.pending) _performed
    rw [Document.perform_pending] at hpending
    rw [List.length_append, List.length_cons]
    refine work_lt_of_release ((load_release intake document warnings part).trans ?_)
    exact congrArg Pending.load hpending.symm

end Intake

namespace Document

/-- Receives a batch. Nothing changes when the bytes are not a batch. -/
def receive (doc : Document) (bytes : Wire.Bytes) : Outcome ReceiveStatus :=
  match Batch.decode bytes with
  | .error e => doc.fail (.decode e)
  | .ok batch =>
    match (Intake.start doc).drain batch.operations with
    | (intake, .error e) => ⟨intake.document, .error e, [], intake.warnings⟩
    | (intake, .ok ()) =>
      let after := intake.document
      let buffered := (intake.parked.filter after.pending.contains).size
      let threshold := doc.config.pendingThreshold
      let grown :=
        if threshold < after.pending.size ∧ doc.pending.size ≤ threshold then
          [.pendingGrew after.pending.size threshold]
        else []
      let deliveries :=
        if 0 < intake.status.applied then
          after.notify .received intake.touched.toList doc.version
        else []
      ⟨after, .ok { intake.status with buffered }, deliveries, intake.warnings ++ grown⟩

end Document

end CausalDoc
