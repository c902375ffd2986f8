import CausalDoc.Document.Receive
import CausalDoc.Log.Delta

/- Exchange between replicas: what a document sends, and what it takes over from
   another one directly. -/

namespace CausalDoc.Document

/-- The operations that a version lacks, as a batch. -/
def updatesSince (doc : Document) (version : VersionVector) : Batch :=
  ⟨.updates, doc.log.since version⟩

/-- The whole history, as a batch. -/
def snapshot (doc : Document) : Batch := ⟨.snapshot, doc.log.all⟩

/-- Takes over what `other` has and `doc` lacks. A failure is no more than a warning. -/
def merge (doc other : Document) : Outcome Unit :=
  let outcome := doc.receive (other.updatesSince doc.version).encode
  match outcome.result with
  | .ok _ => { outcome with result := .ok () }
  | .error e =>
    { outcome with result := .ok (), warnings := outcome.warnings ++ [.mergeFailed e] }

/-- A new replica with the whole history that writes as `freshPeer`. -/
def fork (doc : Document) (freshPeer : Nat) : Outcome ReceiveStatus :=
  (new { doc.config with peer := none } freshPeer).receive doc.snapshot.encode

end CausalDoc.Document
