import CausalDoc.Error
import CausalDoc.Version.Clock
import CausalDoc.Version.Frontiers
import CausalDoc.Version.Vector

/- The log: every operation a replica has applied.

   Operations are kept per peer in counter order. An operation is appended only
   where its peer's history ends, so each history is gapless from counter 0, and the
   version vector describes exactly the atoms stored. -/

namespace CausalDoc

/-- The applied operations with their version, frontiers and clock. -/
structure Log where
  /-- Each peer's operations, in counter order. -/
  histories : OrderedMap Nat (List Operation)
  /-- The atoms stored. -/
  version : VersionVector
  /-- The newest atoms. -/
  frontiers : Frontiers
  /-- Lamport time and latest timestamp. -/
  clock : Clock
  deriving DecidableEq, Repr, Inhabited

namespace Log

def empty : Log := ⟨.empty, .empty, .empty, .start⟩

/-- The operations of one peer, in counter order. -/
def history (log : Log) (peer : Nat) : List Operation := (log.histories.get? peer).getD []

/-- Appends an operation, which has to continue its peer's history. -/
def append (log : Log) (op : Operation) : Except DocumentError Log :=
  let expected := log.version.nextCounter op.id.peer
  if op.id.counter ≠ expected then .error (.outOfOrder op.id expected)
  else
    .ok {
      histories := log.histories.insert op.id.peer (log.history op.id.peer ++ [op])
      version := log.version.extend op.lastId
      frontiers := log.frontiers.advance op.deps op.lastId
      clock := log.clock.observe op.lamport op.length op.timestamp }

def contains (log : Log) (id : AtomId) : Bool := log.version.includes id

/-- The operation that an atom belongs to. -/
def get? (log : Log) (id : AtomId) : Option Operation :=
  ((log.history id.peer).find? fun op => id.counter < op.stop).filter fun op => op.covers id

def lamport? (log : Log) (id : AtomId) : Option Nat :=
  (log.get? id).map fun op => op.lamport + (id.counter - op.id.counter)

/-- The atom that the next operation of a peer starts with. -/
def nextId (log : Log) (peer : Nat) : AtomId := ⟨peer, log.version.nextCounter peer⟩

def operationCount (log : Log) : Nat :=
  log.histories.entries.foldr (fun e n => e.2.length + n) 0

def atomCount (log : Log) : Nat := log.version.atomCount

def isEmpty (log : Log) : Bool := log.histories.isEmpty

end Log

end CausalDoc
