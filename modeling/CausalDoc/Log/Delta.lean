import CausalDoc.Log.Basic
import CausalDoc.Ordered.Sort

/- What one version of a log has and another lacks.

   An operation that the other side knows in part is cut down to the suffix it
   lacks. The listing is sorted by stamp; a dependency has a smaller Lamport time
   than what depends on it and so comes first. -/

namespace CausalDoc.Log

/-- The stored operations that `version` does not cover, in the order of their stamps. -/
def since (log : Log) (version : VersionVector) : List Operation :=
  sortByKey Operation.stamp <| (log.version.subtract version).flatMap fun span =>
    ((log.history span.peer).dropWhile fun op => op.stop ≤ span.first).map fun op =>
      op.suffix span.first

/-- Every stored operation, in the order of the stamps. -/
def all (log : Log) : List Operation := log.since .empty

/-- The operations that `later` covers to the end and `earlier` does not. -/
def between (log : Log) (earlier later : VersionVector) : List Operation :=
  (log.since earlier).filter fun op => later.includes op.lastId

end CausalDoc.Log
