import CausalDoc.Log.Delta
import CausalDoc.Proofs.Checked.Operation

/- The log with checked arithmetic.

   A look-up in the log computes where operations end, and the Lamport time of an atom from
   that of its operation; taking an operation computes its last atom and the next Lamport
   time; and what a version lacks is cut out of operations. Stored operations have no flaw,
   so in a log without gaps nothing of this leaves 32 bits, whatever is looked up. -/

namespace CausalDoc.Checked

/-- The operations with the counters after their last atoms. -/
def stops (ops : List Operation) : Checked (List (Operation × Nat)) :=
  ops.mapM fun op => do return (op, ← stop op)

def get? (log : Log) (id : AtomId) : Checked (Option Operation) := do
  match (← stops (log.history id.peer)).find? fun p => id.counter < p.2 with
  | none => return none
  | some (op, _) => return if ← covers op id then some op else none

def lamport? (log : Log) (id : AtomId) : Checked (Option Nat) := do
  match ← get? log id with
  | none => return none
  | some op => return some (← word (op.lamport + (← minus id.counter op.id.counter)))

def observe (clock : Clock) (lamport length timestamp : Nat) : Checked Clock := do
  return ⟨max clock.nextLamport (← word (lamport + length)), max clock.latestTimestamp timestamp⟩

def append (log : Log) (op : Operation) : Checked (Except DocumentError Log) := do
  let expected ← nextCounter log.version op.id.peer
  if op.id.counter ≠ expected then
    return .error (.outOfOrder op.id expected)
  else
    let last ← lastId op
    return .ok {
      histories := log.histories.insert op.id.peer (log.history op.id.peer ++ [op])
      version := log.version.extend last
      frontiers := log.frontiers.advance op.deps last
      clock := ← observe log.clock op.lamport (← length op) op.timestamp }

/-- The parts of a peer's operations that lie behind the start of a span. -/
def cut (log : Log) (span : Span) : Checked (List Operation) := do
  let new := (← stops (log.history span.peer)).dropWhile fun p => p.2 ≤ span.first
  new.mapM fun p => suffix p.1 span.first

def since (log : Log) (version : VersionVector) : Checked (List Operation) := do
  let parts ← (← subtract log.version version).mapM (cut log)
  return sortByKey Operation.stamp parts.flatten

theorem stops_eq {ops : List Operation} (h : ∀ op ∈ ops, op.Sound) :
    stops ops = .ok (ops.map fun op => (op, op.stop)) := by
  apply mapM_eq
  intro op hop
  rw [stop_eq (h op hop)]
  rfl

section Gapless

variable {log : Log} (h : log.Gapless)

include h

theorem history_sound (peer : Nat) : ∀ op ∈ log.history peer, op.Sound :=
  fun _ hop => h.sound (h.stored_iff.1 hop).1

theorem version_lt (peer : Nat) : log.version.nextCounter peer < 0x100000000 := by
  apply Nat.lt_of_not_le
  intro hlarge
  -- the operation that the last atom belongs to would end beyond its limit
  have hlast : log.contains ⟨peer, log.version.nextCounter peer - 1⟩ = true := by
    rw [Log.contains, VersionVector.includes_iff]
    dsimp only
    omega
  obtain ⟨op, hop, hcovers⟩ := h.contains_iff_covers.1 hlast
  obtain ⟨-, -, hstop⟩ := Operation.covers_iff.1 hcovers
  have := (h.sound hop).stop_lt
  dsimp only at hstop
  omega

theorem get?_eq (id : AtomId) : get? log id = .ok (log.get? id) := by
  have hsound := history_sound h id.peer
  have hfind : ((log.history id.peer).map fun op => (op, op.stop)).find?
      (fun p => id.counter < p.2) =
        ((log.history id.peer).find? fun op => id.counter < op.stop).map fun op => (op, op.stop) :=
    List.find?_map
  rw [get?, stops_eq hsound, ok_bind, hfind, Log.get?]
  cases hfound : (log.history id.peer).find? fun op => id.counter < op.stop with
  | none => rfl
  | some op =>
    simp only [Option.map_some, covers_eq (hsound op (List.mem_of_find?_eq_some hfound)), ok_bind,
      Option.filter_some]
    rfl

theorem lamport?_eq (id : AtomId) : lamport? log id = .ok (log.lamport? id) := by
  rw [lamport?, get?_eq h, ok_bind, Log.lamport?]
  cases hget : log.get? id with
  | none => rfl
  | some op =>
    obtain ⟨hop, hcovers⟩ := h.get?_eq_some_iff.1 hget
    obtain ⟨-, hfirst, hstop⟩ := Operation.covers_iff.1 hcovers
    have hlamport := (h.sound hop).lamport_lt
    rw [Operation.stop] at hstop
    simp only [minus_eq hfirst, ok_bind]
    rw [word_eq (by omega)]
    rfl

theorem append_eq {op : Operation} (hop : op.Sound) : append log op = .ok (log.append op) := by
  rw [append, nextCounter_eq (version_lt h _), ok_bind, Log.append]
  split
  · rfl
  · rw [lastId_eq hop, ok_bind, length_eq hop, ok_bind, observe, word_eq hop.lamport_lt]
    rfl

theorem cut_eq (span : Span) : cut log span =
    .ok (((log.history span.peer).dropWhile fun op => op.stop ≤ span.first).map fun op =>
      op.suffix span.first) := by
  have hsound := history_sound h span.peer
  rw [cut, stops_eq hsound, ok_bind, List.dropWhile_map]
  rw [mapM_eq (g := fun p => p.1.suffix span.first), List.map_map]
  · rfl
  · intro p hp
    obtain ⟨op, hop, rfl⟩ := List.mem_map.1 hp
    obtain ⟨hin, hlt⟩ := (h.contiguous _).mem_dropWhile.1 hop
    exact suffix_eq (hsound op hin) hlt

/-- What a version lacks is cut out without a trap, unless the version has the last counter. -/
theorem since_eq {version : VersionVector}
    (hversion : ∀ peer, version.nextCounter peer < 0x100000000) :
    since log version = .ok (log.since version) := by
  rw [since, subtract_eq (version_lt h) hversion, ok_bind,
    mapM_eq fun span _ => cut_eq h span, ok_bind, Log.since, List.flatMap_def]
  rfl

end Gapless

end CausalDoc.Checked
