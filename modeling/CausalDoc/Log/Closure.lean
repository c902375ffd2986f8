import CausalDoc.Log.Basic

/- The causal past of given frontiers.

   What is still to be followed waits on a stack. The first atom there that is not
   covered yet covers itself and its predecessors of the same peer, and what their
   operations depend on goes on the stack. Each step covers more of the log, so the
   walk ends. -/

namespace CausalDoc.Log

/-- The number of stored atoms that `version` does not cover. -/
def uncovered (log : Log) (version : VersionVector) : Nat :=
  log.version.last.entries.foldr (fun e n => e.2 + 1 - version.nextCounter e.1 + n) 0

/-- What the operations that become covered with `id` depend on, apart from their
predecessors. -/
def newDependencies (log : Log) (version : VersionVector) (id : AtomId) : List AtomId :=
  let start := version.nextCounter id.peer
  let fresh := ((log.history id.peer).dropWhile fun op => op.stop ≤ start).takeWhile fun op =>
    op.id.counter ≤ id.counter
  fresh.flatMap fun op => op.deps ++ op.container.creator?.toList

theorem foldr_add_lt {α : Type} {f g : α → Nat} {x : α} :
    ∀ {xs : List α}, (∀ y ∈ xs, g y ≤ f y) → x ∈ xs → g x < f x →
      xs.foldr (fun y n => g y + n) 0 < xs.foldr (fun y n => f y + n) 0
  | [], _, hx, _ => by cases hx
  | y :: ys, hle, hx, hlt => by
    have hys : ys.foldr (fun y n => g y + n) 0 ≤ ys.foldr (fun y n => f y + n) 0 := by
      clear hx
      induction ys with
      | nil => exact Nat.le_refl 0
      | cons z zs ih =>
        exact Nat.add_le_add (hle z (by simp))
          (ih fun w hw => hle w (by rcases List.mem_cons.1 hw with rfl | hw <;> simp [*]))
    rcases List.mem_cons.1 hx with rfl | hx
    · exact Nat.add_lt_add_of_lt_of_le hlt hys
    · exact Nat.add_lt_add_of_le_of_lt (hle y List.mem_cons_self)
        (foldr_add_lt (fun z hz => hle z (List.mem_cons_of_mem _ hz)) hx hlt)

/-- Covering a stored atom leaves fewer stored atoms uncovered. -/
theorem uncovered_extend_lt {log : Log} {version : VersionVector} {id : AtomId}
    (hnew : version.includes id = false) (hstored : log.contains id = true) :
    log.uncovered (version.extend id) < log.uncovered version := by
  simp only [contains, VersionVector.includes, decide_eq_true_eq, decide_eq_false_iff_not,
    Nat.not_lt] at hnew hstored
  -- being stored, the atom lies below the last counter of its peer's entry
  obtain ⟨c, hc, hlast⟩ : ∃ c, id.counter ≤ c ∧ (id.peer, c) ∈ log.version.last.entries := by
    unfold VersionVector.nextCounter at hstored
    split at hstored
    · exact absurd hstored (Nat.not_lt_zero _)
    · rename_i c hget
      exact ⟨c, Nat.le_of_lt_succ hstored, (OrderedMap.get?_eq_some_iff _).1 hget⟩
  -- no entry leaves more uncovered than before, and this one leaves less
  refine foldr_add_lt (x := (id.peer, c)) (fun e _ => ?_) hlast ?_
  · by_cases he : e.1 = id.peer
    · rw [he, VersionVector.nextCounter_extend_self]
      omega
    · exact Nat.le_of_eq
        (congrArg (e.2 + 1 - ·) (VersionVector.nextCounter_extend_of_ne _ he))
  · change c + 1 - (version.extend id).nextCounter id.peer < c + 1 - version.nextCounter id.peer
    rw [VersionVector.nextCounter_extend_self]
    omega

/-- Extends `version` by the past of the atoms on the stack. An atom that is not stored stops
the walk. -/
def closeOver (log : Log) (version : VersionVector) (stack : List AtomId) :
    Except DocumentError VersionVector :=
  match _next : stack.dropWhile version.includes with
  | [] => .ok version
  | id :: rest =>
    if _ : log.contains id then
      closeOver log (version.extend id) ((log.newDependencies version id).reverse ++ rest)
    else .error (.unknownFrontier id)
termination_by log.uncovered version
decreasing_by
  rename_i hstored
  refine uncovered_extend_lt ?_ hstored
  have := List.head?_dropWhile_not version.includes stack
  rw [_next] at this
  simpa using this

/-- The version that covers the frontiers and everything they depend on. The last atom of the list is
followed first. -/
def versionOf (log : Log) (frontiers : Frontiers) : Except DocumentError VersionVector :=
  log.closeOver .empty frontiers.toList.reverse

/-- The causal order of the log relative to frontiers it holds. -/
def orderOf (log : Log) (frontiers : Frontiers) : Except DocumentError (Option Ordering) := do
  let version ← log.versionOf frontiers
  return log.version.order? version

/-- The latest timestamp of the operations that the frontiers name; 0 when none is stored. -/
def timestampOf (log : Log) (frontiers : Frontiers) : Nat :=
  (frontiers.toList.filterMap fun id => (log.get? id).map Operation.timestamp).foldl max 0

end CausalDoc.Log
