import CausalDoc.Proofs.Document.Delta
import CausalDoc.Proofs.Log.Past

/- A log from its own listing.

   The operations of a log came in as they arrived; its listing has them in the order of
   their stamps. The listing puts everything behind what it depends on, so when some of it
   has been appended to an empty log, that log admits the next operation
   (`Log.Coherent.admits_next`), and in the end it has all operations of the original. What
   else a log keeps, its version, its frontiers and its clock, is determined by these. -/

namespace CausalDoc.Log

variable {log part : Log} {op : Operation} {a : AtomId} {before after : List Operation}

/-- `part` has taken the operations `before`, with which the listing of the log starts. -/
structure Retakes (log part : Log) (before after : List Operation) : Prop where
  coherent : part.Coherent
  listing : log.all = before ++ after
  stored : ∀ o, part.Stored o ↔ o ∈ before

namespace Coherent

theorem lamport?_of_retakes (h : log.Coherent) (hpart : log.Retakes part before after)
    (ha : part.contains a = true) : part.lamport? a = log.lamport? a := by
  obtain ⟨o, hget⟩ := hpart.coherent.contains_iff.1 ha
  obtain ⟨ho, hcovers⟩ := hpart.coherent.get?_eq_some_iff.1 hget
  have hlisted : o ∈ log.all := by
    rw [hpart.listing]
    exact List.mem_append_left _ ((hpart.stored o).1 ho)
  have hget' : log.get? a = some o := h.get?_eq_some_iff.2 ⟨h.mem_all.1 hlisted, hcovers⟩
  rw [lamport?, lamport?, hget, hget']

/-- The next operation of the listing is not among those before it. -/
theorem next_not_mem (h : log.Coherent) (hpart : log.Retakes part before (op :: after)) :
    op ∉ before := by
  intro hmem
  have hascending := (h.causal_since .empty).ascending
  rw [show log.since .empty = before ++ op :: after from hpart.listing] at hascending
  exact Stamp.lt_irrefl _
    ((List.pairwise_append.1 hascending).2.2 op hmem op List.mem_cons_self)

/-- What the next operation of the listing depends on has been taken. -/
theorem retakes_dep (h : log.Coherent) (hpart : log.Retakes part before (op :: after))
    {d : AtomId} (hd : d ∈ op.dependencies) : part.contains d = true := by
  rcases (h.causal_since .empty).grounded before op after hpart.listing d hd with
    hnone | ⟨-, o, ho, hcovers⟩
  · cases hnone
  · exact hpart.coherent.contains_of_covers ((hpart.stored o).2 ho) hcovers

theorem admits_next (h : log.Coherent) (hpart : log.Retakes part before (op :: after)) :
    part.Admits op := by
  have hop : log.Stored op := h.mem_all.1 (by rw [hpart.listing]; simp)
  refine ⟨h.sound hop, Nat.le_antisymm ?_ ?_, fun d hd => ?_⟩
  · -- the atom before it has been taken
    by_cases hzero : op.id.counter = 0
    · rw [hzero]
      exact Nat.zero_le _
    · have hprevious : part.contains ⟨op.id.peer, op.id.counter - 1⟩ = true :=
        h.retakes_dep hpart (Operation.mem_dependencies.2 (.inr (.inl ⟨rfl, by dsimp only; omega⟩)))
      rw [contains, VersionVector.includes_iff] at hprevious
      dsimp only at hprevious
      omega
  · -- and its own first atom has not
    apply Nat.not_lt.1
    intro hlt
    have hin : part.contains op.id = true := VersionVector.includes_iff.2 hlt
    obtain ⟨o, ho, hcovers⟩ := hpart.coherent.contains_iff_covers.1 hin
    have ho' := (hpart.stored o).1 ho
    have hlisted : log.Stored o := h.mem_all.1 (by rw [hpart.listing]; simp [ho'])
    have heq := h.eq_of_covers hlisted hop hcovers (Operation.covers_id (h.sound hop).length_pos)
    exact h.next_not_mem hpart (heq ▸ ho')
  · obtain ⟨l, hl, hlt⟩ := h.deps hop d hd
    exact ⟨l, (h.lamport?_of_retakes hpart (h.retakes_dep hpart hd)).trans hl, hlt⟩

theorem retakes_push (h : log.Coherent) (hpart : log.Retakes part before (op :: after)) :
    part.append op = .ok (part.push op) ∧ log.Retakes (part.push op) (before ++ [op]) after := by
  have hadmits := h.admits_next hpart
  refine ⟨append_eq hadmits.next, hpart.coherent.push hadmits, ?_, fun o => ?_⟩
  · rw [hpart.listing, List.append_assoc]
    rfl
  · rw [stored_push, hpart.stored, List.mem_append, List.mem_singleton]

/-- The rest of the listing can be appended, and that gives the log itself. -/
theorem foldlM_append (h : log.Coherent) :
    ∀ {after before : List Operation} {part : Log}, log.Retakes part before after →
      after.foldlM append part = .ok log
  | [], before, part, hpart => by
    have hsame : part = log := by
      refine hpart.coherent.ext_stored h fun o => ?_
      rw [hpart.stored, ← h.mem_all, hpart.listing, List.append_nil]
    rw [List.foldlM_nil, hsame]
    rfl
  | op :: after, before, part, hpart => by
    obtain ⟨happend, hnext⟩ := h.retakes_push hpart
    rw [List.foldlM_cons, happend]
    exact h.foldlM_append hnext

theorem foldlM_append_all (h : log.Coherent) : log.all.foldlM append .empty = .ok log :=
  h.foldlM_append ⟨coherent_empty, (List.nil_append _).symm, fun _ => Iff.rfl⟩

end Coherent

end CausalDoc.Log

namespace CausalDoc.Document

variable {doc : Document}

/-- The log of a reachable document is what appending its own listing to an empty log gives, each
operation without an error: the same histories, version, frontiers and clock, though the operations
had come in another order. The frontiers are, in their order, the last atoms of peers that no stored
operation lists, and so is the rest of the log determined by the operations in it. -/
theorem Reachable.log_from_listing (h : doc.Reachable) :
    doc.log.all.foldlM Log.append .empty = .ok doc.log ∧
    doc.log.frontiers.Ascending ∧
    (∀ id, id ∈ doc.log.frontiers.ids ↔
      doc.log.version.get? id.peer = some id.counter ∧ ∀ op, doc.log.Stored op → id ∉ op.deps) ∧
    ∀ other : Document, other.Reachable →
      (∀ op, other.log.Stored op ↔ doc.log.Stored op) → other.log = doc.log := by
  have hlog := h.lawful.log
  refine ⟨hlog.foldlM_append_all, hlog.ascending, fun id => ?_, fun other hother hsame =>
    hother.lawful.log.ext_stored hlog hsame⟩
  rw [hlog.frontiers, VersionVector.get?_eq_some_iff]

/-- A letter with the Lamport time 0. -/
def oldLetter : Operation := ⟨⟨2, 0⟩, 0, [], .root "t" .text, 0, .insert none (.text "a")⟩

/-- A letter with a later one. -/
def newLetter : Operation := ⟨⟨1, 0⟩, 5, [], .root "t" .text, 0, .insert none (.text "b")⟩

/-- The new letter came first. -/
def swapped : Document :=
  (((new Config.standard 9).receive (Batch.mk .updates [newLetter]).encode).document.receive
    (Batch.mk .updates [oldLetter]).encode).document

/-- The listing starts with the old one. -/
theorem log_from_listing_swapped :
    swapped.log.all = [oldLetter, newLetter] ∧
      [oldLetter, newLetter].foldlM Log.append .empty = .ok swapped.log := by
  have h : swapped.Reachable := .receive _ (.receive _ (.new Config.standard 9 (by decide)))
  have hlisting : swapped.log.all = [oldLetter, newLetter] := by decide +kernel
  refine ⟨hlisting, ?_⟩
  rw [← hlisting]
  exact (Reachable.log_from_listing h).1

end CausalDoc.Document
