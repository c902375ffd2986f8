import CausalDoc.Proofs.Document.Frontiers
import CausalDoc.Proofs.Network.Convergence
import Mathlib.Order.MinMax
import Mathlib.Data.Nat.Basic

/- Wall-clock timestamps on an honest run.

   A document that records timestamps dates an operation no earlier than any operation that it
   has applied, whatever its wall clock shows, and what a new operation depends on it has
   applied. So no operation of a run is dated earlier than one that it depends on (`InTime`).
   In a log this goes along the causal order (`Coherent.timestamp_le`), and as every stored atom
   is in the past of a frontier or is one, the latest timestamp is found at the frontiers
   (`Coherent.timestampOf_frontiers`). -/

namespace CausalDoc

/-- No operation is dated earlier than one that it depends on. -/
def InTime (Written : Operation → Prop) : Prop :=
  ∀ op, Written op → ∀ d ∈ op.dependencies, ∀ o, Written o → o.covers d = true →
    o.timestamp ≤ op.timestamp

theorem InTime.mono {Written Fewer : Operation → Prop} (hi : InTime Written)
    (hfewer : ∀ o, Fewer o → Written o) : InTime Fewer :=
  fun op hop d hd o ho hcovers => hi op (hfewer op hop) d hd o (hfewer o ho) hcovers

theorem InTime.orNew {Written : Operation → Prop} {store : Store} {op : Operation}
    (hi : InTime Written) (hc : Corpus Written) (hmore : Corpus (OrNew Written op))
    (h : store.Coherent) (hw : ∀ o, store.log.Stored o → Written o) (ha : store.Admits op)
    (htime : store.log.clock.latestTimestamp ≤ op.timestamp) : InTime (OrNew Written op) := by
  intro o hcase d hd o' hcase' hcovers
  rcases hcase with ho | rfl
  · -- what an old operation depends on is old
    obtain ⟨o'', ho'', hcovers'', -⟩ := hc.deps ho d hd
    obtain rfl := hmore.unique hcase' (.inl ho'') hcovers hcovers''
    exact hi o ho d hd o' ho'' hcovers
  · -- what the new one depends on is stored
    obtain ⟨o'', ho'', hcovers''⟩ :=
      h.log.contains_iff_covers.1 (ha.log.contains_dep h.log hd)
    obtain rfl := hmore.unique hcase' (.inl (hw o'' ho'')) hcovers hcovers''
    exact (h.log.timestamp.1 o' ho'').trans htime

namespace Log

variable {log : Log} {o op : Operation} {a b : AtomId}

theorem foldl_max_le_iff {xs : List Nat} {n m : Nat} :
    xs.foldl max n ≤ m ↔ n ≤ m ∧ ∀ x ∈ xs, x ≤ m := by
  induction xs generalizing n with
  | nil => simp
  | cons x xs ih => rw [List.foldl_cons, ih, max_le_iff, List.forall_mem_cons, and_assoc]

theorem timestampOf_le_iff {frontiers : Frontiers} {m : Nat} :
    log.timestampOf frontiers ≤ m ↔
      ∀ f ∈ frontiers.ids, ∀ op, log.get? f = some op → op.timestamp ≤ m := by
  rw [timestampOf, foldl_max_le_iff, and_iff_right (Nat.zero_le m)]
  simp only [List.mem_filterMap, Option.map_eq_some_iff]
  refine ⟨fun h f hf op hop => h _ ⟨f, hf, op, hop, rfl⟩, ?_⟩
  rintro h x ⟨f, hf, op, hop, rfl⟩
  exact h f hf op hop

namespace Coherent

variable (h : log.Coherent) (hi : InTime log.Stored)

include h hi

/-- Along one peer's history timestamps do not fall. -/
theorem timestamp_le_of_counter_le {peer c d : Nat} (hcd : c ≤ d)
    (ho : log.get? ⟨peer, c⟩ = some o) (hop : log.get? ⟨peer, d⟩ = some op) :
    o.timestamp ≤ op.timestamp := by
  induction d generalizing op with
  | zero =>
    obtain rfl := Nat.le_zero.1 hcd
    rw [ho, Option.some.injEq] at hop
    rw [hop]
  | succ d ih =>
    by_cases hlast : c = d + 1
    · rw [← hlast, ho, Option.some.injEq] at hop
      rw [hop]
    · obtain ⟨hstored, hcovers⟩ := h.get?_eq_some_iff.1 hop
      obtain ⟨hpeer, hfirst, hstop⟩ := Operation.covers_iff.1 hcovers
      dsimp only at hpeer hfirst hstop
      by_cases hinner : op.id.counter ≤ d
      · -- the atom before belongs to the same operation
        apply ih (by omega)
        refine h.get?_eq_some_iff.2 ⟨hstored, Operation.covers_iff.2 ⟨hpeer, hinner, ?_⟩⟩
        dsimp only
        omega
      · -- it is the predecessor of the operation
        have hdep : (⟨peer, d⟩ : AtomId) ∈ op.dependencies := by
          refine Operation.mem_dependencies.2 (.inr (.inl ⟨hpeer, ?_⟩))
          dsimp only
          omega
        obtain ⟨before, hbefore⟩ := h.contains_iff.1 (h.contains_dep hstored hdep)
        obtain ⟨hstored', hcovers'⟩ := h.get?_eq_some_iff.1 hbefore
        exact (ih (by omega) hbefore).trans (hi op hstored _ hdep before hstored' hcovers')

theorem timestamp_le_of_precedes (hab : log.Precedes a b) (ho : log.get? a = some o)
    (hop : log.get? b = some op) : o.timestamp ≤ op.timestamp := by
  obtain ⟨op', hop', hdep | ⟨hpeer, hlt⟩⟩ := hab
  · rw [hop, Option.some.injEq] at hop'
    obtain ⟨hstored, hcovers⟩ := h.get?_eq_some_iff.1 ho
    exact hi op (stored_of_get? hop) a (hop' ▸ hdep) o hstored hcovers
  · obtain ⟨p, c⟩ := a
    obtain ⟨q, d⟩ := b
    obtain rfl : p = q := hpeer
    exact h.timestamp_le_of_counter_le hi (Nat.le_of_lt hlt) ho hop

theorem timestamp_le (hab : log.HappensBefore a b) (ho : log.get? a = some o)
    (hop : log.get? b = some op) : o.timestamp ≤ op.timestamp := by
  induction hab generalizing op with
  | single hab => exact h.timestamp_le_of_precedes hi hab ho hop
  | tail _ hbc ih =>
    obtain ⟨mid, hmid⟩ := h.contains_iff.1 (h.contains_of_precedes hbc)
    exact (ih hmid).trans (h.timestamp_le_of_precedes hi hbc hmid hop)

/-- The latest timestamp is that of the frontiers. -/
theorem timestampOf_frontiers : log.timestampOf log.frontiers = log.clock.latestTimestamp := by
  apply Nat.le_antisymm
  · exact timestampOf_le_iff.2 fun f _ op hop => h.timestamp.1 op (stored_of_get? hop)
  · rcases h.timestamp.2 with hzero | ⟨op, hop, hlatest⟩
    · rw [hzero]
      exact Nat.zero_le _
    · -- the operation with the latest one lies below a frontier
      have hfirst := Operation.covers_id (h.sound hop).length_pos
      have hget := h.get?_eq_some_iff.2 ⟨hop, hfirst⟩
      obtain ⟨f, hf, hreach⟩ := h.exists_frontier (h.contains_of_covers hop hfirst)
      obtain ⟨top, htop⟩ := h.contains_iff.1 (h.contains_of_frontier hf)
      have hle : op.timestamp ≤ top.timestamp := by
        rcases hreach with rfl | hbefore
        · rw [hget, Option.some.injEq] at htop
          rw [htop]
        · exact h.timestamp_le hi hbefore hget htop
      rw [← hlatest]
      exact hle.trans (timestampOf_le_iff.1 (Nat.le_refl _) f hf top htop)

end Coherent

end Log

namespace Network

/-- Every document records timestamps. As documents stay as they were set up, they have done so
from the start. -/
def Records (net : Network) : Prop :=
  ∀ peer replica, net.replicas peer = some replica → replica.document.config.recordTimestamps = true

variable {net : Network}

theorem records_empty : empty.Records := fun _ _ hnone => by cases hnone

theorem Records.put {peer : Nat} {replica : Replica} (h : net.Records)
    (hrecords : replica.document.config.recordTimestamps = true) :
    (net.put peer replica).Records := by
  intro p r hr
  rw [replicas_put] at hr
  split at hr
  · rw [← Option.some.inj hr]
    exact hrecords
  · exact h p r hr

theorem Faithful.records_before {after : Network} (h : net.Faithful) (hstep : net.Step after)
    (hrecords : after.Records) : net.Records := by
  intro peer replica hreplica
  obtain ⟨later, hlater, hconfig, -⟩ := h.step_keeps hstep hreplica
  rw [← hconfig]
  exact hrecords peer later hlater

/-- When all documents record timestamps, operations are in time. -/
theorem Honest.inTime (h : net.Honest) (hrecords : net.Records) : InTime net.Written := by
  induction h with
  | refl =>
    rintro op ⟨_, hnone, -⟩
    cases hnone
  | @tail before after hbefore hstep ih =>
    have hfaithful : before.Faithful := Honest.faithful hbefore
    have hrecorded := hfaithful.records_before hstep hrecords
    obtain ⟨hafter, hsame | ⟨peer, replica, op, hreplica, ha, -, -, ⟨wallTime, htime⟩, hmore⟩⟩ :=
      hfaithful.step_writes hstep
    · rw [hsame]
      exact ih hrecorded
    · have hcorpus := hafter.corpus
      rw [hmore] at hcorpus ⊢
      have hholds := hfaithful.holds hreplica
      apply (ih hrecorded).orNew hfaithful.corpus hcorpus hholds.lawful.store hholds.written ha
      rw [htime, hrecorded peer replica hreplica, if_pos rfl]
      exact Nat.le_max_right _ _

/-- When all documents of an honest run record timestamps, these follow causality, whatever the wall
clocks show at any edit.

No operation is dated earlier than one of which an atom is in the causal past of one of its atoms,
among all that is written and in the log of every document; and the timestamp of a document's
frontiers is the latest of its log. -/
theorem Honest.keeps_time (h : net.Honest) (hrecords : net.Records) :
    (∀ o op a b, net.Written o → net.Written op → o.covers a = true → op.covers b = true →
      PastIn net.Written a b → o.timestamp ≤ op.timestamp) ∧
    ∀ peer replica, net.replicas peer = some replica →
      (∀ o op, replica.document.log.Stored o → replica.document.log.Stored op →
        replica.document.log.Influences o op → o.timestamp ≤ op.timestamp) ∧
      replica.document.log.timestampOf replica.document.log.frontiers =
        replica.document.log.clock.latestTimestamp := by
  have hc := h.faithful.corpus
  have hi := h.inTime hrecords
  refine ⟨fun o op a b ho hop ha hb hab => ?_, fun peer replica hreplica => ⟨?_, ?_⟩⟩
  · -- in the log of its author an operation stands with its past
    obtain ⟨author, hauthor, hstored⟩ := hop
    have hholds := h.faithful.holds hauthor
    have hlog := hholds.lawful.log
    have hknown := hlog.contains_of_covers hstored hb
    have hbefore := hc.happensBefore_of_contains hholds.lawful.store hholds.written hab hknown
    have hstored' := hc.stored_of_contains hholds.lawful.store hholds.written ho ha
      (hbefore.contains hlog)
    exact hlog.timestamp_le (hi.mono hholds.written) hbefore
      (hlog.get?_eq_some_iff.2 ⟨hstored', ha⟩) (hlog.get?_eq_some_iff.2 ⟨hstored, hb⟩)
  · rintro o op ho hop ⟨a, b, ha, hb, hbefore⟩
    have hholds := h.faithful.holds hreplica
    have hlog := hholds.lawful.log
    exact hlog.timestamp_le (hi.mono hholds.written) hbefore
      (hlog.get?_eq_some_iff.2 ⟨ho, ha⟩) (hlog.get?_eq_some_iff.2 ⟨hop, hb⟩)
  · have hholds := h.faithful.holds hreplica
    exact hholds.lawful.log.timestampOf_frontiers (hi.mono hholds.written)

/-- A replica that took over what another one typed at 5, and types itself at 3 by its clock. -/
def behind : Replica :=
  ((Replica.new Config.standard 2).merge (typed 1 "ab")).edit (.root "t" .text)
    (.insertText 2 "c") 3

/-- Its operation is dated as late as the one that it depends on. -/
theorem keeps_time_behind :
    behind.document.log.timestampOf behind.document.log.frontiers = 5 ∧
      behind.document.log.timestampOf behind.document.log.frontiers =
        behind.document.log.clock.latestTimestamp := by
  have hsize : ((typed 1 "ab").batchFor
      (some (Replica.new Config.standard 2).document.version)).encode.length <
        0x10000000000000000 := by
    decide +kernel
  have hjoin := Honest.step .refl (.join Config.standard 1 (by decide) rfl)
  have hjoin' := hjoin.step (.join Config.standard 2 (by decide) rfl)
  have hedit := hjoin'.step
    (@Step.edit _ 1 (.new Config.standard 1) (.root "t" .text) (.insertText 0 "ab") 5 rfl trivial
      (by decide))
  have hmerge := hedit.step
    (@Step.merge _ 2 1 (.new Config.standard 2) (typed 1 "ab") rfl rfl hsize)
  have hedit' := hmerge.step
    (@Step.edit _ 2 _ (.root "t" .text) (.insertText 2 "c") 3 rfl trivial (by decide))
  refine ⟨by decide +kernel, ((Honest.keeps_time hedit' ?_).2 2 behind rfl).2⟩
  have htyped : (typed 1 "ab").document.config.recordTimestamps = true := by decide +kernel
  have htaken : ((Replica.new Config.standard 2).merge
      (typed 1 "ab")).document.config.recordTimestamps = true := by
    decide +kernel
  have hbehind : behind.document.config.recordTimestamps = true := by decide +kernel
  exact ((((records_empty.put rfl).put rfl).put htyped).put htaken).put hbehind

end Network

end CausalDoc
