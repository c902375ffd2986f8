import CausalDoc.Proofs.Document.Corpus
import CausalDoc.Proofs.Document.Reachable
import Mathlib.Order.Bounds.Basic

/- Delivery of genuine operations.

   What a replica is sent are the operations that replicas wrote, or suffixes of them
   (`SuffixIn`). A document that was sent nothing else accounts for all it has seen
   (`Delivers`): an operation is known to the end, or parked under the first atom that it
   misses, or still in the queue. Applying an operation releases exactly those that waited
   for one of its atoms, and for the others the first missing atom stays the same, so the
   account is kept (`Delivers.advance`). With the queue empty it says which atoms are in the
   log: the largest causally closed set of those seen (`Delivers.isGreatest_atoms`). -/

namespace CausalDoc

namespace Operation

variable {op : Operation}

theorem suffix_eq_of_id {c d : Nat} (h : (op.suffix c).id = (op.suffix d).id) :
    op.suffix c = op.suffix d := by
  rw [suffix_id, suffix_id, AtomId.mk.injEq] at h
  have hmax := h.2
  by_cases hc : op.id.counter < c
  · have hcd : c = d := by omega
    rw [hcd]
  · rw [suffix_of_le (by omega), suffix_of_le (by omega)]

/-- A suffix depends on what the operation depends on, and on the atom before it. -/
theorem mem_dependencies_suffix {c : Nat} {d : AtomId} (hc : c < op.stop)
    (hd : d ∈ (op.suffix c).dependencies) :
    d ∈ op.dependencies ∨ op.covers d = true ∧ d.counter < c := by
  rw [mem_dependencies, suffix_deps, suffix_container, suffix_id] at hd
  rw [mem_dependencies, covers_iff]
  rcases hd with hd | ⟨hpeer, hcounter⟩ | hd
  · exact .inl (.inl hd)
  · dsimp only at hpeer hcounter
    by_cases hfirst : op.id.counter < c
    · right
      omega
    · left
      right
      left
      omega
  · exact .inl (.inr (.inr hd))

end Operation

/-- The operations that a byte string brings; none when it is not a batch. -/
def Batch.carried (bytes : Wire.Bytes) : List Operation :=
  match Batch.decode bytes with
  | .ok batch => batch.operations
  | .error _ => []

/-- The operation is one of the operations, or a suffix of one. -/
def SuffixIn (Written : Operation → Prop) (op : Operation) : Prop :=
  ∃ o, Written o ∧ ∃ counter < o.stop, op = o.suffix counter

namespace SuffixIn

variable {Written More : Operation → Prop} {op : Operation}

theorem mono (hmore : ∀ o, Written o → More o) (h : SuffixIn Written op) : SuffixIn More op := by
  obtain ⟨o, ho, hcut⟩ := h
  exact ⟨o, hmore o ho, hcut⟩

theorem of_written (hsound : op.Sound) (h : Written op) : SuffixIn Written op :=
  ⟨op, h, 0, hsound.stop_pos, (Operation.suffix_of_le (Nat.zero_le _)).symm⟩

variable (hc : Corpus Written) (h : SuffixIn Written op)

include hc h

theorem sound : op.Sound := by
  obtain ⟨o, ho, c, hstop, rfl⟩ := h
  exact (hc.sound ho).suffix hstop

theorem dep_written {d : AtomId} (hd : d ∈ op.dependencies) :
    ∃ o, Written o ∧ o.covers d = true ∧ o.lamport + (d.counter - o.id.counter) < op.lamport := by
  obtain ⟨o, ho, c, hstop, rfl⟩ := h
  rw [Operation.suffix_lamport]
  rcases Operation.mem_dependencies_suffix hstop hd with hdep | ⟨hcovers, hlt⟩
  · obtain ⟨o', ho', hcovers, hlt⟩ := hc.deps ho d hdep
    exact ⟨o', ho', hcovers, by omega⟩
  · have hfirst := (Operation.covers_iff.1 hcovers).2.1
    exact ⟨o, ho, hcovers, by omega⟩

theorem eq_of_id {op' : Operation} (h' : SuffixIn Written op') (hid : op.id = op'.id) :
    op = op' := by
  have hcovers := Operation.covers_id (h.sound hc).length_pos
  have hcovers' := Operation.covers_id (h'.sound hc).length_pos
  obtain ⟨o, ho, c, hstop, rfl⟩ := h
  obtain ⟨o', ho', c', hstop', rfl⟩ := h'
  have hin := ((Operation.covers_suffix hstop).1 hcovers).1
  have hin' := ((Operation.covers_suffix hstop').1 hcovers').1
  rw [← hid] at hin'
  obtain rfl := hc.unique ho ho' hin hin'
  exact Operation.suffix_eq_of_id hid

end SuffixIn

namespace Document

variable {doc after : Document} {op : Operation} {m : AtomId}

/-- The log holds every atom of the operation. -/
def Knows (doc : Document) (op : Operation) : Prop :=
  ∀ a, op.covers a = true → doc.log.contains a = true

theorem knows_iff (hpos : 0 < op.length) :
    doc.Knows op ↔ op.stop ≤ doc.version.nextCounter op.id.peer := by
  refine ⟨?_, ?_⟩
  · intro h
    have hlast := h op.lastId (Operation.covers_lastId hpos)
    have hend := Operation.stop_eq_lastId hpos
    rw [Log.contains, VersionVector.includes_iff, Operation.lastId_peer] at hlast
    change _ < doc.version.nextCounter _ at hlast
    omega
  · intro h a ha
    obtain ⟨hpeer, -, hstop⟩ := Operation.covers_iff.1 ha
    rw [Log.contains, VersionVector.includes_iff, hpeer]
    show _ < doc.version.nextCounter _
    omega

/-- The first missing atom stays the same until it is there. -/
theorem missing?_of_grown (hgrown : ∀ a, doc.log.contains a = true → after.log.contains a = true)
    (h : doc.missing? op = some m) (hm : after.log.contains m = false) :
    after.missing? op = some m := by
  unfold missing? at h ⊢
  -- what comes before `m` is there, and still is
  rw [List.find?_eq_some_iff_append] at h ⊢
  obtain ⟨-, before, behind, hsplit, hbefore⟩ := h
  refine ⟨by rw [hm]; rfl, before, behind, hsplit, fun d hd => ?_⟩
  have := hbefore d hd
  rw [Bool.not_not] at this ⊢
  exact hgrown d this

end Document

/-! ## The account -/

/-- The document has seen the operations `seen` and nothing else, and accounts for each of them
while it works off the queue. -/
structure Delivers (Written : Operation → Prop) (seen : List Operation) (doc : Document)
    (queue : List Operation) : Prop where
  lawful : doc.Lawful
  genuine : ∀ op ∈ seen, SuffixIn Written op
  written : ∀ op, doc.log.Stored op → Written op
  /-- What is logged was seen. -/
  logged : ∀ op, doc.log.Stored op → op ∈ seen
  queued : ∀ op ∈ queue, op ∈ seen
  /-- What is parked was seen and waits for the first atom that it misses. -/
  waiting : ∀ m op, doc.pending.Waits m op → op ∈ seen ∧ doc.missing? op = some m
  /-- What was seen is known, or parked, or queued. -/
  settled : ∀ op ∈ seen, doc.Knows op ∨ op ∈ doc.pending.operations ∨ op ∈ queue

def atomsOf (seen : List Operation) : Set AtomId := {a | ∃ op ∈ seen, op.covers a = true}

/-- With an atom the set holds all that directly precedes it among the operations. -/
def CausallyClosed (seen : List Operation) (atoms : Set AtomId) : Prop :=
  ∀ b ∈ atoms, ∀ a, PrecedesIn (· ∈ seen) a b → a ∈ atoms

def Document.atoms (doc : Document) : Set AtomId := {a | doc.version.includes a = true}

namespace Delivers

variable {Written More : Operation → Prop} {seen : List Operation} {doc : Document}
  {op : Operation} {queue : List Operation}

theorem mono (hmore : ∀ o, Written o → More o) (h : Delivers Written seen doc queue) :
    Delivers More seen doc queue where
  lawful := h.lawful
  genuine := fun op hop => (h.genuine op hop).mono hmore
  written := fun op hop => hmore op (h.written op hop)
  logged := h.logged
  queued := h.queued
  waiting := h.waiting
  settled := h.settled

theorem enqueue (h : Delivers Written seen doc []) {ops : List Operation}
    (hops : ∀ op ∈ ops, SuffixIn Written op) : Delivers Written (seen ++ ops) doc ops where
  lawful := h.lawful
  genuine := by
    intro op hop
    rcases List.mem_append.1 hop with hop | hop
    · exact h.genuine op hop
    · exact hops op hop
  written := h.written
  logged := fun op hop => List.mem_append_left _ (h.logged op hop)
  queued := fun op hop => List.mem_append_right _ hop
  waiting := by
    intro m op hop
    obtain ⟨hin, hm⟩ := h.waiting m op hop
    exact ⟨List.mem_append_left _ hin, hm⟩
  settled := by
    intro op hop
    rcases List.mem_append.1 hop with hop | hop
    · rcases h.settled op hop with hknown | hparked | hnone
      · exact .inl hknown
      · exact .inr (.inl hparked)
      · exact absurd hnone List.not_mem_nil
    · exact .inr (.inr hop)

section Step

variable (hc : Corpus Written) (h : Delivers Written seen doc (op :: queue))

include h

/-- A queued operation that is known already needs nothing. -/
theorem drop (hknown : doc.Knows op) : Delivers Written seen doc queue where
  lawful := h.lawful
  genuine := h.genuine
  written := h.written
  logged := h.logged
  queued := fun o ho => h.queued o (List.mem_cons_of_mem _ ho)
  waiting := h.waiting
  settled := by
    intro o ho
    rcases h.settled o ho with hknown' | hparked | hqueued
    · exact .inl hknown'
    · exact .inr (.inl hparked)
    · rcases List.mem_cons.1 hqueued with rfl | hqueued
      · exact .inl hknown
      · exact .inr (.inr hqueued)

/-- A queued operation that misses nothing is taken, and what waited for it is queued. -/
theorem take (hw : Written op) (ha : doc.store.Admits op) (hlawful : (doc.take op).Lawful) :
    Delivers Written seen (doc.take op)
      (queue ++ (doc.pending.takeReady op.id.peer op.stop).1) := by
  have hop := h.queued op List.mem_cons_self
  have hperm := Pending.operations_takeReady doc.pending op.id.peer op.stop
  have hgrown : ∀ a, doc.log.contains a = true → (doc.take op).log.contains a = true :=
    fun a hin => ha.log.contains_push.2 (.inl hin)
  refine ⟨hlawful, h.genuine, ?_, ?_, ?_, ?_, ?_⟩
  · intro o ho
    rcases Log.stored_push.1 ho with ho | rfl
    · exact h.written o ho
    · exact hw
  · intro o ho
    rcases Log.stored_push.1 ho with ho | rfl
    · exact h.logged o ho
    · exact hop
  · intro o ho
    rcases List.mem_append.1 ho with ho | ho
    · exact h.queued o (List.mem_cons_of_mem _ ho)
    · obtain ⟨m, -, hwaits⟩ := Pending.mem_takeReady.1 ho
      exact (h.waiting m o hwaits).1
  · -- what still waits does not wait for an atom of this operation
    intro m o hwaits
    obtain ⟨hwaits, hreached⟩ := Pending.waits_takeReady.1 hwaits
    obtain ⟨hin, hm⟩ := h.waiting m o hwaits
    refine ⟨hin, Document.missing?_of_grown hgrown hm ?_⟩
    apply Bool.eq_false_iff.2
    intro hthere
    rcases ha.log.contains_push.1 hthere with hthere | hcovers
    · change doc.log.contains m = true at hthere
      rw [(Document.missing?_eq_some hm).2] at hthere
      cases hthere
    · obtain ⟨hpeer, -, hstop⟩ := Operation.covers_iff.1 hcovers
      exact hreached ⟨hpeer, hstop⟩
  · intro o ho
    rcases h.settled o ho with hknown | hparked | hqueued
    · exact .inl fun a hcovers => hgrown a (hknown a hcovers)
    · rcases List.mem_append.1 (hperm.mem_iff.1 hparked) with hreleased | hparked
      · exact .inr (.inr (List.mem_append_right _ hreleased))
      · exact .inr (.inl hparked)
    · rcases List.mem_cons.1 hqueued with rfl | hqueued
      · exact .inl fun a hcovers => ha.log.contains_push.2 (.inr hcovers)
      · exact .inr (.inr (List.mem_append_left _ hqueued))

include hc

/-- A queued operation that misses an atom is parked under it, unless it is parked already. -/
theorem hold {m : AtomId} (hm : doc.missing? op = some m) (hlawful : (doc.hold m op).Lawful) :
    Delivers Written seen (doc.hold m op) queue := by
  have hop := h.queued op List.mem_cons_self
  rcases doc.hold_cases m op with ⟨hid, hsame⟩ | ⟨pending, hpush, hafter⟩
  · rw [hsame]
    -- the one that is parked with the same first atom is the same operation
    have hparked : op ∈ doc.pending.operations := by
      obtain ⟨o, ho, hsameid⟩ := (h.lawful.pending.parked _).1 hid
      obtain ⟨m', hwaits⟩ := Pending.mem_operations.1 ho
      have hgenuine := h.genuine o (h.waiting m' o hwaits).1
      rwa [← hgenuine.eq_of_id hc (h.genuine op hop) hsameid]
    refine ⟨h.lawful, h.genuine, h.written, h.logged,
      fun o ho => h.queued o (List.mem_cons_of_mem _ ho), h.waiting, fun o ho => ?_⟩
    rcases h.settled o ho with hknown | hold | hqueued
    · exact .inl hknown
    · exact .inr (.inl hold)
    · rcases List.mem_cons.1 hqueued with rfl | hqueued
      · exact .inr (.inl hparked)
      · exact .inr (.inr hqueued)
  · rw [hafter] at hlawful ⊢
    have hperm := Pending.operations_push? hpush
    refine ⟨hlawful, h.genuine, h.written, h.logged,
      fun o ho => h.queued o (List.mem_cons_of_mem _ ho), ?_, fun o ho => ?_⟩
    · intro m' o hwaits
      rcases (Pending.waits_push? hpush).1 hwaits with ⟨rfl, rfl⟩ | hwaits
      · exact ⟨hop, hm⟩
      · exact h.waiting m' o hwaits
    · rcases h.settled o ho with hknown | hold | hqueued
      · exact .inl hknown
      · exact .inr (.inl (hperm.mem_iff.2 (List.mem_cons_of_mem _ hold)))
      · rcases List.mem_cons.1 hqueued with rfl | hqueued
        · exact .inr (.inl (hperm.mem_iff.2 List.mem_cons_self))
        · exact .inr (.inr hqueued)

/-- An operation that comes off the queue is known, or misses an atom, or is ready as it is. -/
theorem judge_cases :
    doc.Knows op ∧ doc.judge op = .known ∨
      (∃ m, doc.missing? op = some m ∧ doc.judge op = .waiting m op) ∨
      Written op ∧ doc.judge op = .ready op ∧ doc.store.Admits op := by
  obtain ⟨whole, hwhole, counter, hstop, rfl⟩ := h.genuine op (h.queued op List.mem_cons_self)
  have hstore := h.lawful.store
  by_cases hstored : doc.log.Stored whole
  · left
    refine ⟨fun a ha => ?_, hc.judge_known hstore h.written hwhole hstop hstored⟩
    exact h.lawful.log.contains_of_covers hstored ((Operation.covers_suffix hstop).1 ha).1
  · right
    cases hm : doc.missing? (whole.suffix counter) with
    | some m =>
      left
      exact ⟨m, rfl, hc.judge_waiting hstore h.written hwhole hstop hstored hm⟩
    | none =>
      right
      obtain ⟨hsame, hjudge, hadmits⟩ :=
        hc.judge_ready hstore h.written hwhole hstop hstored hm
      rw [hsame] at hjudge ⊢
      exact ⟨hwhole, hjudge, hadmits⟩

theorem advance (hwritable : ∀ o, Written o → o.Writable) :
    Delivers Written seen (doc.advance op).1 (queue ++ (doc.advance op).2) := by
  have hgenuine := h.genuine op (h.queued op List.mem_cons_self)
  have hlawful : (doc.advance op).1.Lawful := by
    obtain ⟨whole, hwhole, counter, hstop, rfl⟩ := hgenuine
    have hsound := hc.sound hwhole
    exact (h.lawful.advance (hsound.suffix hstop)
      ((hwritable whole hwhole).suffix hsound hstop)).1
  unfold Document.advance at hlawful ⊢
  rcases h.judge_cases hc with ⟨hknows, hjudge⟩ | ⟨m, hm, hjudge⟩ | ⟨hwritten, hjudge, hadmits⟩
  · rw [hjudge, List.append_nil]
    exact h.drop hknows
  · rw [hjudge] at hlawful ⊢
    rw [List.append_nil]
    exact h.hold hc hm hlawful
  · rw [hjudge] at hlawful ⊢
    exact h.take hwritten hadmits hlawful

end Step

theorem receive (h : Delivers Written seen doc []) (hc : Corpus Written)
    (hwritable : ∀ o, Written o → o.Writable) {bytes : Wire.Bytes}
    (hbytes : ∀ op ∈ Batch.carried bytes, SuffixIn Written op) :
    Delivers Written (seen ++ Batch.carried bytes) (doc.receive bytes).document [] := by
  apply Document.receive_invariant doc bytes
  · exact fun d o rest hd => hd.advance hc hwritable
  · intro e he
    have hnone : Batch.carried bytes = [] := by
      rw [Batch.carried, he]
    rw [hnone, List.append_nil]
    exact h
  · intro batch hbatch
    have hcarried : Batch.carried bytes = batch.operations := by
      rw [Batch.carried, hbatch]
    rw [hcarried] at hbytes ⊢
    exact h.enqueue hbytes

/-- The account is kept when the document writes an operation. No seen operation waits for its
atoms, for what they depend on is written already. -/
theorem write (h : Delivers Written seen doc []) (hc : Corpus Written)
    (hown : ∀ o, Written o → o.id.peer = op.id.peer → doc.log.Stored o)
    (ha : doc.store.Admits op) (hwritable : op.Writable) :
    Delivers (OrNew Written op) (seen ++ [op]) (doc.write op) [] := by
  have hgrown : ∀ a, doc.log.contains a = true → (doc.write op).log.contains a = true :=
    fun a hin => ha.log.contains_push.2 (.inl hin)
  refine ⟨h.lawful.write ha hwritable, ?_, ?_, ?_, ?_, ?_, ?_⟩
  · intro o ho
    rcases List.mem_append.1 ho with ho | ho
    · exact (h.genuine o ho).mono fun _ => .inl
    · rw [List.mem_singleton.1 ho]
      exact .of_written ha.log.sound (.inr rfl)
  · intro o ho
    rcases Log.stored_push.1 ho with ho | heq
    · exact .inl (h.written o ho)
    · exact .inr heq
  · intro o ho
    rcases Log.stored_push.1 ho with ho | heq
    · exact List.mem_append_left _ (h.logged o ho)
    · exact List.mem_append_right _ (List.mem_singleton.2 heq)
  · exact fun o ho => absurd ho List.not_mem_nil
  · intro m o hwaits
    obtain ⟨hin, hm⟩ := h.waiting m o hwaits
    obtain ⟨hdep, hmissing⟩ := Document.missing?_eq_some hm
    refine ⟨List.mem_append_left _ hin, Document.missing?_of_grown hgrown hm ?_⟩
    apply Bool.eq_false_iff.2
    intro hthere
    -- the author of the new operation stores all that it wrote before
    obtain ⟨o', ho', hcovers, -⟩ := (h.genuine o hin).dep_written hc hdep
    have hold : doc.log.contains m = true := by
      rcases ha.log.contains_push.1 hthere with hthere | hnew
      · exact hthere
      · have hpeer : o'.id.peer = op.id.peer := Operation.peer_eq_of_covers hcovers hnew
        exact h.lawful.log.contains_of_covers (hown o' ho' hpeer) hcovers
    rw [hmissing] at hold
    cases hold
  · intro o ho
    rcases List.mem_append.1 ho with ho | ho
    · rcases h.settled o ho with hknown | hparked | hnone
      · exact .inl fun a hcovers => hgrown a (hknown a hcovers)
      · exact .inr (.inl hparked)
      · exact absurd hnone List.not_mem_nil
    · rw [List.mem_singleton.1 ho]
      exact .inl fun a hcovers => ha.log.contains_push.2 (.inr hcovers)

/-! ## What the account says -/

section Settled

variable (hc : Corpus Written) (h : Delivers Written seen doc [])

include hc h

theorem knows_of_contains {a : AtomId} (hop : op ∈ seen) (hcovers : op.covers a = true)
    (ha : doc.log.contains a = true) :
    doc.Knows op ∧ ∀ d ∈ op.dependencies, doc.log.contains d = true := by
  obtain ⟨whole, hwhole, counter, hstop, rfl⟩ := h.genuine op hop
  have hin := ((Operation.covers_suffix hstop).1 hcovers).1
  have hstored : doc.log.Stored whole :=
    hc.stored_of_contains h.lawful.store h.written hwhole hin ha
  refine ⟨fun b hb => ?_, fun d hd => ?_⟩
  · exact h.lawful.log.contains_of_covers hstored ((Operation.covers_suffix hstop).1 hb).1
  · rcases Operation.mem_dependencies_suffix hstop hd with hdep | ⟨hcovers, -⟩
    · exact h.lawful.log.contains_dep hstored hdep
    · exact h.lawful.log.contains_of_covers hstored hcovers

/-- What was seen and is not known is parked, and nothing else is. -/
theorem mem_operations_iff :
    op ∈ doc.pending.operations ↔ op ∈ seen ∧ ¬ doc.Knows op := by
  refine ⟨?_, ?_⟩
  · intro hop
    obtain ⟨m, hwaits⟩ := Pending.mem_operations.1 hop
    obtain ⟨hin, hm⟩ := h.waiting m op hwaits
    refine ⟨hin, fun hknows => ?_⟩
    -- a known operation misses nothing
    obtain ⟨hdep, hmissing⟩ := Document.missing?_eq_some hm
    have hfirst := Operation.covers_id ((h.genuine op hin).sound hc).length_pos
    have hthere := (h.knows_of_contains hc hin hfirst (hknows op.id hfirst)).2 m hdep
    rw [hmissing] at hthere
    cases hthere
  · intro hgiven
    obtain ⟨hin, hnot⟩ := hgiven
    rcases h.settled op hin with hknown | hparked | hnone
    · exact absurd hknown hnot
    · exact hparked
    · exact absurd hnone List.not_mem_nil

omit hc in
/-- The atoms that are waited for are the first missing ones of the parked operations. -/
theorem mem_missing_iff {m : AtomId} :
    m ∈ doc.pending.missing ↔ ∃ op ∈ doc.pending.operations, doc.missing? op = some m := by
  rw [Pending.mem_missing h.lawful.pending]
  refine ⟨?_, ?_⟩
  · intro hgiven
    obtain ⟨op, hwaits⟩ := hgiven
    exact ⟨op, Pending.mem_operations.2 ⟨m, hwaits⟩, (h.waiting m op hwaits).2⟩
  · intro hgiven
    obtain ⟨op, hop, hm⟩ := hgiven
    obtain ⟨m', hwaits⟩ := Pending.mem_operations.1 hop
    obtain ⟨-, hm'⟩ := h.waiting m' op hwaits
    rw [hm, Option.some.injEq] at hm'
    rw [hm']
    exact ⟨op, hwaits⟩

/-- A seen atom with all its past seen is in the log. -/
theorem contains_of_closed {atoms : Set AtomId} (hseen : atoms ⊆ atomsOf seen)
    (hclosed : CausallyClosed seen atoms) {a : AtomId} (ha : a ∈ atoms) :
    doc.log.contains a = true := by
  -- by induction on the Lamport time of the atom, as what an operation misses is older
  suffices older : ∀ l, ∀ a ∈ atoms, ∀ whole, Written whole → whole.covers a = true →
      whole.lamport + (a.counter - whole.id.counter) = l → doc.log.contains a = true by
    obtain ⟨op, hop, hcovers⟩ := hseen ha
    obtain ⟨whole, hwhole, counter, hstop, rfl⟩ := h.genuine op hop
    exact older _ a ha whole hwhole ((Operation.covers_suffix hstop).1 hcovers).1 rfl
  intro l
  induction l using Nat.strong_induction_on with
  | _ l ih =>
    intro a ha whole hwhole hwholea hl
    obtain ⟨op, hop, hcovers⟩ := hseen ha
    by_cases hknows : doc.Knows op
    · exact hknows a hcovers
    · exfalso
      obtain ⟨m, hwaits⟩ := Pending.mem_operations.1 ((h.mem_operations_iff hc).2 ⟨hop, hknows⟩)
      obtain ⟨hdep, hmissing⟩ := Document.missing?_eq_some (h.waiting m op hwaits).2
      have hm : m ∈ atoms := hclosed a ha m ⟨op, hop, hcovers, .inl hdep⟩
      obtain ⟨o, ho, hom, hlt⟩ := (h.genuine op hop).dep_written hc hdep
      have hle : op.lamport ≤ l := by
        obtain ⟨whole', hwhole', counter, hstop, rfl⟩ := h.genuine op hop
        obtain ⟨hin, hcut⟩ := (Operation.covers_suffix hstop).1 hcovers
        obtain rfl := hc.unique hwhole hwhole' hwholea hin
        rw [Operation.suffix_lamport]
        omega
      have hless : o.lamport + (m.counter - o.id.counter) < l := by
        calc o.lamport + (m.counter - o.id.counter)
            < op.lamport := hlt
          _ ≤ l := hle
      have hthere := ih _ hless m hm o ho hom rfl
      rw [hmissing] at hthere
      cases hthere

/-- The version covers the largest causally closed set of seen atoms. -/
theorem isGreatest_atoms :
    IsGreatest {atoms | atoms ⊆ atomsOf seen ∧ CausallyClosed seen atoms} doc.atoms := by
  refine ⟨⟨?_, ?_⟩, ?_⟩
  · intro a ha
    obtain ⟨op, hop, hcovers⟩ := h.lawful.log.contains_iff_covers.1 ha
    exact ⟨op, h.logged op hop, hcovers⟩
  · intro b hb a hgiven
    rcases hgiven with ⟨op, hop, hcovers, hdep | ⟨hpeer, hlt⟩⟩
    · exact (h.knows_of_contains hc hop hcovers hb).2 a hdep
    · exact Log.contains_of_le hb hpeer (Nat.le_of_lt hlt)
  · intro atoms hgiven a ha
    obtain ⟨hseen, hclosed⟩ := hgiven
    exact h.contains_of_closed hc hseen hclosed ha

/-- Nothing is parked when all the past of what was seen was seen. -/
theorem operations_eq_nil (hclosed : CausallyClosed seen (atomsOf seen)) :
    doc.pending.operations = [] := by
  apply List.eq_nil_iff_forall_not_mem.2
  intro op hop
  obtain ⟨hin, hnot⟩ := (h.mem_operations_iff hc).1 hop
  apply hnot
  intro a ha
  exact h.contains_of_closed hc (fun _ hb => hb) hclosed ⟨op, hin, ha⟩

theorem advance_seen (hop : op ∈ seen) : doc.advance op = (doc, []) := by
  obtain ⟨whole, hwhole, counter, hstop, hcut⟩ := h.genuine op hop
  have hpos := ((h.genuine op hop).sound hc).length_pos
  unfold Document.advance
  by_cases hknows : doc.Knows op
  · rw [Document.judge_of_le ((Document.knows_iff hpos).1 hknows)]
  · obtain ⟨m, hwaits⟩ := Pending.mem_operations.1 ((h.mem_operations_iff hc).2 ⟨hop, hknows⟩)
    obtain ⟨-, hm⟩ := h.waiting m op hwaits
    have hnew : ¬ doc.log.Stored whole := by
      intro hstored
      apply hknows
      intro a ha
      rw [hcut] at ha
      exact h.lawful.log.contains_of_covers hstored ((Operation.covers_suffix hstop).1 ha).1
    have hjudge : doc.judge op = .waiting m op := by
      rw [hcut] at hm ⊢
      exact hc.judge_waiting h.lawful.store h.written hwhole hstop hnew hm
    have hparked : op.id ∈ doc.pending.parked :=
      (h.lawful.pending.parked _).2 ⟨op, Pending.mem_operations.2 ⟨m, hwaits⟩, rfl⟩
    rw [hjudge]
    dsimp only
    rw [Document.hold, Pending.push?_eq_none_iff.2 hparked, Option.getD_none]

/-- A batch of operations that were all seen before changes nothing. -/
theorem receive_seen {bytes : Wire.Bytes} (hbytes : ∀ op ∈ Batch.carried bytes, op ∈ seen) :
    (doc.receive bytes).document = doc := by
  have hafter := Document.receive_invariant
    (P := fun d queue => d = doc ∧ ∀ op ∈ queue, op ∈ seen) doc bytes ?_
    (fun _ _ => ⟨rfl, fun _ hop => absurd hop List.not_mem_nil⟩) ?_
  · exact hafter.1
  · intro d op queue hgiven
    obtain ⟨rfl, hqueue⟩ := hgiven
    rw [h.advance_seen hc (hqueue op List.mem_cons_self), List.append_nil]
    exact ⟨rfl, fun o ho => hqueue o (List.mem_cons_of_mem _ ho)⟩
  · intro batch hbatch
    rw [Batch.carried, hbatch] at hbytes
    exact ⟨rfl, hbytes⟩

end Settled

end Delivers

end CausalDoc
