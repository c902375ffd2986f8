import CausalDoc.Document.Content
import CausalDoc.Document.Exchange
import CausalDoc.Proofs.Document.Corpus
import CausalDoc.Proofs.Document.Reachable
import CausalDoc.Proofs.Log.Delta

/- What a fork has.

   A fork takes the whole history in the order of the stamps. In this order what an
   operation depends on comes before it, so nothing is parked or dropped, and whatever it
   refers to, wherever that stands in its causal past, comes before it too. So the fork
   has the log of the original, and containers that reflect it; they are a function of the
   log.

   The original took the operations as they arrived. An operation that came before an
   element it refers to was logged without effect, and stays without effect there, so the
   containers of the original may differ from those of the fork: they are the same exactly
   when they reflect the log, as they do when no operation refers to anything outside its
   causal past. -/

namespace CausalDoc

/-- A document on its way to a history: what it took comes before what is still queued, and the two
together are the history. -/
structure Replays (history : Store) (doc : Document) (queue : List Operation) : Prop where
  store : doc.store.Coherent
  reflects : Reflects doc.log doc.registry
  pending : doc.pending = .empty
  taken : ∀ op, doc.log.Stored op → history.log.Stored op
  queued : ∀ op ∈ queue, history.log.Stored op
  all : ∀ op, history.log.Stored op → doc.log.Stored op ∨ op ∈ queue
  sorted : queue.Pairwise fun a b => ¬ b.stamp < a.stamp
  before : ∀ op, doc.log.Stored op → ∀ o ∈ queue, ¬ o.stamp < op.stamp

namespace Replays

variable {history : Store} {doc : Document} {op : Operation} {queue : List Operation}

/-- What the first queued operation depends on was taken before. -/
theorem contains_dep (hh : history.Coherent) (h : Replays history doc (op :: queue)) {d : AtomId}
    (hd : d ∈ op.dependencies) : doc.log.contains d = true := by
  have hop := h.queued op List.mem_cons_self
  obtain ⟨o, ho, hcovers, hlt⟩ := hh.corpus.deps hop d hd
  have hstamp : o.stamp < op.stamp := by
    apply Stamp.lt_of_lamport_lt
    show o.lamport < op.lamport
    omega
  rcases h.all o ho with ho | ho
  · exact h.store.log.contains_of_covers ho hcovers
  · rcases List.mem_cons.1 ho with rfl | ho
    · exact absurd hstamp (Stamp.lt_irrefl _)
    · exact absurd hstamp ((List.pairwise_cons.1 h.sorted).1 o ho)

theorem advance_known (hh : history.Coherent) (h : Replays history doc (op :: queue))
    (hstored : doc.log.Stored op) :
    Replays history (doc.advance op).1 (queue ++ (doc.advance op).2) := by
  have hop := h.queued op List.mem_cons_self
  obtain ⟨-, hsorted⟩ := List.pairwise_cons.1 h.sorted
  have hknown := hh.corpus.judge_known h.store h.taken hop (hh.log.sound hop).stop_pos hstored
  rw [Operation.suffix_of_le (Nat.zero_le _)] at hknown
  unfold Document.advance
  rw [hknown, List.append_nil]
  refine ⟨h.store, h.reflects, h.pending, h.taken, fun o ho => h.queued o (by simp [ho]), ?_,
    hsorted, fun o ho q hq => h.before o ho q (by simp [hq])⟩
  intro o ho
  rcases h.all o ho with ho | ho
  · exact .inl ho
  · rcases List.mem_cons.1 ho with rfl | ho
    · exact .inl hstored
    · exact .inr ho

theorem newest (hh : history.Coherent) (h : Replays history doc (op :: queue))
    (hnew : ¬ doc.log.Stored op) : ∀ o, doc.log.Stored o → o.stamp < op.stamp := by
  intro o ho
  apply Decidable.byContradiction
  intro hnot
  have hstamp := Stamp.eq_of_not_lt hnot (h.before o ho op List.mem_cons_self)
  rw [hh.log.eq_of_stamp (h.taken o ho) (h.queued op List.mem_cons_self) hstamp] at ho
  exact hnew ho

theorem advance_new (hh : history.Coherent) (h : Replays history doc (op :: queue))
    (hnew : ¬ doc.log.Stored op) :
    Replays history (doc.advance op).1 (queue ++ (doc.advance op).2) := by
  have hop := h.queued op List.mem_cons_self
  have hwhole : op.suffix 0 = op := Operation.suffix_of_le (Nat.zero_le _)
  obtain ⟨hfirst, hsorted⟩ := List.pairwise_cons.1 h.sorted
  have hmissing : doc.missing? (op.suffix 0) = none := by
    rw [hwhole]
    exact Document.missing?_eq_none_iff.2 fun d hd => h.contains_dep hh hd
  obtain ⟨-, hready, hadmits⟩ :=
    hh.corpus.judge_ready h.store h.taken hop (hh.log.sound hop).stop_pos hnew hmissing
  rw [hwhole] at hready
  -- in this order an operation comes after what it depends on, so nothing is ever parked
  have hnone : doc.pending.takeReady op.id.peer op.stop = ([], .empty) := by
    rw [h.pending]
    rfl
  have hadvance : doc.advance op = (doc.take op, []) := by
    unfold Document.advance
    rw [hready]
    dsimp only
    rw [hnone]
  rw [hadvance, List.append_nil]
  refine ⟨h.store.absorb hadmits, ?_, ?_, ?_, ?_, ?_, hsorted, ?_⟩
  · exact h.reflects.absorb h.store hadmits (Log.inOrder_of_newest (h.newest hh hnew))
  · show (doc.pending.takeReady op.id.peer op.stop).2 = _
    rw [hnone]
  · intro o ho
    rcases Log.stored_push.1 ho with ho | rfl
    · exact h.taken o ho
    · exact hop
  · exact fun o ho => h.queued o (by simp [ho])
  · intro o ho
    rcases h.all o ho with ho | ho
    · exact .inl (Log.stored_push.2 (.inl ho))
    · rcases List.mem_cons.1 ho with rfl | ho
      · exact .inl (Log.stored_push.2 (.inr rfl))
      · exact .inr ho
  · intro o ho q hq
    rcases Log.stored_push.1 ho with ho | rfl
    · exact h.before o ho q (by simp [hq])
    · exact hfirst q hq

theorem advance (hh : history.Coherent) (h : Replays history doc (op :: queue)) :
    Replays history (doc.advance op).1 (queue ++ (doc.advance op).2) := by
  by_cases hstored : doc.log.Stored op
  · exact h.advance_known hh hstored
  · exact h.advance_new hh hstored

end Replays

namespace Document

variable {doc : Document}

/-- A fork has the log of the original, and containers that reflect it. -/
theorem Lawful.fork (h : doc.Lawful) (freshPeer : Nat)
    (hsize : doc.snapshot.encode.length < 0x10000000000000000) :
    (∃ status, (doc.fork freshPeer).result = .ok status) ∧
      (doc.fork freshPeer).document.log = doc.log ∧
      (doc.fork freshPeer).document.pending = .empty ∧
      Reflects doc.log (doc.fork freshPeer).document.registry := by
  have hstored : ∀ op ∈ doc.snapshot.operations, doc.log.Stored op :=
    fun op hop => h.log.mem_all.1 hop
  have hdecode : Batch.decode doc.snapshot.encode = .ok doc.snapshot :=
    h.decode_since .snapshot .empty hsize
  obtain ⟨start, hstart⟩ : ∃ start, start = Document.new { doc.config with peer := none } freshPeer :=
    ⟨_, rfl⟩
  have hfork : doc.fork freshPeer = start.receive doc.snapshot.encode := by
    rw [hstart]
    rfl
  have hreplays : Replays doc.store start doc.snapshot.operations := by
    rw [hstart]
    refine ⟨Store.coherent_empty, Reflects.empty, rfl, ?_, hstored, ?_, Log.pairwise_all doc.log, ?_⟩
    · exact fun op hop => absurd hop List.not_mem_nil
    · exact fun op hop => .inr (h.log.mem_all.2 hop)
    · exact fun op hop => absurd hop List.not_mem_nil
  obtain ⟨after, hdrain, hafter⟩ := Intake.drain_invariant
    (fun d op queue hd => Replays.advance h.store hd) (Intake.start start) _ hreplays
  obtain ⟨hdocument, hresult⟩ := receive_of_ok hdecode hdrain
  have hlog : after.document.log = doc.log := by
    apply hafter.store.log.ext_stored h.log
    intro op
    refine ⟨?_, ?_⟩
    · exact hafter.taken op
    · intro hop
      rcases hafter.all op hop with hop | hop
      · exact hop
      · cases hop
  rw [hfork, hdocument]
  refine ⟨hresult, hlog, hafter.pending, ?_⟩
  rw [← hlog]
  exact hafter.reflects

/-- A fork of a reachable document has its log, nothing parked and the same containers by name.
What they hold is determined by the log; it is what they hold in the original exactly when that
reflects the log, and so it is when every stored operation has what it refers to in its causal
past. -/
theorem Reachable.fork_reflects (h : doc.Reachable) (freshPeer : Nat)
    (hsize : doc.snapshot.encode.length < 0x10000000000000000) :
    (∃ status, (doc.fork freshPeer).result = .ok status) ∧
      (doc.fork freshPeer).document.log = doc.log ∧
      (doc.fork freshPeer).document.pending = .empty ∧
      (∀ id, (doc.fork freshPeer).document.registry.states.contains id =
        doc.registry.states.contains id) ∧
      Reflects doc.log (doc.fork freshPeer).document.registry ∧
      (∀ registry, Reflects doc.log registry →
        registry = (doc.fork freshPeer).document.registry) ∧
      ((doc.fork freshPeer).document.registry = doc.registry ↔ Reflects doc.log doc.registry) ∧
      (doc.log.Grounded → (doc.fork freshPeer).document.registry = doc.registry ∧
        (doc.fork freshPeer).document.content = doc.content) := by
  have hl := h.lawful
  obtain ⟨hresult, hlog, hpending, hreflects⟩ := hl.fork freshPeer hsize
  have hsame : (doc.fork freshPeer).document.registry = doc.registry ↔
      Reflects doc.log doc.registry := by
    refine ⟨?_, ?_⟩
    · intro heq
      rw [← heq]
      exact hreflects
    · exact fun hr => hreflects.unique hl.log hr
  refine ⟨hresult, hlog, hpending, ?_, hreflects,
    fun registry hr => hr.unique hl.log hreflects, hsame, ?_⟩
  · intro id
    rw [Bool.eq_iff_iff]
    calc (doc.fork freshPeer).document.registry.states.contains id = true
        ↔ doc.log.Names id := hreflects.registered id
      _ ↔ doc.registry.states.contains id = true := (hl.store.registered id).symm
  · intro hg
    have hregistry := hsame.2 (hl.advances.reflects hg)
    refine ⟨hregistry, ?_⟩
    unfold content
    rw [hregistry]

/-- A text that its own replica typed reads the same in a fork. -/
theorem fork_reflects_typed :
    let doc := ((new Config.standard 1).edit (.root "t" .text) (.insertText 0 "ab") 5).document
    (doc.fork 7).document.registry = doc.registry ∧
      (doc.fork 7).document.content = doc.content := by
  intro doc
  have h : doc.Reachable := .edit _ _ _ (.new Config.standard 1 (by decide)) trivial (by decide)
  have hsize : doc.snapshot.encode.length < 0x10000000000000000 := by decide +kernel
  obtain ⟨-, -, -, -, -, -, -, hgrounded⟩ := Reachable.fork_reflects h 7 hsize
  apply hgrounded
  -- the only operation refers to nothing
  have hnamed : ∀ op ∈ doc.log.all, op.named = [] := by decide
  intro op hop a ha
  rw [hnamed op (h.lawful.log.mem_all.2 hop)] at ha
  cases ha

/-- Inserts `a` at the head. -/
def head : Operation :=
  ⟨⟨2, 0⟩, 0, [], .root "l" .list, 0, .insert none (.values [.string "a"])⟩

/-- Inserts `x` behind `a`, without depending on it. -/
def follower : Operation :=
  ⟨⟨1, 0⟩, 5, [], .root "l" .list, 0, .insert (some ⟨2, 0⟩) (.values [.string "x"])⟩

/-- When `x` arrives before the `a` that it stands behind, the document shows `a` only, and a fork
of it shows both. -/
theorem fork_shows_more :
    let doc := (((new Config.standard 9).receive
      (Batch.mk .updates [follower]).encode).document.receive
        (Batch.mk .updates [head]).encode).document
    doc.Reachable ∧ doc.snapshot.encode.length < 0x10000000000000000 ∧
      (doc.fork 7).document.version = doc.version ∧
      doc.content = .map [("l", .list [.string "a"])] ∧
      (doc.fork 7).document.content = .map [("l", .list [.string "a", .string "x"])] := by
  have hdoc : (((new Config.standard 9).receive
      (Batch.mk .updates [follower]).encode).document.receive
        (Batch.mk .updates [head]).encode).document =
      ((new Config.standard 9).take follower).take head := by
    decide +kernel
  have hsize : (((new Config.standard 9).take follower).take head).snapshot.encode.length <
      0x10000000000000000 := by
    decide +kernel
  -- the fork takes the two in the order of their stamps
  have hfork : ((((new Config.standard 9).take follower).take head).fork 7).document =
      ((new { Config.standard with peer := none } 7).take head).take follower := by
    decide +kernel
  intro doc
  have h : doc.Reachable := .receive _ (.receive _ (.new Config.standard 9 (by decide)))
  refine ⟨h, ?_⟩
  unfold doc
  rw [hdoc, hfork]
  exact ⟨hsize, by decide, by decide, by decide⟩

end Document

end CausalDoc
