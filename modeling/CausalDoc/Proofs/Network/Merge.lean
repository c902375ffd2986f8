import CausalDoc.Proofs.Network.Convergence
import Mathlib.Data.List.Basic

/- Merging as a join.

   The replicas of an honest run hold operations of one corpus, so what one lacks of
   another is applied directly when it merges the other one. Of documents in which nothing
   is parked a merge makes the join of their logs, and as what can be observed is a
   function of the log, it does not matter in which order any number of them are merged,
   how the merges are bracketed, or whether one of them is merged twice. -/

namespace CausalDoc

/-- What can be observed of a document apart from what it parks is determined by its store. -/
theorem Document.alike_of_store {doc other : Document} (h : doc.store = other.store) :
    doc.version = other.version ∧ doc.log.frontiers = other.log.frontiers ∧
      (∀ id, doc.stateAt id = other.stateAt id) ∧ doc.content = other.content := by
  have hlog : doc.log = other.log := congrArg Store.log h
  have hregistry : doc.registry = other.registry := congrArg Store.registry h
  refine ⟨congrArg Log.version hlog, congrArg Log.frontiers hlog, fun id => ?_, ?_⟩
  · rw [stateAt, stateAt, hregistry]
  · rw [content, content, hregistry]

namespace Network

variable {net : Network} {peer otherPeer : Nat} {replica other : Replica}

theorem Faithful.settled (h : net.Faithful) (hreplica : net.replicas peer = some replica)
    (hidle : replica.document.pending.size = 0) : Settled net.Written replica.document where
  toHolds := h.holds hreplica
  idle := by
    rw [(h.accounts hreplica).lawful.pending.size_eq] at hidle
    exact List.eq_nil_of_length_eq_zero hidle

/-- What a merge makes of a replica on an honest run.

The batch for its version is read as it was made, and received without error. Every operation of
it is ready, as a whole, when its turn comes: before anything else is done, all are applied in the
order of the batch, none is passed over, parked or rejected, and what is then left to do was
parked before. Afterwards the replica covers what either one covered, and the other one is as it
was. With nothing parked, the version is the pointwise maximum; and from documents that park
nothing merges make the same whatever their order, their bracketing and their repetitions. -/
theorem Honest.merge_joins (h : net.Honest) (hreplica : net.replicas peer = some replica)
    (hother : net.replicas otherPeer = some other)
    (hsize : (other.batchFor (some replica.document.version)).encode.length <
      0x10000000000000000) :
    let bytes := (other.batchFor (some replica.document.version)).encode
    let ops := other.document.log.since replica.document.version
    let merged := replica.merge other
    Batch.decode bytes = .ok ⟨.updates, ops⟩ ∧
      (∃ status, (replica.document.receive bytes).result = .ok status) ∧
      replica.document.ReadyInTurn ops ∧
      (∃ (later : Intake) (released : List Operation),
        (Intake.start replica.document).drain ops = later.drain released ∧
        later.document = replica.document.takeAll ops ∧
        later.status = ⟨ops.length, 0, 0, 0⟩ ∧ later.parked = .empty ∧
        ∀ op ∈ released, op ∈ replica.document.pending.operations) ∧
      (∀ a, replica.document.version.includes a = true ∨ other.document.version.includes a = true →
        merged.document.version.includes a = true) ∧
      (otherPeer ≠ peer → (net.put peer merged).replicas otherPeer = some other) ∧
      (replica.document.pending.size = 0 → ∀ p, merged.document.version.nextCounter p =
        max (replica.document.version.nextCounter p) (other.document.version.nextCounter p)) ∧
      (∀ (docs docs' : List Document) (doc doc' : Document),
        (∀ d ∈ docs, d.pending.size = 0 ∧ ∃ p r, net.replicas p = some r ∧ r.document = d) →
        (∀ d, d ∈ docs ↔ d ∈ docs') → Merges docs doc → Merges docs' doc' →
        doc.version = doc'.version ∧ doc.log.frontiers = doc'.log.frontiers ∧
          (∀ id, doc.stateAt id = doc'.stateAt id) ∧ doc.content = doc'.content) := by
  have hfaithful := h.faithful
  have hc := hfaithful.corpus
  have hholds := hfaithful.holds hreplica
  have hholds' := hfaithful.holds hother
  obtain ⟨later, released, hdrain, hdocument, hstatus, hparked, hperm⟩ :=
    hholds.drain_since hc hholds'
  obtain ⟨-, -, -, status, -, -, -, hresult, -, hkept⟩ := hholds.drain_merge hc hholds' hsize
  intro bytes ops merged
  refine ⟨hholds'.lawful.decode_since .updates _ hsize, ⟨status, hresult⟩,
    ((hholds.supplies hc hholds').run hc).1, ⟨later, released, hdrain, hdocument, hstatus, hparked,
      fun op hop => hperm.mem_iff.2 (List.mem_append_left _ hop)⟩, ?_, ?_, ?_, ?_⟩
  · -- an atom belongs to a stored operation, which the join has and the merge keeps
    intro a hcovered
    have hmerged : merged.document.log.Coherent := by
      show (replica.document.merge other.document).document.log.Coherent
      rw [Document.merge_document]
      exact (hholds.lawful.receive _).log
    have hboth : ∀ o, replica.document.log.Stored o ∨ other.document.log.Stored o →
        merged.document.log.Stored o :=
      fun o ho => hkept o ((hholds.stored_join hc hholds').2 ho)
    rcases hcovered with ha | ha
    · exact hholds.lawful.log.contains_mono hmerged (fun o ho => hboth o (.inl ho)) ha
    · exact hholds'.lawful.log.contains_mono hmerged (fun o ho => hboth o (.inr ho)) ha
  · intro hne
    rw [replicas_put, if_neg hne]
    exact hother
  · -- with nothing parked nothing else is released, so the merge is just the join
    intro hidle p
    obtain ⟨hmerge, -⟩ :=
      hholds.merge_idle hc hholds' hsize (hfaithful.settled hreplica hidle).idle
    show (replica.document.merge other.document).document.version.nextCounter p = _
    rw [hmerge]
    exact hholds.nextCounter_join hc hholds' p
  · -- what a document shows is read off its store, which depends only on what was merged
    intro docs docs' doc doc' hdocs hsame hdoc hdoc'
    apply Document.alike_of_store
    apply hdoc.store_eq hc hfaithful.anchored hdoc' hsame
    intro d hd
    obtain ⟨hidle, p, r, hr, rfl⟩ := hdocs d hd
    exact hfaithful.settled hr hidle

/-- Two texts typed at the same place read the same, whichever replica merges the other one. -/
theorem merge_joins_typed :
    let left := (typed 1 "ab").document
    let right := (typed 2 "xy").document
    left.pending.size = 0 ∧ right.pending.size = 0 ∧
      (left.merge right).document.version.nextCounter 2 = 2 ∧
      (left.merge right).document.content = (right.merge left).document.content := by
  have hsize : ((typed 2 "xy").batchFor (some (typed 1 "ab").document.version)).encode.length <
      0x10000000000000000 := by
    decide +kernel
  have hsize' : ((typed 1 "ab").batchFor (some (typed 2 "xy").document.version)).encode.length <
      0x10000000000000000 := by
    decide +kernel
  have hidle : (typed 1 "ab").document.pending.size = 0 := by decide +kernel
  have hidle' : (typed 2 "xy").document.pending.size = 0 := by decide +kernel
  have hversion : (typed 1 "ab").document.version.nextCounter 2 = 0 := by decide +kernel
  have hversion' : (typed 2 "xy").document.version.nextCounter 2 = 2 := by decide +kernel
  intro left right
  obtain ⟨net, hnet, hleft, hright⟩ := honest_typed
  obtain ⟨-, -, -, -, -, -, hmax, hlaws⟩ := Honest.merge_joins hnet hleft hright hsize
  refine ⟨hidle, hidle', ?_, ?_⟩
  · have hmerged := hmax hidle 2
    rw [hversion, hversion'] at hmerged
    exact hmerged
  · have hall : ∀ d ∈ [left, right],
        d.pending.size = 0 ∧ ∃ p r, net.replicas p = some r ∧ r.document = d := by
      intro d hd
      rcases List.mem_pair.1 hd with rfl | rfl
      · exact ⟨hidle, 1, _, hleft, rfl⟩
      · exact ⟨hidle', 2, _, hright, rfl⟩
    have hswap : ∀ d, d ∈ [left, right] ↔ d ∈ [right, left] := by
      intro d
      rw [List.mem_pair, List.mem_pair, or_comm]
    exact (hlaws [left, right] [right, left] _ _ hall hswap (.merge (.one left) (.one right) hsize)
      (.merge (.one right) (.one left) hsize')).2.2.2

end Network

end CausalDoc
