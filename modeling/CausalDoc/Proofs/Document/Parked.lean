import CausalDoc.Proofs.Document.Reachable

/- What parked operations wait for.

   An operation is parked under an atom that it depends on. There it waits until the atom is
   stored, or, when the atom is stored and created another container than its own, for good
   (`Store.Awaits`). Whatever a batch brings, what waited for its atoms is released, so a
   batch overlooks nothing. An edit releases nothing: an operation that waited for an atom of
   the document's own, one that it wrote before it lost its history, is overlooked when the
   document writes this atom again (`Reachable.overlooks_own`). -/

namespace CausalDoc

/-- An operation that is parked under the atom `m` has reason to wait there: the atom is not stored,
or it should have created the container of the operation and did not. -/
def Store.Awaits (store : Store) (m : AtomId) (op : Operation) : Prop :=
  store.log.contains m = false ∨
    op.container.creator? = some m ∧ store.registry.isResolvable op.container = false

/-- An operation goes on waiting when the next one that is taken is not what it waits for. -/
theorem Store.Awaits.absorb {store : Store} {m : AtomId} {op part : Operation}
    (h : store.Awaits m op) (hstore : store.Coherent) (ha : store.Admits part)
    (hm : part.covers m = false) : (store.absorb part).Awaits m op := by
  rcases h with hmissing | ⟨hcreator, hnone⟩
  · left
    apply Bool.eq_false_iff.2
    intro hthere
    rcases ha.log.contains_push.1 hthere with hbefore | hcovers
    · simp [hmissing] at hbefore
    · simp [hm] at hcovers
  · right
    refine ⟨hcreator, Bool.eq_false_iff.2 fun hresolvable => ?_⟩
    have hold : ¬ store.registry.isResolvable op.container = true := by simp [hnone]
    rcases Registry.isResolvable_iff.1 hresolvable with hroot | hcontains
    · exact hold (Registry.isResolvable_iff.2 (.inl hroot))
    · rcases Log.names_push.1 ((hstore.registered_absorb ha _).1 hcontains) with
        hnames | hchanges | hcreates
      · exact hold (Registry.isResolvable_iff.2 (.inr ((hstore.registered _).2 hnames)))
      · rw [← hchanges] at hold
        exact hold ha.resolvable
      · obtain ⟨kind, hid⟩ := Store.created?_eq hcreates
        rw [hid] at hcreator
        obtain rfl : part.id = m := Option.some.inj hcreator
        rw [Operation.covers_id ha.log.sound.length_pos] at hm
        cases hm

namespace Document

variable {doc : Document} {m : AtomId} {op part o : Operation}

/-- The operation stays parked though it has no reason to wait. -/
def Overlooks (doc : Document) (op : Operation) : Prop :=
  ∃ m, doc.pending.Waits m op ∧ ¬ doc.store.Awaits m op

/-- Operations wait for what they depend on, and without reason only for atoms of the document's
own. -/
def Orderly (doc : Document) : Prop :=
  ∀ m op, doc.pending.Waits m op →
    m ∈ op.dependencies ∧ (doc.store.Awaits m op ∨ m.peer = doc.peer)

theorem waits_hold {m' : AtomId} (h : (doc.hold m part).pending.Waits m' o) :
    doc.pending.Waits m' o ∨ m' = m ∧ o = part := by
  rcases doc.hold_cases m part with ⟨-, hsame⟩ | ⟨pending, hpush, hafter⟩
  · rw [hsame] at h
    exact .inl h
  · rw [hafter] at h
    exact ((Pending.waits_push? hpush).1 h).symm

/-- What is parked when an operation came off the queue was parked before and goes on waiting, or
was parked now and has reason to wait. -/
theorem waits_advance (h : doc.Lawful) (hsound : op.Sound)
    (hwaits : (doc.advance op).1.pending.Waits m o) :
    doc.pending.Waits m o ∧ (doc.store.Awaits m o → (doc.advance op).1.store.Awaits m o) ∨
      m ∈ o.dependencies ∧ (doc.advance op).1.store.Awaits m o := by
  cases hjudge : doc.judge op with
  | known | stale dependency part =>
    simp only [advance, hjudge] at hwaits ⊢
    exact .inl ⟨hwaits, id⟩
  | waiting m' part =>
    simp only [advance, hjudge] at hwaits ⊢
    rcases waits_hold hwaits with hbefore | ⟨rfl, rfl⟩
    · exact .inl ⟨hbefore, id⟩
    · obtain ⟨-, hmissing⟩ := judge_eq_waiting hjudge
      obtain ⟨hdep, hnone⟩ := missing?_eq_some hmissing
      exact .inr ⟨hdep, .inl hnone⟩
  | orphan part =>
    simp only [advance, hjudge] at hwaits ⊢
    rcases waits_hold hwaits with hbefore | ⟨rfl, rfl⟩
    · exact .inl ⟨hbefore, id⟩
    · obtain ⟨-, -, hnone⟩ := judge_eq_orphan hjudge
      -- a root can always be used, so the container has a creator
      obtain ⟨creator, hcreator⟩ : ∃ creator, o.container.creator? = some creator := by
        cases hid : o.container with
        | root name kind => simp [hid, Registry.isResolvable, ContainerId.isRoot] at hnone
        | created creator kind => exact ⟨creator, rfl⟩
      rw [hcreator, Option.getD_some]
      refine .inr ⟨Operation.mem_dependencies.2 (.inr (.inr ?_)), .inr ⟨hcreator, hnone⟩⟩
      exact hcreator
  | ready part =>
    have hadmits := admits_of_ready h.log hsound hjudge
    simp only [advance, hjudge] at hwaits ⊢
    obtain ⟨hbefore, hreached⟩ := Pending.waits_takeReady.1 hwaits
    refine .inl ⟨hbefore, fun hawaits => hawaits.absorb h.store hadmits ?_⟩
    -- what waited for one of its atoms was released
    apply Bool.eq_false_iff.2
    intro hcovers
    obtain ⟨hpeer, -, hstop⟩ := Operation.covers_iff.1 hcovers
    exact hreached ⟨hpeer, hstop⟩

theorem Lawful.overlooks_receive (h : doc.Lawful) (bytes : Wire.Bytes)
    (ho : (doc.receive bytes).document.Overlooks o) : doc.Overlooks o := by
  have hkept := (h.receive_induction (P := fun d => d.Overlooks o → doc.Overlooks o) bytes
    (fun {d op} hd hsound hbefore hafter => ?_) id).2
  · exact hkept ho
  · obtain ⟨m, hwaits, hidle⟩ := hafter
    apply hbefore
    rcases waits_advance hd hsound hwaits with ⟨hold, hgoes⟩ | ⟨-, hawaits⟩
    · exact ⟨m, hold, fun hawaits => hidle (hgoes hawaits)⟩
    · exact absurd hawaits hidle

theorem Lawful.orderly_receive (h : doc.Lawful) (horderly : doc.Orderly) (bytes : Wire.Bytes) :
    (doc.receive bytes).document.Orderly := by
  refine (h.receive_induction bytes (fun {d op} hd hsound hbefore m o hwaits => ?_) horderly).2
  rcases waits_advance hd hsound hwaits with ⟨hold, hgoes⟩ | ⟨hdep, hawaits⟩
  · obtain ⟨hdep, hawaits | hown⟩ := hbefore m o hold
    · exact ⟨hdep, .inl (hgoes hawaits)⟩
    · exact ⟨hdep, .inr (hown.trans advance_peer.symm)⟩
  · exact ⟨hdep, .inl hawaits⟩

/-- An edit leaves alone what is parked. What waits after it without reason did so before, or
waited for an atom that the edit wrote. -/
theorem Lawful.awaits_edit (h : doc.Lawful) (container : ContainerId) (edit : Edit)
    (wallTime : Nat) :
    (doc.edit container edit wallTime).document.pending = doc.pending ∧
      (doc.edit container edit wallTime).document.peer = doc.peer ∧
      ∀ m o, doc.store.Awaits m o →
        (doc.edit container edit wallTime).document.store.Awaits m o ∨
          m.peer = doc.peer ∧ doc.log.contains m = false ∧
            (doc.edit container edit wallTime).document.log.contains m = true := by
  rcases edit_cases h.store container edit wallTime with hsame | ⟨action, -, ha, -, hafter⟩
  · rw [hsame]
    exact ⟨rfl, rfl, fun m o hawaits => .inl hawaits⟩
  · rw [hafter]
    refine ⟨rfl, rfl, fun m o hawaits => ?_⟩
    cases hm : (doc.draft container action wallTime).covers m with
    | false => exact .inl (hawaits.absorb h.store ha hm)
    | true =>
      obtain ⟨hpeer, -, -⟩ := Operation.covers_iff.1 hm
      exact .inr ⟨hpeer, ha.log.not_contains hm, ha.log.contains_push.2 (.inr hm)⟩

theorem Reachable.orderly (h : doc.Reachable) : doc.Orderly := by
  induction h with
  | new config freshPeer hpeer =>
    intro m op hwaits
    obtain ⟨ops, hnone, -⟩ := hwaits
    cases hnone
  | edit container edit wallTime hdoc _ _ ih =>
    obtain ⟨hpending, hpeer, hgoes⟩ := hdoc.lawful.awaits_edit container edit wallTime
    intro m op hwaits
    rw [hpending] at hwaits
    rw [hpeer]
    obtain ⟨hdep, hawaits | hown⟩ := ih m op hwaits
    · rcases hgoes m op hawaits with hawaits | ⟨hown, -, -⟩
      · exact ⟨hdep, .inl hawaits⟩
      · exact ⟨hdep, .inr hown⟩
    · exact ⟨hdep, .inr hown⟩
  | receive bytes hdoc ih => exact hdoc.lawful.orderly_receive ih bytes
  | subscribe _ ih | unsubscribe number _ ih => exact ih

/-- In a reachable document a parked operation misses something it depends on, or its container, or
it is overlooked. An operation is overlooked under a stored atom of the document's own that it
depends on. A batch overlooks nothing; an edit leaves what is parked as it is, and so overlooks
what waited for the atoms it writes. -/
theorem Reachable.overlooks_own (h : doc.Reachable) :
    (∀ op ∈ doc.pending.operations,
      (∃ d ∈ op.dependencies, doc.log.contains d = false) ∨
        doc.registry.isResolvable op.container = false ∨ doc.Overlooks op) ∧
    (∀ op, doc.Overlooks op →
      ∃ m ∈ op.dependencies, doc.pending.Waits m op ∧ m.peer = doc.peer ∧
        doc.log.contains m = true) ∧
    (∀ bytes op, (doc.receive bytes).document.Overlooks op → doc.Overlooks op) ∧
    (∀ container edit wallTime,
      (doc.edit container edit wallTime).document.pending = doc.pending ∧
      ∀ op, (doc.edit container edit wallTime).document.Overlooks op →
        doc.Overlooks op ∨ ∃ m, doc.pending.Waits m op ∧ doc.log.contains m = false ∧
          (doc.edit container edit wallTime).document.log.contains m = true) := by
  refine ⟨fun op hop => ?_, fun op ho => ?_, fun bytes op => h.lawful.overlooks_receive bytes,
    fun container edit wallTime => ?_⟩
  · obtain ⟨m, hwaits⟩ := Pending.mem_operations.1 hop
    obtain ⟨hdep, -⟩ := h.orderly m op hwaits
    by_cases hawaits : doc.store.Awaits m op
    · rcases hawaits with hmissing | ⟨-, hnone⟩
      · exact .inl ⟨m, hdep, hmissing⟩
      · exact .inr (.inl hnone)
    · exact .inr (.inr ⟨m, hwaits, hawaits⟩)
  · obtain ⟨m, hwaits, hidle⟩ := ho
    obtain ⟨hdep, hawaits | hown⟩ := h.orderly m op hwaits
    · exact absurd hawaits hidle
    · refine ⟨m, hdep, hwaits, hown, ?_⟩
      apply Bool.of_not_eq_false
      exact fun hmissing => hidle (.inl hmissing)
  · obtain ⟨hpending, -, hgoes⟩ := h.lawful.awaits_edit container edit wallTime
    refine ⟨hpending, fun op ho => ?_⟩
    obtain ⟨m, hwaits, hidle⟩ := ho
    rw [hpending] at hwaits
    by_cases hawaits : doc.store.Awaits m op
    · rcases hgoes m op hawaits with hawaits | ⟨-, hmissing, hthere⟩
      · exact absurd hawaits hidle
      · exact .inr ⟨m, hwaits, hmissing, hthere⟩
    · exact .inl ⟨m, hwaits, hawaits⟩

/-- A letter behind another one that peer 1 wrote. -/
def reply : Operation :=
  ⟨⟨2, 0⟩, 1, [⟨1, 0⟩], .root "t" .text, 0, .insert (some ⟨1, 0⟩) (.text "b")⟩

/-- Peer 1 lost its history and is sent the reply to its first letter. -/
def restarted : Document :=
  ((new Config.standard 1).receive (Batch.mk .updates [reply]).encode).document

/-- It writes a first letter again. -/
def resumed : Document := (restarted.edit (.root "t" .text) (.insertText 0 "c") 0).document

theorem reachable_resumed : resumed.Reachable :=
  .edit _ _ _ (.receive _ (.new Config.standard 1 (by decide))) trivial (by decide)

theorem resumed_parks_reply : resumed.pending.operations = [reply] ∧
    reply.dependencies = [⟨1, 0⟩] ∧ resumed.log.contains ⟨1, 0⟩ = true := by
  refine ⟨?_, ?_, ?_⟩ <;> decide +kernel

/-- The reply is overlooked under the letter that it depends on. -/
theorem overlooks_own_resumed : resumed.Overlooks reply ∧
    ∃ m ∈ reply.dependencies, resumed.pending.Waits m reply ∧ m.peer = resumed.peer ∧
      resumed.log.contains m = true := by
  obtain ⟨hparked, hdeps, hthere⟩ := resumed_parks_reply
  obtain ⟨hcases, hown, -⟩ := Reachable.overlooks_own reachable_resumed
  have ho : resumed.Overlooks reply := by
    rcases hcases reply (by simp [hparked]) with ⟨d, hd, hmissing⟩ | hnone | ho
    · obtain rfl : d = ⟨1, 0⟩ := by simpa [hdeps] using hd
      simp [hthere] at hmissing
    · cases hnone
    · exact ho
  exact ⟨ho, hown reply ho⟩

/-- So an operation can stay parked that misses nothing and whose container can be used: an edit does
not release what waited for its atoms. -/
theorem parked_though_ready :
    resumed.Reachable ∧ reply ∈ resumed.pending.operations ∧
      (∀ d ∈ reply.dependencies, resumed.log.contains d = true) ∧
        resumed.registry.isResolvable reply.container = true := by
  obtain ⟨hparked, hdeps, hthere⟩ := resumed_parks_reply
  exact ⟨reachable_resumed, by simp [hparked], by simp [hdeps, hthere], rfl⟩

end Document

end CausalDoc
