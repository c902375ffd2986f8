import CausalDoc.Proofs.Document.Drain

/- Operations that fit together.

   What any number of replicas wrote, or what one log holds, is a corpus: every atom
   belongs to one operation, and what an operation depends on is written by older
   operations of the corpus, its container's creation included (`Corpus`). A store that
   took operations of a corpus only takes any other one as soon as the atoms it depends on
   are there (`Corpus.admits`): it cannot come out of turn, be stale, or lack its
   container. So a document judges operations of a corpus, and suffixes of them, by their
   missing atoms alone.

   A log that holds an atom of the corpus has its whole past in the corpus
   (`Corpus.happensBefore_of_contains`), so when operations refer to their past only, the
   log of every replica is grounded (`Corpus.grounded`). -/

namespace CausalDoc

/-- The operations fit together. -/
structure Corpus (Written : Operation → Prop) : Prop where
  sound : ∀ {op : Operation}, Written op → op.Sound
  /-- An atom belongs to one operation. -/
  unique : ∀ {op o : Operation} {a : AtomId}, Written op → Written o → op.covers a = true →
    o.covers a = true → op = o
  /-- What an operation depends on is written, with a smaller Lamport time. -/
  deps : ∀ {op : Operation}, Written op → ∀ d ∈ op.dependencies,
    ∃ o, Written o ∧ o.covers d = true ∧ o.lamport + (d.counter - o.id.counter) < op.lamport
  /-- The container of an operation is a root or created by an operation. -/
  creator : ∀ {op : Operation}, Written op → op.container.isRoot = true ∨
    ∃ o, Written o ∧ o.created? = some op.container

theorem Store.Coherent.corpus {store : Store} (h : store.Coherent) : Corpus store.log.Stored where
  sound := h.log.sound
  unique := h.log.eq_of_covers
  deps := by
    intro op hop d hd
    obtain ⟨l, hl, hlt⟩ := h.log.deps hop d hd
    obtain ⟨o, hget, rfl⟩ := Log.lamport?_eq_some_iff.1 hl
    obtain ⟨ho, hcovers⟩ := h.log.get?_eq_some_iff.1 hget
    exact ⟨o, ho, hcovers, hlt⟩
  creator := h.creator

namespace Corpus

variable {Written : Operation → Prop} (hc : Corpus Written)

include hc

section Stored

variable {store : Store} {op : Operation} (h : store.Coherent)
  (hw : ∀ o, store.log.Stored o → Written o) (hop : Written op)

include h hw hop

/-- An operation of which one atom is known is stored. -/
theorem stored_of_contains {a : AtomId} (hcovers : op.covers a = true)
    (ha : store.log.contains a = true) : store.log.Stored op := by
  obtain ⟨o, ho, hcovers'⟩ := h.log.contains_iff_covers.1 ha
  rw [hc.unique hop (hw o ho) hcovers hcovers']
  exact ho

theorem lamport?_lt {d : AtomId} (hd : d ∈ op.dependencies) {l : Nat}
    (hl : store.log.lamport? d = some l) : l < op.lamport := by
  obtain ⟨o, hget, rfl⟩ := Log.lamport?_eq_some_iff.1 hl
  obtain ⟨ho, hcovers⟩ := h.log.get?_eq_some_iff.1 hget
  obtain ⟨o', ho', hcovers', hlt⟩ := hc.deps hop d hd
  rwa [hc.unique (hw o ho) ho' hcovers hcovers']

/-- What a new operation depends on being known, the store can take it. -/
theorem admits (hnew : ¬ store.log.Stored op)
    (hdeps : ∀ d ∈ op.dependencies, store.log.contains d = true) : store.Admits op := by
  have hpos := (hc.sound hop).length_pos
  refine ⟨⟨hc.sound hop, ?_, fun d hd => ?_⟩, ?_⟩
  · -- not before the end of its peer's history, for the operation is new, and not behind it,
    -- for the predecessor is known
    apply Nat.le_antisymm
    · by_cases hzero : op.id.counter = 0
      · omega
      · have hprevious : (⟨op.id.peer, op.id.counter - 1⟩ : AtomId) ∈ op.dependencies := by
          apply Operation.mem_dependencies.2
          right
          left
          exact ⟨rfl, by dsimp only; omega⟩
        have hknown := hdeps _ hprevious
        rw [Log.contains, VersionVector.includes_iff] at hknown
        dsimp only at hknown
        omega
    · apply Nat.le_of_not_lt
      intro hlt
      apply hnew
      apply hc.stored_of_contains h hw hop (Operation.covers_id hpos)
      rw [Log.contains, VersionVector.includes_iff]
      exact hlt
  · obtain ⟨l, hl⟩ := h.log.contains_iff_lamport?.1 (hdeps d hd)
    exact ⟨l, hl, hc.lamport?_lt h hw hop hd hl⟩
  · rcases hc.creator hop with hroot | ⟨o, ho, hcreated⟩
    · exact Registry.isResolvable_iff.2 (.inl hroot)
    · obtain ⟨kind, heq⟩ := Store.created?_eq hcreated
      have hdep : o.id ∈ op.dependencies := by
        apply Operation.mem_dependencies.2
        right
        right
        rw [heq]
        rfl
      have hstored := hc.stored_of_contains h hw ho
        (Operation.covers_id (hc.sound ho).length_pos) (hdeps _ hdep)
      exact h.resolvable_of_creator hstored hcreated

end Stored

/-! ## Judging -/

section Judge

variable {doc : Document} {op : Operation} {counter : Nat} (h : doc.store.Coherent)
  (hw : ∀ o, doc.log.Stored o → Written o) (hop : Written op) (hcounter : counter < op.stop)

include h hw hop hcounter

/-- A suffix of an operation is known as a whole or not at all. -/
theorem known_iff : (op.suffix counter).stop ≤ doc.version.nextCounter op.id.peer ↔
    doc.log.Stored op := by
  rw [Operation.suffix_stop hcounter]
  have hpos := (hc.sound hop).length_pos
  refine ⟨?_, ?_⟩
  · intro hle
    apply hc.stored_of_contains h hw hop (Operation.covers_lastId hpos)
    have hlast := Operation.stop_eq_lastId hpos
    rw [Document.store, Log.contains, VersionVector.includes_iff, Operation.lastId_peer]
    show _ < doc.version.nextCounter _
    omega
  · intro hstored
    have := (h.log.contiguous op.id.peer).stop_le_endOf.2 op hstored
    rw [← h.log.next] at this
    exact this

theorem judge_known (hstored : doc.log.Stored op) : doc.judge (op.suffix counter) = .known := by
  apply Document.judge_of_le
  rw [Operation.suffix_id]
  exact (hc.known_iff h hw hop hcounter).2 hstored

variable (hnew : ¬ doc.log.Stored op)

include hnew

theorem newPart_eq : doc.newPart (op.suffix counter) = op.suffix counter := by
  unfold Document.newPart
  rw [if_neg]
  intro hlt
  apply hnew
  have hpos := ((hc.sound hop).suffix hcounter).length_pos
  have hcovers := (Operation.covers_suffix hcounter).1 (Operation.covers_id hpos)
  apply hc.stored_of_contains h hw hop hcovers.1
  rw [Log.contains, VersionVector.includes_iff]
  exact hlt

theorem next_lt_stop : doc.version.nextCounter (op.suffix counter).id.peer <
    (op.suffix counter).stop := by
  rw [Operation.suffix_id]
  exact Nat.lt_of_not_le fun hle => hnew ((hc.known_iff h hw hop hcounter).1 hle)

theorem judge_waiting {m : AtomId} (hm : doc.missing? (op.suffix counter) = some m) :
    doc.judge (op.suffix counter) = .waiting m (op.suffix counter) := by
  rw [Document.judge_of_lt (hc.next_lt_stop h hw hop hcounter hnew),
    hc.newPart_eq h hw hop hcounter hnew, hm]

theorem judge_ready (hm : doc.missing? (op.suffix counter) = none) :
    op.suffix counter = op ∧ doc.judge (op.suffix counter) = .ready op ∧ doc.store.Admits op := by
  have hwhole : op.suffix counter = op := by
    apply Operation.suffix_of_le
    apply Nat.le_of_not_lt
    intro hlt
    -- otherwise the atom before the suffix, an atom of the operation, would be known
    have hprevious : (⟨op.id.peer, counter - 1⟩ : AtomId) ∈ (op.suffix counter).dependencies := by
      apply Operation.mem_dependencies.2
      right
      left
      rw [Operation.suffix_id]
      exact ⟨rfl, by dsimp only; omega⟩
    apply hnew
    apply hc.stored_of_contains h hw hop _ (Document.missing?_eq_none_iff.1 hm _ hprevious)
    rw [Operation.covers_iff]
    dsimp only
    omega
  have hlt := hc.next_lt_stop h hw hop hcounter hnew
  have hpart := hc.newPart_eq h hw hop hcounter hnew
  rw [hwhole] at hm hlt hpart ⊢
  have hadmits := hc.admits h hw hop hnew (Document.missing?_eq_none_iff.1 hm)
  have hfresh : (op.dependencies.find? fun d =>
      (doc.log.lamport? d).any (op.lamport ≤ ·)) = none := by
    apply List.find?_eq_none.2
    intro d hd hany
    rw [Option.any_eq_true] at hany
    obtain ⟨l, hl, hle⟩ := hany
    have := hc.lamport?_lt h hw hop hd hl
    rw [decide_eq_true_eq] at hle
    omega
  refine ⟨rfl, ?_, hadmits⟩
  have hresolvable : doc.registry.isResolvable op.container = true := hadmits.resolvable
  rw [Document.judge_of_lt hlt, hpart, hm]
  dsimp only
  rw [hfresh, if_pos hresolvable]

end Judge

end Corpus

/-! ## The past -/

/-- `a` directly precedes the atom `b` of one of the operations: that one depends on it, or it is an
earlier atom of the same peer. -/
def PrecedesIn (Written : Operation → Prop) (a b : AtomId) : Prop :=
  ∃ op, Written op ∧ op.covers b = true ∧
    (a ∈ op.dependencies ∨ a.peer = b.peer ∧ a.counter < b.counter)

/-- `a` is in the causal past of the atom `b` of one of the operations. -/
def PastIn (Written : Operation → Prop) : AtomId → AtomId → Prop :=
  Relation.TransGen (PrecedesIn Written)

/-- Operations refer to atoms of their causal past only. -/
def Anchored (Written : Operation → Prop) : Prop :=
  ∀ op, Written op → ∀ a ∈ op.named, PastIn Written a op.id

section Past

variable {Written More : Operation → Prop} {a b : AtomId}

theorem PrecedesIn.mono (hmore : ∀ o, Written o → More o) (h : PrecedesIn Written a b) :
    PrecedesIn More a b := by
  obtain ⟨op, hop, hcovers, hpast⟩ := h
  exact ⟨op, hmore op hop, hcovers, hpast⟩

theorem PastIn.mono (hmore : ∀ o, Written o → More o) (h : PastIn Written a b) :
    PastIn More a b :=
  Relation.TransGen.mono (fun _ _ hxy => hxy.mono hmore) _ _ h

theorem Log.Precedes.precedesIn {log : Log} (h : log.Coherent) (hw : ∀ o, log.Stored o → Written o)
    (hab : log.Precedes a b) : PrecedesIn Written a b := by
  obtain ⟨op, hget, hpast⟩ := hab
  obtain ⟨hop, hcovers⟩ := h.get?_eq_some_iff.1 hget
  exact ⟨op, hw op hop, hcovers, hpast⟩

theorem Log.HappensBefore.pastIn {log : Log} (h : log.Coherent)
    (hw : ∀ o, log.Stored o → Written o) (hab : log.HappensBefore a b) : PastIn Written a b :=
  Relation.TransGen.mono (fun _ _ hxy => hxy.precedesIn h hw) _ _ hab

namespace Corpus

variable {store : Store} (hc : Corpus Written) (h : store.Coherent)
  (hw : ∀ o, store.log.Stored o → Written o)

include hc h hw

theorem precedes_of_contains (hab : PrecedesIn Written a b) (hb : store.log.contains b = true) :
    store.log.Precedes a b := by
  obtain ⟨op, hop, hcovers, hpast⟩ := hab
  have hstored := hc.stored_of_contains h hw hop hcovers hb
  exact ⟨op, h.log.get?_eq_some_iff.2 ⟨hstored, hcovers⟩, hpast⟩

/-- With an atom a log holds its past. -/
theorem happensBefore_of_contains (hab : PastIn Written a b) (hb : store.log.contains b = true) :
    store.log.HappensBefore a b := by
  suffices store.log.HappensBefore a b ∧ store.log.contains a = true from this.1
  -- from `b` back, one step at a time
  induction hab using Relation.TransGen.head_induction_on with
  | single hxb =>
    have hprecedes := hc.precedes_of_contains h hw hxb hb
    exact ⟨.single hprecedes, h.log.contains_of_precedes hprecedes⟩
  | head hxy _ ih =>
    obtain ⟨hyb, hy⟩ := ih
    have hprecedes := hc.precedes_of_contains h hw hxy hy
    exact ⟨.head hprecedes hyb, h.log.contains_of_precedes hprecedes⟩

theorem contains_of_pastIn (hab : PastIn Written a b) (hb : store.log.contains b = true) :
    store.log.contains a = true :=
  (hc.happensBefore_of_contains h hw hab hb).contains h.log

/-- The past of a first atom is what its operation depends on, and the past of that. -/
theorem contains_of_pastIn_id {op : Operation} (hop : Written op)
    (hdeps : ∀ d ∈ op.dependencies, store.log.contains d = true) (ha : PastIn Written a op.id) :
    store.log.contains a = true := by
  obtain ⟨b, hab, o, ho, hcovers, hlast⟩ := Relation.TransGen.tail'_iff.1 ha
  have hsame : o = op :=
    hc.unique ho hop hcovers (Operation.covers_id (hc.sound hop).length_pos)
  rw [hsame] at hlast
  have hb : store.log.contains b = true := by
    rcases hlast with hdep | ⟨hpeer, hlt⟩
    · exact hdeps b hdep
    · have hprevious : (⟨op.id.peer, op.id.counter - 1⟩ : AtomId) ∈ op.dependencies := by
        apply Operation.mem_dependencies.2
        right
        left
        exact ⟨rfl, by dsimp only; omega⟩
      exact Log.contains_of_le (hdeps _ hprevious) hpeer (by dsimp only; omega)
  rcases Relation.reflTransGen_iff_eq_or_transGen.1 hab with rfl | hab
  · exact hb
  · exact hc.contains_of_pastIn h hw hab hb

theorem grounded (ha : Anchored Written) : store.log.Grounded := by
  intro op hop a hnamed _
  apply hc.happensBefore_of_contains h hw (ha op (hw op hop) a hnamed)
  exact h.log.contains_of_covers hop (Operation.covers_id (h.log.sound hop).length_pos)

/-- A log holds the operations of the corpus of which it has the atoms. -/
theorem stored_mono {store' : Store} (h' : store'.Coherent)
    (hw' : ∀ o, store'.log.Stored o → Written o)
    (hsub : ∀ a, store'.log.contains a = true → store.log.contains a = true) {o : Operation}
    (ho : store'.log.Stored o) : store.log.Stored o := by
  have hcovers := Operation.covers_id (h'.log.sound ho).length_pos
  apply hc.stored_of_contains h hw (hw' o ho) hcovers
  exact hsub _ (h'.log.contains_of_covers ho hcovers)

/-- Stores that hold operations of one corpus and have the same version are the same, when
operations refer to their past only. -/
theorem store_unique (ha : Anchored Written) {store' : Store} (hadv : Store.empty.Advances store)
    (hadv' : Store.empty.Advances store') (hw' : ∀ o, store'.log.Stored o → Written o)
    (hversion : store.log.version = store'.log.version) : store = store' := by
  have h' : store'.Coherent := Store.coherent_empty.advances hadv'
  have hcontains : ∀ a, store.log.contains a = store'.log.contains a := by
    intro a
    rw [Log.contains, Log.contains, hversion]
  have hlog : store.log = store'.log := by
    apply h.log.ext_stored h'.log
    intro o
    refine ⟨?_, ?_⟩
    · exact hc.stored_mono h' hw' h hw fun a ha => (hcontains a).symm.trans ha
    · exact hc.stored_mono h hw h' hw' fun a ha => (hcontains a).trans ha
  -- both registries are what this log makes of the containers
  have hreflects := hadv.reflects (hc.grounded h hw ha)
  have hreflects' := hadv'.reflects (hc.grounded h' hw' ha)
  rw [← hlog] at hreflects'
  exact Store.ext hlog (hreflects.unique h.log hreflects')

theorem store_ext (ha : Anchored Written) {store' : Store} (hadv : Store.empty.Advances store)
    (hadv' : Store.empty.Advances store')
    (hsame : ∀ o, store.log.Stored o ↔ store'.log.Stored o) : store = store' := by
  have h' : store'.Coherent := Store.coherent_empty.advances hadv'
  have hlog : store.log = store'.log := h.log.ext_stored h'.log hsame
  exact hc.store_unique h hw ha hadv hadv' (fun o ho => hw o ((hsame o).2 ho))
    (congrArg Log.version hlog)

end Corpus

end Past

/-! ## One operation more -/

/-- The operations and one more. -/
def OrNew (Written : Operation → Prop) (op : Operation) : Operation → Prop :=
  fun o => Written o ∨ o = op

section Grow

variable {Written : Operation → Prop} {store : Store} {op : Operation} (h : store.Coherent)
  (hw : ∀ o, store.log.Stored o → Written o) (ha : store.Admits op)

include h hw ha

/-- What a store that has all operations of a peer takes next from this peer goes with the
corpus. -/
theorem Corpus.orNew (hc : Corpus Written)
    (hown : ∀ o, Written o → o.id.peer = op.id.peer → store.log.Stored o) :
    Corpus (OrNew Written op) := by
  have hafter := (h.absorb ha).corpus
  have hnew : (store.absorb op).log.Stored op := Log.stored_push.2 (.inr rfl)
  have hlift : ∀ {o : Operation}, (store.absorb op).log.Stored o → OrNew Written op o := by
    intro o ho
    rcases Log.stored_push.1 ho with ho | heq
    · exact .inl (hw o ho)
    · exact .inr heq
  -- the atoms of the new operation belong to no other one
  have hapart : ∀ {o : Operation} {a : AtomId}, Written o → o.covers a = true →
      op.covers a = true → False := by
    intro o a ho hcovers hcovers'
    have hpeer : o.id.peer = op.id.peer := Operation.peer_eq_of_covers hcovers hcovers'
    have hin := h.log.contains_of_covers (hown o ho hpeer) hcovers
    rw [ha.log.not_contains hcovers'] at hin
    cases hin
  refine ⟨?_, ?_, ?_, ?_⟩
  · intro o hcase
    rcases hcase with ho | rfl
    · exact hc.sound ho
    · exact ha.log.sound
  · rintro o o' a (ho | rfl) (ho' | rfl) hcovers hcovers'
    · exact hc.unique ho ho' hcovers hcovers'
    · exact (hapart ho hcovers hcovers').elim
    · exact (hapart ho' hcovers' hcovers).elim
    · rfl
  · intro o hcase d hd
    rcases hcase with ho | rfl
    · obtain ⟨o', ho', hdep⟩ := hc.deps ho d hd
      exact ⟨o', .inl ho', hdep⟩
    · obtain ⟨o', ho', hdep⟩ := hafter.deps hnew d hd
      exact ⟨o', hlift ho', hdep⟩
  · intro o hcase
    rcases hcase with ho | rfl
    · rcases hc.creator ho with hroot | ⟨o', ho', hcreated⟩
      · exact .inl hroot
      · exact .inr ⟨o', .inl ho', hcreated⟩
    · rcases hafter.creator hnew with hroot | ⟨o', ho', hcreated⟩
      · exact .inl hroot
      · exact .inr ⟨o', hlift ho', hcreated⟩

/-- An operation that lists the frontiers and refers to stored atoms refers to its past. -/
theorem Anchored.orNew (hanchored : Anchored Written)
    (hnamed : ∀ a ∈ op.named, store.log.contains a = true)
    (hlisted : ∀ f ∈ store.log.frontiers.ids, f ∈ op.deps) : Anchored (OrNew Written op) := by
  intro o hcase a hin
  rcases hcase with ho | rfl
  · exact (hanchored o ho a hin).mono fun _ => .inl
  · obtain ⟨f, hf, hreach⟩ := h.log.exists_frontier (hnamed a hin)
    have hlast : PrecedesIn (OrNew Written o) f o.id := by
      refine ⟨o, .inr rfl, Operation.covers_id ha.log.sound.length_pos, .inl ?_⟩
      exact Operation.mem_dependencies.2 (.inl (hlisted f hf))
    rcases hreach with rfl | hbefore
    · exact .single hlast
    · exact .tail ((hbefore.pastIn h.log hw).mono fun _ => .inl) hlast

end Grow

end CausalDoc
