import CausalDoc.Proofs.Document.Corpus
import CausalDoc.Proofs.Log.Closure

/- Frontiers as the newest operations.

   Where operations list last atoms only, and see their container's creation through what
   they list (`Tipped`), an operation is in the past of another one as a whole or not at all
   (`influences_iff`). Then nothing happens after a frontier (`not_before_of_frontier`):
   the next thing would list it, follow it in its peer's history, or be in the container
   that it creates, and in the last case it would list a later atom. So the frontiers are
   the last atoms of the operations that are in nobody's past (`mem_frontiers_iff`), and
   without one of them the others stand for less than the version (`versionOf_drop`). -/

namespace CausalDoc

/-- What operations list are last atoms, and through what they list they see the creation of their
container. -/
structure Tipped (Written : Operation → Prop) : Prop where
  whole : ∀ op, Written op → ∀ d ∈ op.deps, ∃ o, Written o ∧ o.lastId = d
  creator : ∀ op, Written op → ∀ c, op.container.creator? = some c →
    ∃ d ∈ op.deps, c = d ∨ PastIn Written c d

/-- Some atom of `op` is in the causal past of some atom of `o`. -/
def Log.Influences (log : Log) (op o : Operation) : Prop :=
  ∃ a b, op.covers a = true ∧ o.covers b = true ∧ log.HappensBefore a b

section Grow

variable {Written : Operation → Prop} {store : Store} (h : store.Coherent)
  (hw : ∀ o, store.log.Stored o → Written o)

include h hw

/-- One operation more may list the frontiers of a store that can take it. -/
theorem Tipped.orNew {op : Operation} (ht : Tipped Written) (ha : store.Admits op)
    (hdeps : op.deps = store.log.frontiers.toList) : Tipped (OrNew Written op) where
  whole := by
    intro o hcase d hd
    rcases hcase with ho | rfl
    · obtain ⟨o', ho', hlast⟩ := ht.whole o ho d hd
      exact ⟨o', .inl ho', hlast⟩
    · rw [hdeps] at hd
      obtain ⟨o', ho', hlast⟩ := h.log.exists_last hd
      exact ⟨o', .inl (hw o' ho'), hlast.symm⟩
  creator := by
    intro o hcase c hc
    rcases hcase with ho | rfl
    · obtain ⟨d, hd, hreach⟩ := ht.creator o ho c hc
      exact ⟨d, hd, hreach.imp_right fun hpast => hpast.mono fun _ => .inl⟩
    · have hknown : store.log.contains c = true :=
        ha.log.contains_dep h.log (Operation.mem_dependencies.2 (.inr (.inr hc)))
      obtain ⟨f, hf, hreach⟩ := h.log.exists_frontier hknown
      refine ⟨f, by rw [hdeps]; exact hf, hreach.imp_right fun hbefore => ?_⟩
      exact (hbefore.pastIn h.log hw).mono fun _ => .inl

/-- A log has, with an operation, those that it lists. -/
theorem Corpus.tipped (hc : Corpus Written) (ht : Tipped Written) : Tipped store.log.Stored where
  whole := by
    intro op hop d hd
    obtain ⟨o, ho, rfl⟩ := ht.whole op (hw op hop) d hd
    have hknown := h.log.contains_dep hop (Operation.mem_dependencies.2 (.inl hd))
    have hcovers := Operation.covers_lastId (hc.sound ho).length_pos
    exact ⟨o, hc.stored_of_contains h hw ho hcovers hknown, rfl⟩
  creator := by
    intro op hop c hcreator
    obtain ⟨d, hd, hreach⟩ := ht.creator op (hw op hop) c hcreator
    have hknown := h.log.contains_dep hop (Operation.mem_dependencies.2 (.inl hd))
    refine ⟨d, hd, hreach.imp_right fun hpast => ?_⟩
    exact (hc.happensBefore_of_contains h hw hpast hknown).pastIn h.log fun _ ho => ho

end Grow

namespace Store.Coherent

variable {store : Store} (h : store.Coherent) {op o : Operation} {a b f : AtomId}

include h

/-- The creator of a container is the only atom, and so the last one, of the operation that creates
it. -/
theorem exists_creation (hop : store.log.Stored op) (hcreator : op.container.creator? = some a) :
    ∃ creation, store.log.Stored creation ∧ creation.lastId = a := by
  rcases h.creator hop with hroot | ⟨creation, hcreation, hcreated⟩
  · cases hcontainer : op.container with
    | root name kind =>
      rw [hcontainer] at hcreator
      cases hcreator
    | created creator kind =>
      rw [hcontainer] at hroot
      cases hroot
  · obtain ⟨kind, hcontainer⟩ := created?_eq hcreated
    rw [hcontainer] at hcreator
    obtain rfl := Option.some.inj hcreator
    have hone : creation.length = 1 := by
      apply Operation.length_eq_one_of_not_insert
      intro anchor content haction
      rw [Operation.created?, haction] at hcreated
      cases hcreated
    exact ⟨creation, hcreation, by rw [Operation.lastId, hone, AtomId.forward_zero]⟩

variable (ht : Tipped store.log.Stored)

include ht

/-! ## The past of an operation -/

theorem precedes_whole (hop : store.log.Stored op) (ho : store.log.Stored o) (hne : op ≠ o)
    (ha : op.covers a = true) (hb : o.covers b = true) (hab : store.log.Precedes a b) :
    store.log.Precedes op.lastId o.id := by
  have hid := h.log.get?_eq_some_iff.2 ⟨ho, Operation.covers_id (h.log.sound ho).length_pos⟩
  obtain ⟨hauthor, hfirst, hstop⟩ := Operation.covers_iff.1 ha
  obtain ⟨hauthor', hfirst', hstop'⟩ := Operation.covers_iff.1 hb
  -- an operation that ends with the atom is the one that the atom belongs to
  have howner : ∀ {o' : Operation}, store.log.Stored o' → o'.lastId = a → op.lastId = a := by
    intro o' ho' hlast
    have hcovers := Operation.covers_lastId (h.log.sound ho').length_pos
    rw [hlast] at hcovers
    rw [h.log.eq_of_covers hop ho' ha hcovers, hlast]
  have hearlier : a.peer = o.id.peer → a.counter < o.stop →
      store.log.Precedes op.lastId o.id := by
    intro hpeer hlt
    have hsame : op.id.peer = o.id.peer := hauthor.symm.trans hpeer
    refine ⟨o, hid, .inr ⟨hsame, ?_⟩⟩
    have hlast := Operation.stop_eq_lastId (h.log.sound hop).length_pos
    rcases h.log.apart hop ho hne hsame with hbefore | hafter
    · omega
    · omega
  obtain ⟨o', hget, hpast⟩ := hab
  obtain rfl : o = o' := Option.some.inj ((h.log.get?_eq_some_iff.2 ⟨ho, hb⟩).symm.trans hget)
  rcases hpast with hdep | ⟨hpeer, hlt⟩
  · rcases Operation.mem_dependencies.1 hdep with hlisted | ⟨hpeer, hprevious⟩ | hcreator
    · obtain ⟨o', ho', hlast⟩ := ht.whole _ ho a hlisted
      rw [howner ho' hlast]
      exact h.log.precedes_id ho hdep
    · exact hearlier hpeer (by omega)
    · obtain ⟨creation, hcreation, hlast⟩ := h.exists_creation ho hcreator
      rw [howner hcreation hlast]
      exact h.log.precedes_id ho hdep
  · exact hearlier (hpeer.trans hauthor') (by omega)

/-- An operation is in the past of another one when its last atom is in the past of the first one
of that. -/
theorem influences_iff (hop : store.log.Stored op) (ho : store.log.Stored o) (hne : op ≠ o) :
    store.log.Influences op o ↔ store.log.HappensBefore op.lastId o.id := by
  refine ⟨?_, ?_⟩
  · intro hgiven
    obtain ⟨a, b, ha, hb, hab⟩ := hgiven
    -- along the chain, from each operation that it passes through to the next one
    induction hab using Relation.TransGen.head_induction_on generalizing op with
    | single hab => exact .single (h.precedes_whole ht hop ho hne ha hb hab)
    | @head a c hac hcb ih =>
      obtain ⟨mid, hmid, hc⟩ := h.log.contains_iff_covers.1 (Log.HappensBefore.contains hcb h.log)
      by_cases hend : mid = o
      · subst hend
        exact .single (h.precedes_whole ht hop hmid hne ha hc hac)
      · have hrest := ih hmid hend hc
        by_cases hsame : op = mid
        · rwa [hsame]
        · have hstep := h.precedes_whole ht hop hmid hsame ha hc hac
          have hknown := hrest.contains h.log
          have hinner : mid.id.counter ≤ mid.lastId.counter := Nat.le_add_right _ _
          rcases h.log.eq_or_before hknown Operation.lastId_peer.symm hinner with heq | hbefore
          · exact .head (heq ▸ hstep) hrest
          · exact .head hstep (hbefore.trans hrest)
  · intro hbefore
    exact ⟨op.lastId, o.id, Operation.covers_lastId (h.log.sound hop).length_pos,
      Operation.covers_id (h.log.sound ho).length_pos, hbefore⟩

omit ht in
/-- Then so is every atom of it, and in the past of every atom of the other one. -/
theorem happensBefore_of_covers (hop : store.log.Stored op) (ho : store.log.Stored o)
    (hbefore : store.log.HappensBefore op.lastId o.id) (ha : op.covers a = true)
    (hb : o.covers b = true) : store.log.HappensBefore a b := by
  obtain ⟨hauthor, hfirst, hstop⟩ := Operation.covers_iff.1 ha
  obtain ⟨hauthor', hfirst', hstop'⟩ := Operation.covers_iff.1 hb
  have hlast := Operation.stop_eq_lastId (h.log.sound hop).length_pos
  have hhead : store.log.HappensBefore a o.id := by
    rcases h.log.eq_or_before (hbefore.contains h.log) hauthor (by omega) with rfl | hinner
    · exact hbefore
    · exact hinner.trans hbefore
  have hknown := h.log.contains_of_covers ho hb
  rcases h.log.eq_or_before hknown hauthor'.symm hfirst' with heq | hinner
  · rwa [← heq]
  · exact hhead.trans hinner

/-! ## Frontiers -/

/-- Nothing happens after a frontier. -/
theorem not_before_of_frontier (hf : f ∈ store.log.frontiers.ids) :
    ¬ store.log.HappensBefore f b := by
  obtain ⟨hnext, hunlisted⟩ := (h.log.frontiers f).1 hf
  intro hbefore
  obtain ⟨-, l, -, hl, -⟩ := hbefore.lamport_lt h.log
  induction l using Nat.strongRecOn generalizing b with
  | ind l ih =>
    obtain ⟨c, hfc, hcb⟩ := Relation.TransGen.head'_iff.1 hbefore
    obtain ⟨o, hget, hpast⟩ := hfc
    obtain ⟨ho, hcovers⟩ := h.log.get?_eq_some_iff.1 hget
    have hle : o.lamport ≤ l := by
      have hc := Log.lamport?_eq_some_iff.2 ⟨o, hget, rfl⟩
      rcases Relation.reflTransGen_iff_eq_or_transGen.1 hcb with rfl | hcb
      · rw [hl, Option.some.injEq] at hc
        omega
      · obtain ⟨k, k', hk, hk', hlt⟩ := Log.HappensBefore.lamport_lt hcb h.log
        rw [hc, Option.some.injEq] at hk
        rw [hl, Option.some.injEq] at hk'
        omega
    have hend := (h.log.contiguous o.id.peer).stop_le_endOf.2 o ho
    rw [← h.log.next] at hend
    obtain ⟨hauthor, hfirst, hstop⟩ := Operation.covers_iff.1 hcovers
    rcases hpast with hdep | ⟨hpeer, hlt⟩
    · rcases Operation.mem_dependencies.1 hdep with hlisted | ⟨hpeer, hprevious⟩ | hcreator
      · exact hunlisted o ho hlisted
      · rw [← hpeer, hnext] at hend
        omega
      · -- what the operation lists saw the container
        obtain ⟨d, hd, rfl | hseen⟩ := ht.creator o ho f hcreator
        · exact hunlisted o ho hd
        · obtain ⟨k, hk, hlt⟩ := h.log.deps ho d (Operation.mem_dependencies.2 (.inl hd))
          have hbefore := h.corpus.happensBefore_of_contains h (fun _ ho => ho) hseen
            (h.log.contains_iff_lamport?.2 ⟨k, hk⟩)
          exact ih k (by omega) hbefore hk
    · rw [← hauthor, ← hpeer, hnext] at hend
      omega

/-- The frontiers are the last atoms of the operations that are in the past of no other one. -/
theorem mem_frontiers_iff : a ∈ store.log.frontiers.ids ↔
    ∃ op, store.log.Stored op ∧ a = op.lastId ∧
      ∀ o, store.log.Stored o → o ≠ op → ¬ store.log.Influences op o := by
  refine ⟨?_, ?_⟩
  · intro ha
    obtain ⟨op, hop, rfl⟩ := h.log.exists_last ha
    refine ⟨op, hop, rfl, ?_⟩
    intro o ho hne hinfluences
    exact h.not_before_of_frontier ht ha ((h.influences_iff ht hop ho hne.symm).1 hinfluences)
  · intro hgiven
    obtain ⟨op, hop, rfl, hnewest⟩ := hgiven
    have hcovers := Operation.covers_lastId (h.log.sound hop).length_pos
    obtain ⟨f, hf, hreach⟩ := h.log.exists_frontier (h.log.contains_of_covers hop hcovers)
    rcases hreach with rfl | hbefore
    · exact hf
    · obtain ⟨o, ho, hlast⟩ := h.log.exists_last hf
      have hcovers' := Operation.covers_lastId (h.log.sound ho).length_pos
      by_cases hsame : o = op
      · rw [hlast, hsame] at hbefore
        obtain ⟨k, l, hk, hl, hlt⟩ := hbefore.lamport_lt h.log
        rw [hk, Option.some.injEq] at hl
        omega
      · exact absurd ⟨op.lastId, f, hcovers, hlast ▸ hcovers', hbefore⟩ (hnewest o ho hsame)

theorem versionOf_drop (hf : f ∈ store.log.frontiers.ids) :
    ∃ v, store.log.versionOf ⟨store.log.frontiers.ids.filter (· ≠ f)⟩ = .ok v ∧
      v.order? store.log.version = some .lt := by
  obtain ⟨others, hdrop⟩ : ∃ others : Frontiers,
      others = ⟨store.log.frontiers.ids.filter (· ≠ f)⟩ := ⟨_, rfl⟩
  have hothers : ∀ g, g ∈ others.toList ↔ g ∈ store.log.frontiers.ids ∧ g ≠ f := by
    intro g
    rw [hdrop, Frontiers.toList, List.mem_filter, decide_eq_true_eq]
  obtain ⟨v, hv, hcovers⟩ := h.log.versionOf_eq fun g hg =>
    h.log.contains_of_frontier ((hothers g).1 hg).1
  have hless : store.log.version.includesAll v = true := by
    apply VersionVector.includesAll_iff.2
    intro a ha
    obtain ⟨g, hg, rfl | hbefore⟩ := (hcovers a).1 ha
    · exact h.log.contains_of_frontier ((hothers a).1 hg).1
    · exact hbefore.contains h.log
  have hmissing : ¬ v.includesAll store.log.version = true := by
    intro hall
    have hseen := VersionVector.includesAll_iff.1 hall f (h.log.contains_of_frontier hf)
    obtain ⟨g, hg, hreach⟩ := (hcovers f).1 hseen
    rcases hreach with rfl | hbefore
    · exact ((hothers f).1 hg).2 rfl
    · exact h.not_before_of_frontier ht hf hbefore
  refine ⟨v, hdrop ▸ hv, ?_⟩
  rw [VersionVector.order?, hless, Bool.eq_false_iff.2 hmissing]

end Store.Coherent

end CausalDoc
