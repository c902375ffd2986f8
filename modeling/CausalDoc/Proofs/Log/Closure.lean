import CausalDoc.Log.Closure
import CausalDoc.Proofs.Log.Past

/- The version that frontiers stand for.

   The walk over what atoms depend on keeps one law: what directly precedes a covered atom
   is covered or waits on the stack. When the stack is empty the version is closed under
   causality, and nothing was covered but what waited there and the past of it. So from
   stored atoms the walk ends with the least version that covers them and their past
   (`Coherent.closeOver_eq`). The frontiers see everything, so theirs is the whole version
   (`Coherent.versionOf_frontiers`). -/

namespace CausalDoc

/-- Where every operation ends before the later ones start, those that start no later than a
counter come first. -/
theorem mem_takeWhile_counter {ops : List Operation} {c : Nat}
    (h : ops.Pairwise fun a b => a.stop ≤ b.id.counter) (op : Operation) :
    op ∈ ops.takeWhile (fun o => o.id.counter ≤ c) ↔ op ∈ ops ∧ op.id.counter ≤ c := by
  induction ops with
  | nil => simp
  | cons head ops ih =>
    obtain ⟨hlater, hrest⟩ := List.pairwise_cons.1 h
    by_cases hhead : head.id.counter ≤ c
    · rw [List.takeWhile_cons_of_pos (by simpa using hhead), List.mem_cons, ih hrest,
        List.mem_cons, or_and_right]
      refine or_congr_left ?_
      exact ⟨fun heq => ⟨heq, heq ▸ hhead⟩, fun hop => hop.1⟩
    · rw [List.takeWhile_cons_of_neg (by simpa using hhead)]
      refine ⟨fun hop => absurd hop List.not_mem_nil, ?_⟩
      intro hgiven
      obtain ⟨hop, hle⟩ := hgiven
      rcases List.mem_cons.1 hop with rfl | hop
      · exact absurd hle hhead
      · have := hlater op hop
        rw [Operation.stop] at this
        omega

namespace Log

variable {log : Log} {version : VersionVector} {id a b : AtomId}

/-- The atom is one of the listed ones or happened before one of them. -/
def Below (log : Log) (ids : List AtomId) (a : AtomId) : Prop :=
  ∃ f ∈ ids, a = f ∨ log.HappensBefore a f

/-- The version covers, with an atom, what directly precedes it, unless that waits on the stack. -/
def ClosedBut (log : Log) (version : VersionVector) (stack : List AtomId) : Prop :=
  ∀ a b, version.includes b = true → log.Precedes a b → version.includes a = true ∨ a ∈ stack

theorem includes_extend : (version.extend id).includes a = true ↔
    version.includes a = true ∨ a.peer = id.peer ∧ a.counter ≤ id.counter := by
  rw [VersionVector.includes_iff, VersionVector.includes_iff]
  by_cases hpeer : a.peer = id.peer
  · rw [hpeer, VersionVector.nextCounter_extend_self]
    omega
  · rw [VersionVector.nextCounter_extend_of_ne _ hpeer]
    omega

/-- What the walk goes on with when it covers an atom: what the operations depend on that reach
beyond the covered part and start no later than the atom. -/
theorem mem_newDependencies (h : log.Coherent) :
    a ∈ log.newDependencies version id ↔
      ∃ op, log.Stored op ∧ op.id.peer = id.peer ∧ version.nextCounter id.peer < op.stop ∧
        op.id.counter ≤ id.counter ∧ (a ∈ op.deps ∨ op.container.creator? = some a) := by
  unfold newDependencies
  have hsorted := (h.contiguous id.peer).pairwise.sublist
    (List.dropWhile_sublist fun o => o.stop ≤ version.nextCounter id.peer)
  simp only [List.mem_flatMap, mem_takeWhile_counter hsorted, (h.contiguous _).mem_dropWhile,
    h.stored_iff, List.mem_append, Option.mem_toList, and_assoc]

/-- What the walk goes on with is in the past of the atom. -/
theorem happensBefore_of_newDependency (h : log.Coherent) (hid : log.contains id = true)
    (ha : a ∈ log.newDependencies version id) : log.HappensBefore a id := by
  obtain ⟨op, hop, hpeer, -, hle, hdep⟩ := (mem_newDependencies h).1 ha
  have hfirst : log.Precedes a op.id :=
    h.precedes_id hop (Operation.mem_dependencies.2 (hdep.imp_right .inr))
  rcases h.eq_or_before hid hpeer hle with heq | hbefore
  · exact .single (heq ▸ hfirst)
  · exact .trans (.single hfirst) hbefore

theorem ClosedBut.extend (h : log.Coherent) {rest : List AtomId}
    (hclosed : log.ClosedBut version (id :: rest)) :
    log.ClosedBut (version.extend id) ((log.newDependencies version id).reverse ++ rest) := by
  intro a b hb hab
  rw [includes_extend, List.mem_append, List.mem_reverse]
  by_cases hcovered : version.includes b = true
  · rcases hclosed a b hcovered hab with ha | ha
    · exact .inl (.inl ha)
    · rcases List.mem_cons.1 ha with rfl | ha
      · exact .inl (.inr ⟨rfl, Nat.le_refl _⟩)
      · exact .inr (.inr ha)
  · obtain ⟨hpeer, hle⟩ := (includes_extend.1 hb).resolve_left hcovered
    have hnew : version.nextCounter id.peer ≤ b.counter := by
      rw [VersionVector.includes_iff, hpeer] at hcovered
      exact Nat.not_lt.1 hcovered
    obtain ⟨op, hget, hpast⟩ := hab
    obtain ⟨hop, hcovers⟩ := h.get?_eq_some_iff.1 hget
    obtain ⟨hauthor, hfirst, hstop⟩ := Operation.covers_iff.1 hcovers
    -- predecessors of the same peer are covered with the atom
    have hown : a.peer = b.peer → a.counter < b.counter →
        a.peer = id.peer ∧ a.counter ≤ id.counter :=
      fun hsame hlt => ⟨hsame.trans hpeer, by omega⟩
    have hbrought : (a ∈ op.deps ∨ op.container.creator? = some a) →
        a ∈ log.newDependencies version id := fun hdep =>
      (mem_newDependencies h).2 ⟨op, hop, hauthor ▸ hpeer, by omega, by omega, hdep⟩
    rcases hpast with hdep | ⟨hsame, hlt⟩
    · rcases Operation.mem_dependencies.1 hdep with hdep | ⟨hsame, hprevious⟩ | hdep
      · exact .inr (.inl (hbrought (.inl hdep)))
      · exact .inl (.inr (hown (hsame.trans hauthor.symm) (by omega)))
      · exact .inr (.inl (hbrought (.inr hdep)))
    · exact .inl (.inr (hown hsame hlt))

/-- The version is closed under causality, and covers exactly what was covered before, the atoms
that waited, and their past. -/
structure Completes (log : Log) (before : VersionVector) (stack : List AtomId)
    (after : VersionVector) : Prop where
  more : ∀ a, before.includes a = true → after.includes a = true
  waiting : ∀ a ∈ stack, after.includes a = true
  closed : log.ClosedBut after []
  only : ∀ a, after.includes a = true → before.includes a = true ∨ log.Below stack a

theorem includes_or_mem_dropWhile {stack : List AtomId} (ha : a ∈ stack) :
    version.includes a = true ∨ a ∈ stack.dropWhile version.includes := by
  rw [← List.takeWhile_append_dropWhile (p := version.includes) (l := stack)] at ha
  exact (List.mem_append.1 ha).imp_left (List.all_eq_true.1 List.all_takeWhile a)

/-- One atom covered: what completes the rest completes the whole. -/
theorem Completes.cover (h : log.Coherent) {stack rest : List AtomId} {after : VersionVector}
    (hnext : stack.dropWhile version.includes = id :: rest) (hid : log.contains id = true)
    (hafter : log.Completes (version.extend id) ((log.newDependencies version id).reverse ++ rest)
      after) : log.Completes version stack after where
  more := fun a ha => hafter.more a (includes_extend.2 (.inl ha))
  waiting := by
    intro a ha
    rcases includes_or_mem_dropWhile ha with hcovered | hleft
    · exact hafter.more a (includes_extend.2 (.inl hcovered))
    · rw [hnext] at hleft
      rcases List.mem_cons.1 hleft with rfl | hleft
      · exact hafter.more a (includes_extend.2 (.inr ⟨rfl, Nat.le_refl _⟩))
      · exact hafter.waiting a (List.mem_append_right _ hleft)
  closed := hafter.closed
  only := by
    have hmem : ∀ a ∈ id :: rest, a ∈ stack := by
      intro a ha
      rw [← hnext] at ha
      exact (List.dropWhile_sublist _).mem ha
    intro a ha
    rcases hafter.only a ha with hcovered | ⟨f, hf, hbelow⟩
    · refine (includes_extend.1 hcovered).imp_right fun hin => ?_
      exact ⟨id, hmem id List.mem_cons_self, h.eq_or_before hid hin.1 hin.2⟩
    · right
      rcases List.mem_append.1 hf with hf | hf
      · have hpast := happensBefore_of_newDependency h hid (List.mem_reverse.1 hf)
        refine ⟨id, hmem id List.mem_cons_self, .inr ?_⟩
        rcases hbelow with rfl | hbelow
        · exact hpast
        · exact hbelow.trans hpast
      · exact ⟨f, hmem f (List.mem_cons_of_mem _ hf), hbelow⟩

namespace Coherent

/-- From stored atoms the walk ends with the version that completes what was covered. -/
theorem closeOver_eq (h : log.Coherent) (version : VersionVector) (stack : List AtomId)
    (hstored : ∀ a ∈ stack, log.contains a = true) (hclosed : log.ClosedBut version stack) :
    ∃ v, log.closeOver version stack = .ok v ∧ log.Completes version stack v := by
  induction version, stack using closeOver.induct log with
  | case1 version stack hnext =>
    have hall : ∀ a ∈ stack, version.includes a = true := by
      intro a ha
      exact (includes_or_mem_dropWhile ha).resolve_right (by rw [hnext]; exact List.not_mem_nil)
    refine ⟨version, ?_, ?_⟩
    · rw [closeOver, hnext]
    · refine ⟨fun a ha => ha, hall, ?_, fun a ha => .inl ha⟩
      intro a b hb hab
      exact .inl ((hclosed a b hb hab).elim (fun ha => ha) (hall a))
  | case2 version stack id rest hnext hid ih =>
    have hmem : ∀ a ∈ id :: rest, a ∈ stack := by
      intro a ha
      rw [← hnext] at ha
      exact (List.dropWhile_sublist _).mem ha
    have hstored' : ∀ a ∈ (log.newDependencies version id).reverse ++ rest,
        log.contains a = true := by
      intro a ha
      rcases List.mem_append.1 ha with ha | ha
      · exact (happensBefore_of_newDependency h hid (List.mem_reverse.1 ha)).contains h
      · exact hstored a (hmem a (List.mem_cons_of_mem _ ha))
    have hclosed' : log.ClosedBut version (id :: rest) := by
      intro a b hb hab
      rcases hclosed a b hb hab with ha | ha
      · exact .inl ha
      · exact hnext ▸ includes_or_mem_dropWhile ha
    obtain ⟨v, hv, hafter⟩ := ih hstored' (hclosed'.extend h)
    refine ⟨v, ?_, hafter.cover h hnext hid⟩
    rw [closeOver, hnext]
    dsimp only
    rw [dif_pos hid, hv]
  | case3 version stack id rest hnext hid =>
    -- the atom on top is stored
    have hmem : id ∈ stack :=
      (List.dropWhile_sublist version.includes).mem (hnext ▸ List.mem_cons_self)
    exact absurd (hstored id hmem) hid

/-- Frontiers of stored atoms stand for these atoms and their past. -/
theorem versionOf_eq (h : log.Coherent) {frontiers : Frontiers}
    (hstored : ∀ a ∈ frontiers.toList, log.contains a = true) :
    ∃ v, log.versionOf frontiers = .ok v ∧
      ∀ a, v.includes a = true ↔ log.Below frontiers.toList a := by
  have hnone : ∀ a, VersionVector.empty.includes a = false := fun a => rfl
  obtain ⟨v, hv, hcompletes⟩ := h.closeOver_eq .empty frontiers.toList.reverse
    (fun a ha => hstored a (List.mem_reverse.1 ha))
    (fun a b hb _ => by rw [hnone] at hb; cases hb)
  refine ⟨v, hv, fun a => ⟨?_, ?_⟩⟩
  · intro ha
    rcases hcompletes.only a ha with hbefore | ⟨f, hf, hbelow⟩
    · rw [hnone] at hbefore
      cases hbefore
    · exact ⟨f, List.mem_reverse.1 hf, hbelow⟩
  · intro hbelow
    obtain ⟨f, hf, hreach⟩ := hbelow
    have hcovered := hcompletes.waiting f (List.mem_reverse.2 hf)
    rcases hreach with rfl | hpast
    · exact hcovered
    · -- down the causal past one step at a time
      induction hpast using Relation.TransGen.head_induction_on with
      | single hab =>
        exact (hcompletes.closed _ _ hcovered hab).resolve_right List.not_mem_nil
      | head hab _ ih => exact (hcompletes.closed _ _ ih hab).resolve_right List.not_mem_nil

/-- The frontiers of a log stand for its version. -/
theorem versionOf_frontiers (h : log.Coherent) : log.versionOf log.frontiers = .ok log.version := by
  have hstored : ∀ f ∈ log.frontiers.toList, log.contains f = true :=
    fun f hf => h.contains_of_frontier hf
  obtain ⟨v, hv, hcovers⟩ := h.versionOf_eq hstored
  have hsame : ∀ a, v.includes a = true ↔ log.version.includes a = true := by
    intro a
    rw [hcovers]
    refine ⟨?_, h.exists_frontier⟩
    intro hbelow
    obtain ⟨f, hf, rfl | hpast⟩ := hbelow
    · exact hstored a hf
    · exact hpast.contains h
  rw [hv, VersionVector.ext_includes hsame]

end Coherent

end Log

end CausalDoc
