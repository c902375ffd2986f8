import CausalDoc.Proofs.Log.Coherent
import Mathlib.Logic.Relation

/- The causal past in a log.

   An atom directly precedes those of its peer behind it and those of the operations
   that depend on it. In a coherent log Lamport times grow along every step, so they
   grow along the causal order (`HappensBefore.lamport_lt`) and no two atoms of one peer
   share one (`eq_of_lamport?`). The frontiers see everything: every stored atom is one
   of them or happened before one (`Coherent.exists_frontier`), so an operation that
   lists them has the whole log as its past. -/

namespace CausalDoc.Log

variable {log : Log} {a b : AtomId}

/-- `a` directly precedes the stored atom `b`: the operation of `b` depends on it, or it is an
earlier atom of the same peer. -/
def Precedes (log : Log) (a b : AtomId) : Prop :=
  ∃ op, log.get? b = some op ∧
    (a ∈ op.dependencies ∨ a.peer = b.peer ∧ a.counter < b.counter)

/-- `a` is in the causal past of the stored atom `b`. -/
def HappensBefore (log : Log) : AtomId → AtomId → Prop := Relation.TransGen log.Precedes

namespace Coherent

theorem contains_of_precedes (h : log.Coherent) (hab : log.Precedes a b) :
    log.contains a = true := by
  obtain ⟨op, hget, hdep | ⟨hpeer, hlt⟩⟩ := hab
  · exact h.contains_dep (stored_of_get? hget) hdep
  · exact contains_of_le (h.contains_iff.2 ⟨op, hget⟩) hpeer (Nat.le_of_lt hlt)

theorem precedes_id (h : log.Coherent) {op : Operation} (hop : log.Stored op)
    (ha : a ∈ op.dependencies) : log.Precedes a op.id :=
  ⟨op, h.get?_eq_some_iff.2 ⟨hop, Operation.covers_id (h.sound hop).length_pos⟩, .inl ha⟩

/-- An atom is the last of those of its peer up to it; the others happened before it. -/
theorem eq_or_before (h : log.Coherent) (hb : log.contains b = true) (hpeer : a.peer = b.peer)
    (hle : a.counter ≤ b.counter) : a = b ∨ log.HappensBefore a b := by
  by_cases heq : a = b
  · exact .inl heq
  · have hlt : a.counter < b.counter := by
      apply Nat.lt_of_le_of_ne hle
      exact fun hsame => heq (AtomId.ext hpeer hsame)
    obtain ⟨op, hget⟩ := h.contains_iff.1 hb
    exact .inr (.single ⟨op, hget, .inr ⟨hpeer, hlt⟩⟩)

/-! ## Lamport times of one peer -/

theorem lamport?_succ (h : log.Coherent) {peer c l : Nat}
    (hl : log.lamport? ⟨peer, c + 1⟩ = some l) :
    ∃ k, log.lamport? ⟨peer, c⟩ = some k ∧ k < l := by
  obtain ⟨op, hget, rfl⟩ := lamport?_eq_some_iff.1 hl
  obtain ⟨hop, hcovers⟩ := h.get?_eq_some_iff.1 hget
  obtain ⟨hpeer, hfirst, hstop⟩ := Operation.covers_iff.1 hcovers
  dsimp only at hpeer hfirst hstop ⊢
  by_cases hinner : op.id.counter ≤ c
  · refine ⟨op.lamport + (c - op.id.counter), lamport?_eq_some_iff.2 ⟨op, ?_, rfl⟩, by omega⟩
    refine h.get?_eq_some_iff.2 ⟨hop, Operation.covers_iff.2 ⟨hpeer, hinner, ?_⟩⟩
    dsimp only
    omega
  · -- the atom opens its operation, whose predecessor is a dependency
    have hprevious : (⟨peer, c⟩ : AtomId) ∈ op.dependencies := by
      refine Operation.mem_dependencies.2 (.inr (.inl ⟨hpeer, ?_⟩))
      dsimp only
      omega
    obtain ⟨k, hk, hlt⟩ := h.deps hop _ hprevious
    exact ⟨k, hk, by omega⟩

theorem lamport?_lt_of_counter_lt (h : log.Coherent) {peer c d l : Nat} (hcd : c < d)
    (hl : log.lamport? ⟨peer, d⟩ = some l) : ∃ k, log.lamport? ⟨peer, c⟩ = some k ∧ k < l := by
  induction d generalizing l with
  | zero => exact absurd hcd (Nat.not_lt_zero c)
  | succ d ih =>
    obtain ⟨m, hm, hlt⟩ := h.lamport?_succ hl
    by_cases hc : c = d
    · exact ⟨m, hc ▸ hm, hlt⟩
    · obtain ⟨k, hk, hkm⟩ := ih (by omega) hm
      exact ⟨k, hk, by omega⟩

/-- No two stored atoms of one peer have one Lamport time. -/
theorem eq_of_lamport? (h : log.Coherent) {l : Nat} (hpeer : a.peer = b.peer)
    (ha : log.lamport? a = some l) (hb : log.lamport? b = some l) : a = b := by
  obtain ⟨p, c⟩ := a
  obtain ⟨q, d⟩ := b
  obtain rfl : p = q := hpeer
  rcases Nat.lt_trichotomy c d with hlt | rfl | hlt
  · obtain ⟨k, hk, hkl⟩ := h.lamport?_lt_of_counter_lt hlt hb
    rw [ha, Option.some.injEq] at hk
    omega
  · rfl
  · obtain ⟨k, hk, hkl⟩ := h.lamport?_lt_of_counter_lt hlt ha
    rw [hb, Option.some.injEq] at hk
    omega

theorem lamport?_id (h : log.Coherent) {op : Operation} (hop : log.Stored op) :
    log.lamport? op.id = some op.lamport :=
  lamport?_eq_some_iff.2
    ⟨op, h.get?_eq_some_iff.2 ⟨hop, Operation.covers_id (h.sound hop).length_pos⟩, by omega⟩

theorem eq_of_stamp (h : log.Coherent) {o o' : Operation} (ho : log.Stored o)
    (ho' : log.Stored o') (hstamp : o.stamp = o'.stamp) : o = o' := by
  have hlamport : o.lamport = o'.lamport := congrArg Stamp.lamport hstamp
  have hpeer : o.id.peer = o'.id.peer := congrArg Stamp.peer hstamp
  have hid : o.id = o'.id := by
    apply h.eq_of_lamport? hpeer (h.lamport?_id ho)
    rw [hlamport]
    exact h.lamport?_id ho'
  apply h.eq_of_covers ho ho' (Operation.covers_id (h.sound ho).length_pos)
  rw [hid]
  exact Operation.covers_id (h.sound ho').length_pos

/-! ## Causality and Lamport times -/

theorem lamport?_lt_of_precedes (h : log.Coherent) (hab : log.Precedes a b) :
    ∃ k l, log.lamport? a = some k ∧ log.lamport? b = some l ∧ k < l := by
  obtain ⟨op, hget, hdep | ⟨hpeer, hlt⟩⟩ := hab
  · obtain ⟨k, hk, hlt⟩ := h.deps (stored_of_get? hget) a hdep
    exact ⟨k, _, hk, lamport?_eq_some_iff.2 ⟨op, hget, rfl⟩, by omega⟩
  · have hl := lamport?_eq_some_iff.2 ⟨op, hget, rfl⟩
    obtain ⟨k, hk, hkl⟩ : ∃ k, log.lamport? ⟨b.peer, a.counter⟩ = some k ∧ k < _ :=
      h.lamport?_lt_of_counter_lt hlt hl
    exact ⟨k, _, by rw [← hpeer] at hk; exact hk, hl, hkl⟩

end Coherent

namespace HappensBefore

/-- The causal order only relates stored atoms, and Lamport times grow along it. -/
theorem lamport_lt (hab : log.HappensBefore a b) (h : log.Coherent) :
    ∃ k l, log.lamport? a = some k ∧ log.lamport? b = some l ∧ k < l := by
  induction hab with
  | single hab => exact h.lamport?_lt_of_precedes hab
  | tail _ hbc ih =>
    obtain ⟨k, l, hk, hl, hkl⟩ := ih
    obtain ⟨l', m, hl', hm, hlm⟩ := h.lamport?_lt_of_precedes hbc
    rw [hl, Option.some.injEq] at hl'
    exact ⟨k, m, hk, hm, by omega⟩

theorem contains (hab : log.HappensBefore a b) (h : log.Coherent) : log.contains a = true := by
  obtain ⟨l, -, hl, -⟩ := hab.lamport_lt h
  exact h.contains_iff_lamport?.2 ⟨l, hl⟩

/-- The past of an atom is the same in every log that holds the atom and has the same operations
at the atoms it shares. -/
theorem transfer {log' : Log} (hab : log.HappensBefore a b) (h' : log'.Coherent)
    (hagree : ∀ x o o', log.get? x = some o → log'.get? x = some o' → o = o')
    (hb : log'.contains b = true) : log'.HappensBefore a b ∧ log'.contains a = true := by
  have step : ∀ {x y : AtomId}, log.Precedes x y → log'.contains y = true →
      log'.Precedes x y ∧ log'.contains x = true := by
    intro x y hxy hy
    obtain ⟨op, hget, hpast⟩ := hxy
    obtain ⟨op', hget'⟩ := h'.contains_iff.1 hy
    obtain rfl := hagree y op op' hget hget'
    have hprecedes : log'.Precedes x y := ⟨op, hget', hpast⟩
    exact ⟨hprecedes, h'.contains_of_precedes hprecedes⟩
  induction hab using Relation.TransGen.head_induction_on with
  | single hxb =>
    obtain ⟨hxb, hx⟩ := step hxb hb
    exact ⟨.single hxb, hx⟩
  | head hxy _ ih =>
    obtain ⟨hyb, hy⟩ := ih
    obtain ⟨hxy, hx⟩ := step hxy hy
    exact ⟨.head hxy hyb, hx⟩

end HappensBefore

/-! ## Frontiers -/

theorem Coherent.lamport?_lt_next (h : log.Coherent) {l : Nat} (hl : log.lamport? a = some l) :
    l < log.clock.nextLamport := by
  obtain ⟨op, hget, rfl⟩ := lamport?_eq_some_iff.1 hl
  obtain ⟨hop, hcovers⟩ := h.get?_eq_some_iff.1 hget
  have hle := h.lamport.1 op hop
  obtain ⟨-, hfirst, hstop⟩ := Operation.covers_iff.1 hcovers
  rw [Operation.stop] at hstop
  dsimp only at hle
  omega

/-- A stored atom is in the past of a frontier, or at least of some operation: that which lists the
last atom of its peer. -/
theorem Coherent.frontier_or_before (h : log.Coherent) (ha : log.contains a = true) :
    (∃ f ∈ log.frontiers.ids, a = f ∨ log.HappensBefore a f) ∨ ∃ b, log.HappensBefore a b := by
  rw [contains, VersionVector.includes_iff] at ha
  obtain ⟨c, hc⟩ : ∃ c, log.version.nextCounter a.peer = c + 1 :=
    ⟨log.version.nextCounter a.peer - 1, by omega⟩
  have hlast : log.contains ⟨a.peer, c⟩ = true := by
    rw [contains, VersionVector.includes_iff]
    dsimp only
    omega
  have hle : a.counter ≤ (⟨a.peer, c⟩ : AtomId).counter := by
    dsimp only
    omega
  have hreach : a = ⟨a.peer, c⟩ ∨ log.HappensBefore a ⟨a.peer, c⟩ :=
    h.eq_or_before hlast rfl hle
  by_cases hlisted : ∃ op, log.Stored op ∧ (⟨a.peer, c⟩ : AtomId) ∈ op.deps
  · obtain ⟨op, hop, hmem⟩ := hlisted
    have hstep := h.precedes_id hop (Operation.mem_dependencies.2 (.inl hmem))
    refine .inr ⟨op.id, ?_⟩
    rcases hreach with heq | hbefore
    · rw [heq]
      exact .single hstep
    · exact .tail hbefore hstep
  · exact .inl ⟨⟨a.peer, c⟩,
      (h.frontiers _).2 ⟨hc, fun op hop hmem => hlisted ⟨op, hop, hmem⟩⟩, hreach⟩

/-- The frontiers have every stored atom in their past. -/
theorem Coherent.exists_frontier (h : log.Coherent) (ha : log.contains a = true) :
    ∃ f ∈ log.frontiers.ids, a = f ∨ log.HappensBefore a f := by
  -- from one peer's last atom up to the operation that lists it, until nobody does; Lamport
  -- times grow on the way
  suffices climb : ∀ n a l, log.lamport? a = some l → log.clock.nextLamport - l ≤ n →
      ∃ f ∈ log.frontiers.ids, a = f ∨ log.HappensBefore a f by
    obtain ⟨l, hl⟩ := h.contains_iff_lamport?.1 ha
    exact climb _ a l hl (Nat.le_refl _)
  intro n
  induction n with
  | zero =>
    intro a l hl hn
    have := h.lamport?_lt_next hl
    omega
  | succ n ih =>
    intro a l hl hn
    rcases h.frontier_or_before (h.contains_iff_lamport?.2 ⟨l, hl⟩) with htop | ⟨b, hab⟩
    · exact htop
    · obtain ⟨k, m, hk, hm, hlt⟩ := hab.lamport_lt h
      rw [hl, Option.some.injEq] at hk
      have := h.lamport?_lt_next hm
      obtain ⟨f, hf, hup⟩ := ih b m hm (by omega)
      refine ⟨f, hf, .inr ?_⟩
      rcases hup with rfl | hup
      · exact hab
      · exact .trans hab hup

end CausalDoc.Log
