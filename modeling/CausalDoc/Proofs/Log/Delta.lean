import CausalDoc.Log.Delta
import CausalDoc.Proofs.Log.Coherent

/- What a log sends to a version.

   A version is sent the new part of every stored operation that it does not cover to the
   end (`Gapless.mem_since`), each once and in the order of the stamps; the empty version is sent
   everything. Between the versions of two moments lie the operations that were stored
   between them, each as a whole (`mem_between`). -/

namespace CausalDoc.Log

variable {log : Log} {op : Operation}

theorem mem_subtract {v w : VersionVector} {span : Span} :
    span ∈ v.subtract w ↔
      span.first = w.nextCounter span.peer ∧ span.first < span.stop ∧
        v.nextCounter span.peer = span.stop := by
  simp only [VersionVector.subtract, List.mem_filterMap, Prod.exists,
    ← OrderedMap.get?_eq_some_iff, Option.ite_none_right_eq_some, Option.some.injEq]
  refine ⟨?_, ?_⟩
  · intro hgiven
    obtain ⟨peer, c, hget, hle, rfl⟩ := hgiven
    have hnext : v.nextCounter peer = c + 1 := VersionVector.get?_eq_some_iff.1 hget
    exact ⟨rfl, Nat.lt_succ_of_le hle, hnext⟩
  · intro hgiven
    obtain ⟨hfirst, hlt, hstop⟩ := hgiven
    refine ⟨span.peer, span.stop - 1, ?_, ?_, ?_⟩
    · apply VersionVector.get?_eq_some_iff.2
      omega
    · omega
    · cases span
      rw [Span.mk.injEq]
      dsimp only at *
      omega

/-- What is sent: of every stored operation the part that the version does not cover. -/
theorem Gapless.mem_since (h : log.Gapless) {v : VersionVector} :
    op ∈ log.since v ↔ ∃ o, log.Stored o ∧ v.nextCounter o.id.peer < o.stop ∧
      op = o.suffix (v.nextCounter o.id.peer) := by
  rw [since, (sortByKey_perm _ _).mem_iff]
  simp only [List.mem_flatMap, mem_subtract, List.mem_map, (h.contiguous _).mem_dropWhile,
    h.stored_iff]
  refine ⟨?_, ?_⟩
  · intro hgiven
    obtain ⟨span, ⟨hfirst, -, -⟩, o, ⟨⟨ho, hpeer⟩, hlt⟩, rfl⟩ := hgiven
    rw [hfirst, ← hpeer] at hlt ⊢
    exact ⟨o, ho, hlt, rfl⟩
  · intro hgiven
    obtain ⟨o, ho, hlt, rfl⟩ := hgiven
    have hstop := (h.contiguous o.id.peer).stop_le_endOf.2 o ho
    rw [← h.next] at hstop
    exact ⟨⟨o.id.peer, v.nextCounter o.id.peer, log.version.nextCounter o.id.peer⟩,
      ⟨rfl, Nat.lt_of_lt_of_le hlt hstop, rfl⟩, o, ⟨⟨ho, rfl⟩, hlt⟩, rfl⟩

theorem Gapless.mem_all (h : log.Gapless) : op ∈ log.all ↔ log.Stored op := by
  rw [all, h.mem_since]
  have hzero : ∀ peer, VersionVector.empty.nextCounter peer = 0 := fun _ => rfl
  simp only [hzero]
  refine ⟨?_, ?_⟩
  · intro hgiven
    obtain ⟨o, ho, -, rfl⟩ := hgiven
    rwa [Operation.suffix_of_le (Nat.zero_le _)]
  · intro hop
    exact ⟨op, hop, (h.sound hop).stop_pos, (Operation.suffix_of_le (Nat.zero_le _)).symm⟩

theorem pairwise_since (log : Log) (v : VersionVector) :
    (log.since v).Pairwise fun a b => ¬ b.stamp < a.stamp := by
  refine (pairwise_sortByKey Operation.stamp _).imp fun {a b} hle hlt => ?_
  have hgt : compare a.stamp b.stamp = .gt := Std.OrientedCmp.gt_iff_lt.2 hlt
  rw [hgt] at hle
  cases hle

theorem pairwise_all (log : Log) : log.all.Pairwise fun a b => ¬ b.stamp < a.stamp :=
  log.pairwise_since .empty

theorem pairwise_subtract (v w : VersionVector) :
    (v.subtract w).Pairwise fun a b => a.peer ≠ b.peer := by
  refine List.pairwise_filterMap.2 (v.last.ascending.imp fun {a b} hlt x hx y hy hpeer => ?_)
  rw [Option.ite_none_right_eq_some, Option.some.injEq] at hx hy
  obtain ⟨-, rfl⟩ := hx
  obtain ⟨-, rfl⟩ := hy
  change a.1 = b.1 at hpeer
  rw [hpeer, Std.ReflOrd.compare_self] at hlt
  cases hlt

/-- Nothing is sent twice. -/
theorem Gapless.nodup_since (h : log.Gapless) (v : VersionVector) : (log.since v).Nodup := by
  rw [since, (sortByKey_perm _ _).nodup_iff, List.Nodup, List.pairwise_flatMap]
  refine ⟨fun span _ => ?_, ?_⟩
  · -- of one peer's operations the later starts where the earlier has ended
    refine List.pairwise_map.2 ((((h.contiguous span.peer).pairwise.sublist
      (List.dropWhile_sublist _)).imp_of_mem fun {a b} ha _ hle heq => ?_))
    obtain ⟨hin, hlt⟩ := (h.contiguous _).mem_dropWhile.1 ha
    have hpos := (h.sound (h.stored_iff.1 hin).1).length_pos
    have hcounter := congrArg (fun op => op.id.counter) heq
    simp only [Operation.suffix_id] at hcounter
    rw [Operation.stop] at hle hlt
    omega
  · -- and different spans are of different peers
    refine (pairwise_subtract log.version v).imp fun {s t} hpeer x hx y hy heq => hpeer ?_
    obtain ⟨a, ha, rfl⟩ := List.mem_map.1 hx
    obtain ⟨b, hb, rfl⟩ := List.mem_map.1 hy
    have hsame := congrArg (fun op => op.id.peer) heq
    simp only [Operation.suffix_id] at hsame
    calc s.peer
        = a.id.peer := (h.own ((List.dropWhile_sublist _).mem ha)).symm
      _ = b.id.peer := hsame
      _ = t.peer := h.own ((List.dropWhile_sublist _).mem hb)

/-! ## Between two moments -/

section Between

variable {first second : Log}

/-- The version of an earlier moment falls between operations: it covers a stored operation to the
end, or nothing of it. -/
theorem Coherent.stored_or_next_le (h : log.Coherent) (hfirst : first.Coherent)
    (hgrown : ∀ o, first.Stored o → log.Stored o) (ho : log.Stored op) :
    first.Stored op ∨ first.version.nextCounter op.id.peer ≤ op.id.counter := by
  by_cases hle : first.version.nextCounter op.id.peer ≤ op.id.counter
  · exact .inr hle
  · -- the first atom is covered, and belongs to one stored operation only
    left
    have hin : first.contains op.id = true := VersionVector.includes_iff.2 (Nat.not_le.1 hle)
    obtain ⟨o, hstored, hcovers⟩ := hfirst.contains_iff_covers.1 hin
    have hid := Operation.covers_id (h.sound ho).length_pos
    rwa [h.eq_of_covers ho (hgrown o hstored) hid hcovers]

/-- What lies between the versions of two moments is what was stored between them. -/
theorem mem_between (h : log.Coherent) (hfirst : first.Coherent) (hsecond : second.Coherent)
    (hbefore : ∀ o, first.Stored o → second.Stored o)
    (hafter : ∀ o, second.Stored o → log.Stored o) :
    op ∈ log.between first.version second.version ↔ second.Stored op ∧ ¬ first.Stored op := by
  have hgrown : ∀ o, first.Stored o → log.Stored o := fun o ho => hafter o (hbefore o ho)
  rw [between, List.mem_filter, h.mem_since]
  refine ⟨?_, ?_⟩
  · intro hgiven
    obtain ⟨⟨o, ho, hlt, rfl⟩, hlast⟩ := hgiven
    have hnew : ¬ first.Stored o := by
      intro hold
      have hstop := (hfirst.contiguous o.id.peer).stop_le_endOf.2 o hold
      rw [← hfirst.next] at hstop
      omega
    have hle := (h.stored_or_next_le hfirst hgrown ho).resolve_left hnew
    rw [Operation.suffix_of_le hle] at hlast ⊢
    refine ⟨(h.stored_or_next_le hsecond hafter ho).resolve_right fun hnext => ?_, hnew⟩
    rw [VersionVector.includes_iff, Operation.lastId, AtomId.forward_counter,
      AtomId.forward_peer] at hlast
    omega
  · intro hgiven
    obtain ⟨hstored, hnew⟩ := hgiven
    have ho := hafter op hstored
    have hpos := (h.sound ho).length_pos
    have hle := (h.stored_or_next_le hfirst hgrown ho).resolve_left hnew
    have hstop : op.id.counter < op.stop := Nat.lt_add_of_pos_right hpos
    exact ⟨⟨op, ho, Nat.lt_of_le_of_lt hle hstop, (Operation.suffix_of_le hle).symm⟩,
      hsecond.contains_of_covers hstored (Operation.covers_lastId hpos)⟩

end Between

end CausalDoc.Log
