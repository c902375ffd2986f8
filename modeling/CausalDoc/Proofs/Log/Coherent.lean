import CausalDoc.Log.Basic
import CausalDoc.Proofs.Operation
import CausalDoc.Proofs.Ordered

/- What every log keeps.

   A log admits an operation that is sound, continues its peer's history, and depends on
   stored atoms of smaller Lamport times only (`Admits`); pushing it then cannot fail
   (`append_eq`). `Coherent` says what pushes of admitted operations keep: gapless
   histories that the version vector describes, dependencies that are stored and older,
   and frontiers and a clock that are functions of the stored operations. From it the
   look-ups are exact: an atom is contained when one stored operation covers it, and
   `get?` finds that operation. -/

namespace CausalDoc

namespace VersionVector

theorem get?_eq_some_iff {v : VersionVector} {peer c : Nat} :
    v.get? peer = some c ↔ v.nextCounter peer = c + 1 := by
  unfold nextCounter
  cases v.get? peer with
  | none => simp
  | some d => simp

theorem includes_iff {v : VersionVector} {a : AtomId} :
    v.includes a = true ↔ a.counter < v.nextCounter a.peer := by
  rw [includes, decide_eq_true_eq]

theorem includes_of_le {v : VersionVector} {a b : AtomId} (hb : v.includes b = true)
    (hpeer : a.peer = b.peer) (hle : a.counter ≤ b.counter) : v.includes a = true := by
  rw [includes_iff] at *
  rw [hpeer]
  omega

theorem ext_nextCounter {v w : VersionVector}
    (h : ∀ peer, v.nextCounter peer = w.nextCounter peer) : v = w := by
  have hget : ∀ peer, v.get? peer = w.get? peer := by
    intro peer
    refine Option.ext fun c => ?_
    rw [get?_eq_some_iff, get?_eq_some_iff, h peer]
  cases v
  cases w
  exact congrArg _ (OrderedMap.ext hget)

theorem ext_includes {v w : VersionVector}
    (h : ∀ a, v.includes a = true ↔ w.includes a = true) : v = w := by
  refine ext_nextCounter fun peer => ?_
  have hbelow : ∀ c, c < v.nextCounter peer ↔ c < w.nextCounter peer := by
    intro c
    have := h ⟨peer, c⟩
    rwa [includes_iff, includes_iff] at this
  have := hbelow (v.nextCounter peer)
  have := hbelow (w.nextCounter peer)
  omega

theorem includesAll_iff {v w : VersionVector} :
    v.includesAll w = true ↔ ∀ a, w.includes a = true → v.includes a = true := by
  have hentry : ∀ {e : Nat × Nat}, e ∈ w.last.entries ↔ w.nextCounter e.1 = e.2 + 1 := by
    intro e
    rw [← get?_eq_some_iff, get?, OrderedMap.get?_eq_some_iff]
  rw [includesAll, List.all_eq_true]
  refine ⟨?_, ?_⟩
  · intro hall a ha
    rw [includes_iff] at ha ⊢
    have hlast := hall (a.peer, w.nextCounter a.peer - 1) (hentry.2 (by dsimp only; omega))
    rw [includes_iff] at hlast
    dsimp only at hlast
    omega
  · intro hall e he
    apply hall
    rw [includes_iff, hentry.1 he]
    exact Nat.lt_succ_self _

theorem order?_of_includesAll {v w : VersionVector} (h : v.includesAll w = true) :
    v.order? w = some (if w = v then .eq else .gt) := by
  by_cases hback : w.includesAll v = true
  · have hsame : w = v :=
      ext_includes fun a => ⟨includesAll_iff.1 h a, includesAll_iff.1 hback a⟩
    rw [order?, h, hback, if_pos hsame]
  · have hother : w ≠ v := by
      rintro rfl
      exact hback h
    rw [Bool.not_eq_true] at hback
    rw [order?, h, hback, if_neg hother]

end VersionVector

/-! ## Histories -/

/-- The operations follow each other without a gap, the first at counter `first`. -/
def Contiguous : Nat → List Operation → Prop
  | _, [] => True
  | first, op :: ops => op.id.counter = first ∧ Contiguous op.stop ops

/-- The counter behind operations that start at `first`. -/
def endOf : Nat → List Operation → Nat
  | first, [] => first
  | _, op :: ops => endOf op.stop ops

namespace Contiguous

variable {first : Nat} {ops : List Operation}

theorem concat {op : Operation} (h : Contiguous first ops) (hop : op.id.counter = endOf first ops) :
    Contiguous first (ops ++ [op]) := by
  induction ops generalizing first with
  | nil => exact ⟨hop, trivial⟩
  | cons head ops ih => exact ⟨h.1, ih h.2 hop⟩

theorem endOf_concat (op : Operation) : endOf first (ops ++ [op]) = op.stop := by
  induction ops generalizing first with
  | nil => rfl
  | cons head ops ih => exact ih

theorem first_le (h : Contiguous first ops) :
    ∀ op ∈ ops, first ≤ op.id.counter := by
  induction ops generalizing first with
  | nil => exact fun op hop => absurd hop List.not_mem_nil
  | cons head ops ih =>
    intro op hop
    rcases List.mem_cons.1 hop with rfl | hop
    · exact Nat.le_of_eq h.1.symm
    · have := ih h.2 op hop
      have := h.1
      rw [Operation.stop] at *
      omega

theorem pairwise (h : Contiguous first ops) : ops.Pairwise fun a b => a.stop ≤ b.id.counter := by
  induction ops generalizing first with
  | nil => exact .nil
  | cons head ops ih => exact .cons h.2.first_le (ih h.2)

theorem stop_le_endOf (h : Contiguous first ops) :
    first ≤ endOf first ops ∧ ∀ op ∈ ops, op.stop ≤ endOf first ops := by
  induction ops generalizing first with
  | nil => exact ⟨Nat.le_refl _, fun op hop => absurd hop List.not_mem_nil⟩
  | cons head ops ih =>
    obtain ⟨hle, hall⟩ := ih h.2
    have hhead := h.1
    refine ⟨?_, fun op hop => ?_⟩
    · rw [endOf]
      rw [Operation.stop] at *
      omega
    · rcases List.mem_cons.1 hop with rfl | hop
      · exact hle
      · exact hall op hop

/-- Every counter in reach belongs to one of the operations. -/
theorem exists_covering {c : Nat} (h : Contiguous first ops) (hfirst : first ≤ c)
    (hend : c < endOf first ops) : ∃ op ∈ ops, op.id.counter ≤ c ∧ c < op.stop := by
  induction ops generalizing first with
  | nil => exact absurd hend (Nat.not_lt.2 hfirst)
  | cons head ops ih =>
    by_cases hc : c < head.stop
    · exact ⟨head, List.mem_cons_self, by rw [h.1]; exact hfirst, hc⟩
    · obtain ⟨op, hop, hcover⟩ := ih h.2 (Nat.not_lt.1 hc) hend
      exact ⟨op, List.mem_cons_of_mem _ hop, hcover⟩

/-- The first operation that ends behind a counter is the one that covers it. -/
theorem find?_eq {c : Nat} {op : Operation} (h : Contiguous first ops) (hop : op ∈ ops)
    (hfirst : op.id.counter ≤ c) (hstop : c < op.stop) :
    ops.find? (fun o => c < o.stop) = some op := by
  induction ops generalizing first with
  | nil => exact absurd hop List.not_mem_nil
  | cons head ops ih =>
    rcases List.mem_cons.1 hop with rfl | hop
    · exact List.find?_cons_of_pos (by simpa using hstop)
    · have := h.2.first_le op hop
      rw [List.find?_cons_of_neg (by simp; omega)]
      exact ih h.2 hop

theorem mem_dropWhile {c : Nat} {op : Operation} (h : Contiguous first ops) :
    op ∈ ops.dropWhile (fun o => o.stop ≤ c) ↔ op ∈ ops ∧ c < op.stop := by
  induction ops generalizing first with
  | nil => simp
  | cons head ops ih =>
    by_cases hhead : head.stop ≤ c
    · rw [List.dropWhile_cons_of_pos (by simpa using hhead), ih h.2, List.mem_cons]
      refine ⟨?_, ?_⟩
      · exact fun hop => ⟨.inr hop.1, hop.2⟩
      · intro hgiven
        rcases hgiven with ⟨rfl | hop, hlt⟩
        · omega
        · exact ⟨hop, hlt⟩
    · rw [List.dropWhile_cons_of_neg (by simpa using hhead)]
      refine ⟨?_, ?_⟩
      · intro hop
        refine ⟨hop, ?_⟩
        rcases List.mem_cons.1 hop with rfl | hop
        · omega
        · have := h.2.first_le op hop
          rw [Operation.stop] at *
          omega
      · exact fun hop => hop.1

/-- Runs from the same counter with the same operations are the same. -/
theorem eq_of_mem_iff {ops' : List Operation} (h : Contiguous first ops)
    (h' : Contiguous first ops') (hpos : ∀ op ∈ ops, 0 < op.length)
    (hmem : ∀ op, op ∈ ops ↔ op ∈ ops') : ops = ops' := by
  induction ops generalizing first ops' with
  | nil =>
    cases ops' with
    | nil => rfl
    | cons head' ops' => exact absurd ((hmem head').2 List.mem_cons_self) List.not_mem_nil
  | cons head ops ih =>
    cases ops' with
    | nil => exact absurd ((hmem head).1 List.mem_cons_self) List.not_mem_nil
    | cons head' ops' =>
      -- of all operations in either list only the first one starts where the list does
      have hlater : ∀ {x : Operation} {xs : List Operation}, Contiguous first (x :: xs) →
          0 < x.length → ∀ op ∈ xs, first < op.id.counter := by
        intro x xs hx hpos op hop
        have hfirst := hx.1
        have := hx.2.first_le op hop
        rw [Operation.stop] at this
        omega
      have hposHead := hpos head List.mem_cons_self
      have hposHead' := hpos head' ((hmem head').2 List.mem_cons_self)
      have heq : head = head' := by
        rcases List.mem_cons.1 ((hmem head).1 List.mem_cons_self) with heq | hin
        · exact heq
        · have := hlater h' hposHead' head hin
          have := h.1
          omega
      subst heq
      congr 1
      apply ih h.2 h'.2 fun op hop => hpos op (List.mem_cons_of_mem _ hop)
      intro op
      have hop := hmem op
      rw [List.mem_cons, List.mem_cons] at hop
      refine ⟨?_, ?_⟩
      · intro hin
        have := hlater h hposHead op hin
        rcases hop.1 (.inr hin) with rfl | hin'
        · have := h.1
          omega
        · exact hin'
      · intro hin
        have := hlater h' hposHead op hin
        rcases hop.2 (.inr hin) with rfl | hin'
        · have := h.1
          omega
        · exact hin'

end Contiguous

namespace Log

/-! ## Stored operations -/

def Stored (log : Log) (op : Operation) : Prop := op ∈ log.history op.id.peer

/-- The log after an operation that continues its peer's history. -/
def push (log : Log) (op : Operation) : Log where
  histories := log.histories.insert op.id.peer (log.history op.id.peer ++ [op])
  version := log.version.extend op.lastId
  frontiers := log.frontiers.advance op.deps op.lastId
  clock := log.clock.observe op.lamport op.length op.timestamp

theorem append_eq {log : Log} {op : Operation}
    (h : op.id.counter = log.version.nextCounter op.id.peer) : log.append op = .ok (log.push op) := by
  unfold append
  rw [if_neg (fun hne => hne h)]
  rfl

/-- The operation can be the next one: it is sound, it continues its peer's history, and what it
depends on is stored and has smaller Lamport times. -/
structure Admits (log : Log) (op : Operation) : Prop where
  sound : op.Sound
  next : op.id.counter = log.version.nextCounter op.id.peer
  deps : ∀ d ∈ op.dependencies, ∃ l, log.lamport? d = some l ∧ l < op.lamport

/-- `m` is the largest value that `f` takes on stored operations; 0 when there is none. -/
def Largest (log : Log) (f : Operation → Nat) (m : Nat) : Prop :=
  (∀ op, log.Stored op → f op ≤ m) ∧ (m = 0 ∨ ∃ op, log.Stored op ∧ f op = m)

/-- What a log keeps whatever its operations refer to. -/
structure Gapless (log : Log) : Prop where
  /-- Every history holds operations of its own peer. -/
  own : ∀ {peer : Nat} {op : Operation}, op ∈ log.history peer → op.id.peer = peer
  /-- Stored operations are sound. -/
  sound : ∀ {op : Operation}, log.Stored op → op.Sound
  /-- Every history is gapless from counter 0. -/
  contiguous : ∀ peer, Contiguous 0 (log.history peer)
  /-- The version vector tells where every history ends. -/
  next : ∀ peer, log.version.nextCounter peer = endOf 0 (log.history peer)

/-- What every log keeps that takes admitted operations only. -/
structure Coherent (log : Log) : Prop extends Gapless log where
  /-- No history is kept of a peer without operations. -/
  nonempty : ∀ peer, log.histories.get? peer ≠ some []
  /-- What a stored operation depends on is stored and has a smaller Lamport time. -/
  deps : ∀ {op : Operation}, log.Stored op → ∀ d ∈ op.dependencies,
    ∃ l, log.lamport? d = some l ∧ l < op.lamport
  /-- The frontiers are the last atoms of peers that no stored operation lists. -/
  frontiers : ∀ id, id ∈ log.frontiers.ids ↔
    log.version.nextCounter id.peer = id.counter + 1 ∧ ∀ op, log.Stored op → id ∉ op.deps
  /-- They stand in their order, each once. -/
  ascending : log.frontiers.Ascending
  /-- The next Lamport time lies above all stored atoms, and not further than needed. -/
  lamport : log.Largest (fun op => op.lamport + op.length) log.clock.nextLamport
  /-- The latest timestamp is the largest stored one. -/
  timestamp : log.Largest Operation.timestamp log.clock.latestTimestamp

theorem gapless_empty : empty.Gapless where
  own := fun h => absurd h List.not_mem_nil
  sound := fun h => absurd h List.not_mem_nil
  contiguous := fun _ => trivial
  next := fun _ => rfl

theorem coherent_empty : empty.Coherent where
  toGapless := gapless_empty
  nonempty := fun _ h => by cases h
  deps := fun h => absurd h List.not_mem_nil
  frontiers := fun id => by
    refine ⟨?_, ?_⟩
    · exact fun h => absurd h List.not_mem_nil
    · exact fun h => by cases h.1
  ascending := Frontiers.ascending_empty
  lamport := ⟨fun _ h => absurd h List.not_mem_nil, .inl rfl⟩
  timestamp := ⟨fun _ h => absurd h List.not_mem_nil, .inl rfl⟩

variable {log : Log} {op : Operation} {a : AtomId}

/-! ## Look-ups -/

theorem get?_eq_some (h : log.get? a = some op) :
    op ∈ log.history a.peer ∧ op.covers a = true := by
  rw [get?, Option.filter_eq_some_iff] at h
  exact ⟨List.mem_of_find?_eq_some h.1, h.2⟩

theorem stored_of_get? (h : log.get? a = some op) : log.Stored op := by
  obtain ⟨hmem, hcovers⟩ := get?_eq_some h
  rw [Stored, ← (Operation.covers_iff.1 hcovers).1]
  exact hmem

theorem lamport?_eq_some_iff {l : Nat} :
    log.lamport? a = some l ↔
      ∃ op, log.get? a = some op ∧ l = op.lamport + (a.counter - op.id.counter) := by
  rw [lamport?, Option.map_eq_some_iff]
  exact exists_congr fun op => and_congr_right fun _ => eq_comm

namespace Gapless

variable (h : log.Gapless)

include h

theorem stored_iff {peer : Nat} : op ∈ log.history peer ↔ log.Stored op ∧ op.id.peer = peer := by
  refine ⟨?_, ?_⟩
  · intro hop
    have hpeer := h.own hop
    exact ⟨by rw [Stored, hpeer]; exact hop, hpeer⟩
  · intro hgiven
    obtain ⟨hop, rfl⟩ := hgiven
    exact hop

/-- The look-up finds the stored operation that an atom belongs to. -/
theorem get?_eq_some_iff : log.get? a = some op ↔ log.Stored op ∧ op.covers a = true := by
  refine ⟨?_, ?_⟩
  · exact fun hget => ⟨stored_of_get? hget, (get?_eq_some hget).2⟩
  · intro hgiven
    obtain ⟨hop, hcovers⟩ := hgiven
    obtain ⟨hpeer, hfirst, hstop⟩ := Operation.covers_iff.1 hcovers
    rw [get?, Option.filter_eq_some_iff]
    refine ⟨(h.contiguous _).find?_eq ?_ hfirst hstop, hcovers⟩
    rw [hpeer]
    exact hop

/-- An atom belongs to one stored operation at most. -/
theorem eq_of_covers {op' : Operation} (hop : log.Stored op) (hop' : log.Stored op')
    (hcovers : op.covers a = true) (hcovers' : op'.covers a = true) : op = op' := by
  have hget := h.get?_eq_some_iff.2 ⟨hop, hcovers⟩
  rw [h.get?_eq_some_iff.2 ⟨hop', hcovers'⟩] at hget
  exact (Option.some.inj hget).symm

/-- Of two operations of one peer the earlier one ends before the later one starts. -/
theorem apart {op' : Operation} (hop : log.Stored op) (hop' : log.Stored op') (hne : op ≠ op')
    (hpeer : op.id.peer = op'.id.peer) :
    op.stop ≤ op'.id.counter ∨ op'.stop ≤ op.id.counter := by
  apply Classical.byContradiction
  intro hmeet
  rw [not_or, Nat.not_le, Nat.not_le] at hmeet
  have hpos : op.id.counter < op.stop := Nat.lt_add_of_pos_right (h.sound hop).length_pos
  have hpos' : op'.id.counter < op'.stop := Nat.lt_add_of_pos_right (h.sound hop').length_pos
  -- the later one of the two first atoms would belong to both
  obtain ⟨last, hlast⟩ : ∃ last, last = max op.id.counter op'.id.counter := ⟨_, rfl⟩
  have hcovers : op.covers ⟨op.id.peer, last⟩ = true :=
    Operation.covers_iff.2 ⟨rfl, by dsimp only; omega, by dsimp only; omega⟩
  have hcovers' : op'.covers ⟨op.id.peer, last⟩ = true :=
    Operation.covers_iff.2 ⟨hpeer, by dsimp only; omega, by dsimp only; omega⟩
  exact hne (h.eq_of_covers hop hop' hcovers hcovers')

theorem contains_iff : log.contains a = true ↔ ∃ op, log.get? a = some op := by
  rw [contains, VersionVector.includes_iff, h.next]
  refine ⟨?_, ?_⟩
  · intro hlt
    obtain ⟨op, hop, hcover⟩ := (h.contiguous a.peer).exists_covering (Nat.zero_le _) hlt
    obtain ⟨hop, hpeer⟩ := h.stored_iff.1 hop
    exact ⟨op, h.get?_eq_some_iff.2 ⟨hop, Operation.covers_iff.2 ⟨hpeer.symm, hcover⟩⟩⟩
  · intro hgiven
    obtain ⟨op, hget⟩ := hgiven
    obtain ⟨hop, hcovers⟩ := get?_eq_some hget
    have := (h.contiguous a.peer).stop_le_endOf.2 op hop
    have := (Operation.covers_iff.1 hcovers).2.2
    omega

theorem contains_of_covers (hop : log.Stored op) (hcovers : op.covers a = true) :
    log.contains a = true :=
  h.contains_iff.2 ⟨op, h.get?_eq_some_iff.2 ⟨hop, hcovers⟩⟩

theorem contains_iff_covers : log.contains a = true ↔
    ∃ op, log.Stored op ∧ op.covers a = true := by
  rw [h.contains_iff]
  exact exists_congr fun op => h.get?_eq_some_iff

theorem contains_iff_lamport? : log.contains a = true ↔ ∃ l, log.lamport? a = some l := by
  rw [h.contains_iff]
  refine ⟨?_, ?_⟩
  · intro hgiven
    obtain ⟨op, hget⟩ := hgiven
    exact ⟨_, lamport?_eq_some_iff.2 ⟨op, hget, rfl⟩⟩
  · intro hgiven
    obtain ⟨l, hl⟩ := hgiven
    obtain ⟨op, hget, -⟩ := lamport?_eq_some_iff.1 hl
    exact ⟨op, hget⟩

end Gapless

namespace Coherent

variable (h : log.Coherent)

include h

theorem contains_mono {log' : Log} (h' : log'.Coherent)
    (hmore : ∀ op, log.Stored op → log'.Stored op) (ha : log.contains a = true) :
    log'.contains a = true := by
  obtain ⟨op, hop, hcovers⟩ := h.contains_iff_covers.1 ha
  exact h'.contains_of_covers (hmore op hop) hcovers

theorem contains_dep (hop : log.Stored op) {d : AtomId} (hd : d ∈ op.dependencies) :
    log.contains d = true := by
  obtain ⟨l, hl, -⟩ := h.deps hop d hd
  exact h.contains_iff_lamport?.2 ⟨l, hl⟩

theorem contains_of_frontier (ha : a ∈ log.frontiers.ids) : log.contains a = true := by
  obtain ⟨hnext, -⟩ := (h.frontiers a).1 ha
  rw [contains, VersionVector.includes_iff, hnext]
  exact Nat.lt_succ_self _

theorem exists_last (ha : a ∈ log.frontiers.ids) : ∃ op, log.Stored op ∧ a = op.lastId := by
  obtain ⟨op, hop, hcovers⟩ := h.contains_iff_covers.1 (h.contains_of_frontier ha)
  obtain ⟨hpeer, hfirst, hstop⟩ := Operation.covers_iff.1 hcovers
  have hend := (h.contiguous op.id.peer).stop_le_endOf.2 op hop
  rw [← h.next, ← hpeer, ((h.frontiers a).1 ha).1] at hend
  have hlast := Operation.stop_eq_lastId (h.sound hop).length_pos
  refine ⟨op, hop, AtomId.ext hpeer ?_⟩
  omega

end Coherent

theorem contains_of_le {b : AtomId} (hb : log.contains b = true) (hpeer : a.peer = b.peer)
    (hle : a.counter ≤ b.counter) : log.contains a = true :=
  VersionVector.includes_of_le hb hpeer hle

/-! ## Growth -/

theorem history_push (log : Log) (op : Operation) (peer : Nat) :
    (log.push op).history peer =
      if peer = op.id.peer then log.history peer ++ [op] else log.history peer := by
  unfold history push
  rw [OrderedMap.get?_insert]
  split
  · next h => rw [h]; rfl
  · rfl

theorem stored_push {o : Operation} : (log.push op).Stored o ↔ log.Stored o ∨ o = op := by
  unfold Stored
  rw [history_push]
  split
  · next h => rw [List.mem_append, List.mem_singleton]
  · next h =>
    refine ⟨?_, ?_⟩
    · exact .inl
    · intro hcase
      rcases hcase with ho | rfl
      · exact ho
      · exact absurd rfl h

theorem get?_push_of_get? {o : Operation} (hget : log.get? a = some o) :
    (log.push op).get? a = some o := by
  unfold get? at hget ⊢
  rw [history_push]
  split
  · rw [Option.filter_eq_some_iff] at hget ⊢
    rw [List.find?_append, hget.1, Option.some_or]
    exact ⟨rfl, hget.2⟩
  · exact hget

theorem lamport?_push_of_lamport? {l : Nat} (hl : log.lamport? a = some l) :
    (log.push op).lamport? a = some l := by
  obtain ⟨o, hget, rfl⟩ := lamport?_eq_some_iff.1 hl
  exact lamport?_eq_some_iff.2 ⟨o, get?_push_of_get? hget, rfl⟩

theorem Largest.push {f : Operation → Nat} {m : Nat} (h : log.Largest f m) (op : Operation) :
    (log.push op).Largest f (max m (f op)) := by
  obtain ⟨hall, hex⟩ := h
  refine ⟨fun o ho => ?_, ?_⟩
  · rcases stored_push.1 ho with ho | rfl
    · have := hall o ho
      omega
    · omega
  · by_cases hle : m ≤ f op
    · exact .inr ⟨op, stored_push.2 (.inr rfl), by omega⟩
    · obtain ⟨o, ho, heq⟩ := hex.resolve_left (by omega)
      exact .inr ⟨o, stored_push.2 (.inl ho), by omega⟩

/-- Logs with the same operations have the same largest value. -/
theorem Largest.unique {log' : Log} {f : Operation → Nat} {m m' : Nat} (h : log.Largest f m)
    (hstored : ∀ o, log.Stored o ↔ log'.Stored o) (h' : log'.Largest f m') : m = m' := by
  have half : ∀ {l l' : Log} {n n' : Nat}, (∀ o, l.Stored o → l'.Stored o) → l.Largest f n →
      l'.Largest f n' → n ≤ n' := by
    intro l l' n n' hsub hl hl'
    rcases hl.2 with h0 | ⟨o, ho, heq⟩
    · omega
    · exact heq ▸ hl'.1 o (hsub o ho)
  exact Nat.le_antisymm (half (fun o => (hstored o).1) h h') (half (fun o => (hstored o).2) h' h)

theorem nextCounter_push (hpos : 0 < op.length)
    (hnext : op.id.counter = log.version.nextCounter op.id.peer) (peer : Nat) :
    (log.push op).version.nextCounter peer =
      if peer = op.id.peer then op.stop else log.version.nextCounter peer := by
  have hlast := Operation.stop_eq_lastId hpos
  split
  · next h =>
    rw [h]
    calc (log.push op).version.nextCounter op.id.peer
        = max (log.version.nextCounter op.id.peer) (op.lastId.counter + 1) :=
          VersionVector.nextCounter_extend_self ..
      _ = max op.id.counter op.stop := by rw [hlast, hnext]
      _ = op.stop := by rw [Operation.stop]; omega
  · next h => exact VersionVector.nextCounter_extend_of_ne _ h

namespace Admits

variable (ha : log.Admits op)

include ha

theorem nextCounter_push (peer : Nat) :
    (log.push op).version.nextCounter peer =
      if peer = op.id.peer then op.stop else log.version.nextCounter peer :=
  Log.nextCounter_push ha.sound.length_pos ha.next peer

theorem contains_push : (log.push op).contains a = true ↔ log.contains a = true ∨ op.covers a = true := by
  rw [contains, contains, VersionVector.includes_iff, VersionVector.includes_iff,
    ha.nextCounter_push, Operation.covers_iff]
  have hnext := ha.next
  split
  · next h =>
    rw [h, Operation.stop, ← hnext]
    omega
  · next h => simp [h]

/-- The atoms of an admitted operation are new. -/
theorem not_contains (hcovers : op.covers a = true) : log.contains a = false := by
  obtain ⟨hpeer, hfirst, -⟩ := Operation.covers_iff.1 hcovers
  rw [← Bool.not_eq_true, contains, VersionVector.includes_iff, hpeer, ← ha.next]
  omega

/-- What an admitted operation lists is older than it, so its own last atom is not listed. -/
theorem lastId_not_mem_deps : op.lastId ∉ op.deps := by
  intro hmem
  have := ha.sound.dep_lt hmem Operation.lastId_peer
  rw [Operation.lastId, AtomId.forward_counter] at this
  omega

theorem contains_dep (h : log.Coherent) {d : AtomId} (hd : d ∈ op.dependencies) :
    log.contains d = true := by
  obtain ⟨l, hl, -⟩ := ha.deps d hd
  exact h.contains_iff_lamport?.2 ⟨l, hl⟩

end Admits

theorem Gapless.push (h : log.Gapless) (hsound : op.Sound)
    (hnext : op.id.counter = log.version.nextCounter op.id.peer) : (log.push op).Gapless where
  own := by
    intro peer o ho
    rw [history_push] at ho
    split at ho
    · next hpeer =>
      rcases List.mem_append.1 ho with ho | ho
      · exact h.own ho
      · rw [List.mem_singleton.1 ho, hpeer]
    · exact h.own ho
  sound := by
    intro o ho
    rcases stored_push.1 ho with ho | rfl
    · exact h.sound ho
    · exact hsound
  contiguous := by
    intro peer
    rw [history_push]
    split
    · next hpeer =>
      refine (h.contiguous peer).concat ?_
      rw [hnext, hpeer, h.next]
    · exact h.contiguous peer
  next := by
    intro peer
    rw [history_push, nextCounter_push hsound.length_pos hnext]
    split
    · rw [Contiguous.endOf_concat]
    · exact h.next peer

/-- Frontiers after a push: the old ones of other peers that are not listed, and the new last
atom. -/
theorem mem_frontiers_push {id : AtomId} :
    id ∈ (log.push op).frontiers.ids ↔
      id = op.lastId ∨ id ∈ log.frontiers.ids ∧ id.peer ≠ op.id.peer ∧ id ∉ op.deps := by
  rw [← Operation.lastId_peer]
  exact Frontiers.mem_advance

namespace Coherent

theorem frontiers_push (h : log.Coherent) (ha : log.Admits op) (id : AtomId) :
    id ∈ (log.push op).frontiers.ids ↔
      (log.push op).version.nextCounter id.peer = id.counter + 1 ∧
        ∀ o, (log.push op).Stored o → id ∉ o.deps := by
  have hlast := Operation.stop_eq_lastId ha.sound.length_pos
  rw [mem_frontiers_push, ha.nextCounter_push, h.frontiers]
  refine ⟨?_, ?_⟩
  · intro hcase
    rcases hcase with rfl | ⟨⟨hnext, hunlisted⟩, hpeer, hdeps⟩
    · -- the new last atom is listed by nobody: stored dependencies are contained
      rw [if_pos Operation.lastId_peer]
      refine ⟨hlast.symm, fun o ho hmem => ?_⟩
      rcases stored_push.1 ho with ho | rfl
      · have hin := h.contains_dep ho (Operation.mem_dependencies.2 (.inl hmem))
        rw [ha.not_contains (Operation.covers_lastId ha.sound.length_pos)] at hin
        cases hin
      · exact ha.lastId_not_mem_deps hmem
    · rw [if_neg hpeer]
      refine ⟨hnext, fun o ho => ?_⟩
      rcases stored_push.1 ho with ho | rfl
      · exact hunlisted o ho
      · exact hdeps
  · intro hgiven
    obtain ⟨hnext, hunlisted⟩ := hgiven
    split at hnext
    · next hpeer =>
      left
      ext
      · exact hpeer
      · omega
    · next hpeer =>
      exact .inr ⟨⟨hnext, fun o ho => hunlisted o (stored_push.2 (.inl ho))⟩, hpeer,
        hunlisted op (stored_push.2 (.inr rfl))⟩

theorem push (h : log.Coherent) (ha : log.Admits op) : (log.push op).Coherent where
  toGapless := h.toGapless.push ha.sound ha.next
  nonempty := by
    intro peer
    show (log.histories.insert _ _).get? peer ≠ _
    rw [OrderedMap.get?_insert]
    split
    · simp
    · exact h.nonempty peer
  deps := by
    intro o ho d hd
    obtain ⟨l, hl, hlt⟩ : ∃ l, log.lamport? d = some l ∧ l < o.lamport := by
      rcases stored_push.1 ho with ho | rfl
      · exact h.deps ho d hd
      · exact ha.deps d hd
    exact ⟨l, lamport?_push_of_lamport? hl, hlt⟩
  frontiers := h.frontiers_push ha
  ascending := Frontiers.ascending_advance h.ascending op.deps op.lastId
  lamport := h.lamport.push op
  timestamp := h.timestamp.push op

/-- Coherent logs with the same histories are the same. -/
theorem ext {log' : Log} (h : log.Coherent) (h' : log'.Coherent)
    (heq : ∀ peer, log.history peer = log'.history peer) : log = log' := by
  have hstored : ∀ o, log.Stored o ↔ log'.Stored o := fun o => by rw [Stored, Stored, heq]
  have hversion : log.version = log'.version := by
    refine VersionVector.ext_nextCounter fun peer => ?_
    rw [h.next, h'.next, heq]
  -- a peer without operations has no history at all, never an empty one
  have hhistories : log.histories = log'.histories := by
    refine OrderedMap.ext fun peer => ?_
    have := heq peer
    unfold history at this
    cases hget : log.histories.get? peer with
    | none =>
      cases hget' : log'.histories.get? peer with
      | none => rfl
      | some ops =>
        rw [hget, hget'] at this
        exact absurd (hget'.trans (congrArg some this.symm)) (h'.nonempty peer)
    | some ops =>
      cases hget' : log'.histories.get? peer with
      | none =>
        rw [hget, hget'] at this
        exact absurd (hget.trans (congrArg some this)) (h.nonempty peer)
      | some ops' =>
        rw [hget, hget'] at this
        exact congrArg some this
  have hfrontiers : log.frontiers = log'.frontiers := by
    refine Frontiers.ext_of_ascending h.ascending h'.ascending fun id => ?_
    rw [h.frontiers, h'.frontiers, hversion]
    simp only [hstored]
  have hclock : log.clock = log'.clock := by
    have hlamport := h.lamport.unique hstored h'.lamport
    have htimestamp := h.timestamp.unique hstored h'.timestamp
    cases hc : log.clock
    cases hc' : log'.clock
    rw [hc, hc'] at hlamport htimestamp
    exact congr (congrArg _ hlamport) htimestamp
  cases log
  cases log'
  rw [Log.mk.injEq]
  exact ⟨hhistories, hversion, hfrontiers, hclock⟩

/-- Coherent logs with the same operations are the same. -/
theorem ext_stored {log' : Log} (h : log.Coherent) (h' : log'.Coherent)
    (hstored : ∀ o, log.Stored o ↔ log'.Stored o) : log = log' := by
  apply h.ext h'
  intro peer
  apply (h.contiguous peer).eq_of_mem_iff (h'.contiguous peer)
  · intro o ho
    exact (h.sound (h.stored_iff.1 ho).1).length_pos
  · intro o
    rw [h.stored_iff, h'.stored_iff, hstored]

end Coherent

end Log

end CausalDoc
