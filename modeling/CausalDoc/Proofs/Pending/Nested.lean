import CausalDoc.Ordered.Sort
import CausalDoc.Proofs.Pending.Ledger

/- The pending buffer kept on two levels.

   `Nested` indexes the parked operations by the missing atom's peer, and those of one peer
   by the counter, so that what an atom releases is cut out of the index of one peer. A
   peer whose index runs empty is removed. It `Mirrors` the buffer of one level when the two
   agree under every atom; every call keeps that, and so both give the same answers after
   any sequence of calls (`bookkeeping_exact`). -/

namespace CausalDoc.Pending

/-- The parked operations, by the peer and then by the counter of the atom they wait for. -/
structure Nested where
  /-- For each peer, under each missing counter the operations that wait, as they came. -/
  waiting : OrderedMap Nat (OrderedMap Nat (List Operation))
  /-- The first atoms of the parked operations. -/
  parked : OrderedSet AtomId

namespace Nested

def empty : Nested := ⟨.empty, .empty⟩

/-- The operations that wait for one atom. -/
def bucket? (nested : Nested) (m : AtomId) : Option (List Operation) :=
  (nested.waiting.get? m.peer).bind fun index => index.get? m.counter

/-- Parks an operation until `missing` is applied, unless one with the same first atom is. -/
def push? (nested : Nested) (missing : AtomId) (op : Operation) : Option Nested :=
  if op.id ∈ nested.parked then none
  else
    let index := (nested.waiting.get? missing.peer).getD .empty
    let bucket := (index.get? missing.counter).getD [] ++ [op]
    some {
      waiting := nested.waiting.insert missing.peer (index.insert missing.counter bucket)
      parked := nested.parked.insert op.id }

/-- Forgets the first atoms of operations, one after another. -/
def forget (parked : OrderedSet AtomId) (ops : List Operation) : OrderedSet AtomId :=
  ops.foldl (fun parked op => parked.filter fun id => id ≠ op.id) parked

/-- Writes the index of a peer, or removes the peer when the index is empty. -/
def setIndex (waiting : OrderedMap Nat (OrderedMap Nat (List Operation))) (peer : Nat)
    (index : OrderedMap Nat (List Operation)) : OrderedMap Nat (OrderedMap Nat (List Operation)) :=
  if index.isEmpty then waiting.filter fun other _ => other ≠ peer else waiting.insert peer index

/-- Releases every operation that waits for an atom of `peer` below `stop`: the index of the
peer is split there. -/
def takeReady (nested : Nested) (peer stop : Nat) : List Operation × Nested :=
  match nested.waiting.get? peer with
  | none => ([], nested)
  | some index =>
    let left := index.filter fun counter _ => stop ≤ counter
    let ready := (index.filter fun counter _ => counter < stop).values.flatten
    (ready, ⟨setIndex nested.waiting peer left, forget nested.parked ready⟩)

def missing (nested : Nested) : List AtomId :=
  sortByKey id (nested.waiting.entries.flatMap fun e => e.2.keys.map (AtomId.mk e.1))

def size (nested : Nested) : Nat := nested.parked.size

def after (nested : Nested) : Call → Nested
  | .push missing op => (nested.push? missing op).getD nested
  | .takeReady peer stop => (nested.takeReady peer stop).2

def afterAll (nested : Nested) (calls : List Call) : Nested := calls.foldl after nested

variable {nested : Nested} {pending : Pending} {m : AtomId} {op : Operation} {peer stop : Nat}

/-! ## What is under an atom -/

theorem bucket?_push? (hfree : op.id ∉ nested.parked) :
    ∃ after, nested.push? m op = some after ∧ after.parked = nested.parked.insert op.id ∧
      (∀ m', after.bucket? m' =
        if m' = m then some ((nested.bucket? m).getD [] ++ [op]) else nested.bucket? m') ∧
      ∀ peer, after.waiting.get? peer = some .empty → nested.waiting.get? peer = some .empty := by
  refine ⟨_, if_neg hfree, rfl, fun m' => ?_, fun peer hempty => ?_⟩
  · -- an atom of another peer is not looked up in the index that was written
    unfold bucket?
    rw [OrderedMap.get?_insert]
    by_cases hpeer : m'.peer = m.peer
    · rw [if_pos hpeer, hpeer, Option.bind_some, OrderedMap.get?_insert]
      by_cases hcounter : m'.counter = m.counter
      · rw [if_pos hcounter, if_pos (AtomId.ext hpeer hcounter)]
        cases nested.waiting.get? m.peer <;> rfl
      · have hne : m' ≠ m := fun h => hcounter (congrArg _ h)
        rw [if_neg hcounter, if_neg hne]
        cases nested.waiting.get? m.peer <;> rfl
    · have hne : m' ≠ m := fun h => hpeer (congrArg _ h)
      rw [if_neg hpeer, if_neg hne]
  · rw [OrderedMap.get?_insert] at hempty
    split at hempty
    · -- the index that was written has the operation
      have hgone := congrArg (fun index => index.get? m.counter) (Option.some.inj hempty)
      simp at hgone
    · exact hempty

theorem get?_setIndex (waiting : OrderedMap Nat (OrderedMap Nat (List Operation)))
    (peer other : Nat) (index : OrderedMap Nat (List Operation)) :
    (setIndex waiting peer index).get? other =
      if other = peer then (if index.isEmpty then none else some index)
      else waiting.get? other := by
  unfold setIndex
  split
  · rw [OrderedMap.get?_filter]
    cases waiting.get? other <;> grind
  · rw [OrderedMap.get?_insert]

theorem bind_nonempty {index : OrderedMap Nat (List Operation)} {counter : Nat} :
    (if index.isEmpty then none else some index).bind (fun i => i.get? counter) =
      index.get? counter := by
  split
  · next hempty =>
    rw [OrderedMap.get?, List.isEmpty_iff.1 hempty]
    rfl
  · rfl

theorem bucket?_takeReady (nested : Nested) (peer stop : Nat) (m : AtomId) :
    (nested.takeReady peer stop).2.bucket? m =
      if Reached peer stop m then none else nested.bucket? m := by
  cases hindex : nested.waiting.get? peer with
  | none =>
    have hsame : (nested.takeReady peer stop).2 = nested := by rw [takeReady, hindex]
    rw [hsame]
    split
    · next hreached => rw [bucket?, hreached.1, hindex, Option.bind_none]
    · rfl
  | some index =>
    have hafter : (nested.takeReady peer stop).2.waiting =
        setIndex nested.waiting peer (index.filter fun counter _ => stop ≤ counter) := by
      rw [takeReady, hindex]
    rw [bucket?, bucket?, hafter, get?_setIndex]
    by_cases hpeer : m.peer = peer
    · have hreached : Reached peer stop m ↔ m.counter < stop := and_iff_right hpeer
      rw [if_pos hpeer, bind_nonempty, OrderedMap.get?_filter, hpeer, hindex, Option.bind_some]
      cases index.get? m.counter <;> grind
    · have hout : ¬ Reached peer stop m := fun hreached => hpeer hreached.1
      rw [if_neg hpeer, if_neg hout]

theorem takeReady_fst (nested : Nested) (peer stop : Nat) : (nested.takeReady peer stop).1 =
    (List.range stop).flatMap fun counter => (nested.bucket? ⟨peer, counter⟩).getD [] := by
  cases hindex : nested.waiting.get? peer with
  | none => simp [takeReady, bucket?, hindex]
  | some index =>
    let ready := index.filter fun counter _ => counter < stop
    have hcounters : (List.range stop).Pairwise fun a b => compare a b = .lt :=
      List.pairwise_lt_range.imp fun h => Nat.compare_eq_lt.2 h
    have hkeys : ∀ e ∈ ready.entries, e.1 ∈ List.range stop := by
      intro e he
      simpa using (List.mem_filter.1 he).2
    have hget : ∀ counter ∈ List.range stop,
        ready.get? counter = nested.bucket? ⟨peer, counter⟩ := by
      intro counter hcounter
      rw [OrderedMap.get?_filter, bucket?, hindex, Option.bind_some]
      cases index.get? counter <;> simp [List.mem_range.1 hcounter]
    calc (nested.takeReady peer stop).1
        = ready.values.flatten := by rw [takeReady, hindex]
      _ = (List.range stop).flatMap fun counter => (ready.get? counter).getD [] :=
          Entries.flatten_values_eq hcounters ready.ascending hkeys
      _ = _ := List.flatMap_congr fun counter hcounter => by rw [hget counter hcounter]

theorem mem_forget {ops : List Operation} {parked : OrderedSet AtomId} {id : AtomId} :
    id ∈ forget parked ops ↔ id ∈ parked ∧ id ∉ ops.map Operation.id := by
  induction ops generalizing parked with
  | nil => simp [forget]
  | cons op ops ih =>
    show id ∈ forget (parked.filter fun id => id ≠ op.id) ops ↔ _
    rw [ih, OrderedSet.mem_filter, List.map_cons, List.mem_cons, decide_eq_true_eq, not_or,
      and_assoc]

theorem parked_takeReady (nested : Nested) (peer stop : Nat) :
    (nested.takeReady peer stop).2.parked =
      forget nested.parked (nested.takeReady peer stop).1 := by
  cases hindex : nested.waiting.get? peer with
  | none => rw [takeReady, hindex]; rfl
  | some index => rw [takeReady, hindex]

theorem nonempty_takeReady (h : ∀ peer, nested.waiting.get? peer ≠ some .empty) (other : Nat) :
    (nested.takeReady peer stop).2.waiting.get? other ≠ some .empty := by
  cases hindex : nested.waiting.get? peer with
  | none =>
    rw [takeReady, hindex]
    exact h other
  | some index =>
    rw [takeReady, hindex]
    show (setIndex ..).get? other ≠ _
    rw [get?_setIndex]
    split
    · split
      · exact fun hnone => by cases hnone
      · next hleft =>
        intro hempty
        rw [Option.some.inj hempty] at hleft
        exact hleft rfl
    · exact h other

/-! ## What is waited for -/

theorem mem_missing : m ∈ nested.missing ↔ ∃ ops, nested.bucket? m = some ops := by
  rw [missing, (sortByKey_perm id _).mem_iff, List.mem_flatMap]
  simp only [bucket?, Option.bind_eq_some_iff, List.mem_map, OrderedMap.mem_keys]
  refine ⟨?_, ?_⟩
  · intro hgiven
    obtain ⟨e, he, counter, ⟨ops, hops⟩, rfl⟩ := hgiven
    exact ⟨ops, e.2, (OrderedMap.get?_eq_some_iff _).2 he, hops⟩
  · intro hgiven
    obtain ⟨ops, index, hindex, hops⟩ := hgiven
    exact ⟨(m.peer, index), (OrderedMap.get?_eq_some_iff _).1 hindex, m.counter, ⟨ops, hops⟩, rfl⟩

theorem ascending_missing (nested : Nested) :
    nested.missing.Pairwise fun a b => compare a b = .lt := by
  refine ascending_sortByKey (List.nodup_flatMap.2 ⟨fun e _ => ?_, ?_⟩)
  · exact (OrderedMap.nodup_keys e.2).map fun _ _ heq => (AtomId.mk.inj heq).2
  · -- the peers of the entries differ, and so do atoms of different entries
    refine (List.pairwise_map.1 (OrderedMap.nodup_keys nested.waiting)).imp fun {e f} hne => ?_
    rintro a hin hin'
    obtain ⟨_, -, rfl⟩ := List.mem_map.1 hin
    obtain ⟨_, -, heq⟩ := List.mem_map.1 hin'
    exact hne (AtomId.mk.inj heq).1.symm

/-! ## Both ways of keeping -/

/-- The buffers of two levels and of one agree under every atom. -/
structure Mirrors (nested : Nested) (pending : Pending) : Prop where
  bucket? : ∀ m, nested.bucket? m = pending.waiting.get? m
  parked : nested.parked = pending.parked
  /-- No peer has an empty index. -/
  nonempty : ∀ peer, nested.waiting.get? peer ≠ some .empty

namespace Mirrors

theorem push? (h : nested.Mirrors pending) (m : AtomId) (op : Operation) :
    nested.push? m op = none ∧ pending.push? m op = none ∨
      ∃ after after', nested.push? m op = some after ∧ pending.push? m op = some after' ∧
        after.Mirrors after' := by
  by_cases hin : op.id ∈ pending.parked
  · left
    exact ⟨if_pos (h.parked ▸ hin), if_pos hin⟩
  · right
    obtain ⟨after, hpush, hparked, hbucket, hnonempty⟩ := bucket?_push? (m := m) (h.parked ▸ hin)
    refine ⟨after, _, hpush, if_neg hin, fun m' => ?_, ?_, fun peer hempty => ?_⟩
    · rw [hbucket, OrderedMap.get?_insert, h.bucket?, h.bucket?]
    · rw [hparked, h.parked]
    · exact h.nonempty peer (hnonempty peer hempty)

theorem released (h : nested.Mirrors pending) (peer stop : Nat) :
    (nested.takeReady peer stop).1 = (pending.takeReady peer stop).1 := by
  rw [takeReady_fst, Pending.takeReady_fst]
  simp only [h.bucket?]

theorem takeReady (h : nested.Mirrors pending) (peer stop : Nat) :
    (nested.takeReady peer stop).2.Mirrors (pending.takeReady peer stop).2 where
  bucket? := fun m => by rw [bucket?_takeReady, get?_takeReady, h.bucket?]
  parked := by
    rw [parked_takeReady, h.released, h.parked]
    refine OrderedSet.ext fun id => ?_
    show _ ↔ id ∈ pending.parked.filter fun id =>
      !((pending.takeReady peer stop).1.map Operation.id).contains id
    simp [mem_forget]
  nonempty := nonempty_takeReady h.nonempty

theorem after (h : nested.Mirrors pending) (call : Call) :
    (nested.after call).Mirrors (pending.after call) := by
  cases call with
  | push m op =>
    unfold Nested.after Pending.after
    rcases h.push? m op with ⟨hnone, hnone'⟩ | ⟨after, after', hsome, hsome', hmirrors⟩
    · simp only [hnone, hnone', Option.getD_none]
      exact h
    · simp only [hsome, hsome', Option.getD_some]
      exact hmirrors
  | takeReady peer stop => exact h.takeReady peer stop

theorem afterAll (h : nested.Mirrors pending) (calls : List Call) :
    (nested.afterAll calls).Mirrors (pending.afterAll calls) := by
  induction calls generalizing nested pending with
  | nil => exact h
  | cons call calls ih => exact ih (h.after call)

theorem missing_eq (h : nested.Mirrors pending) : nested.missing = pending.missing := by
  let mine : OrderedSet AtomId := ⟨nested.missing, nested.ascending_missing⟩
  let other : OrderedSet AtomId := ⟨pending.missing, pending.ascending_missing⟩
  have hsame : mine = other := by
    refine OrderedSet.ext fun m => ?_
    show m ∈ nested.missing ↔ m ∈ pending.missing
    rw [mem_missing, Pending.missing, OrderedMap.mem_keys]
    simp only [h.bucket?]
  exact congrArg OrderedSet.toList hsame

end Mirrors

end Nested

/-! ## Bookkeeping -/

/-- What the buffer does is what the ledger says. -/
structure Answers (pending : Pending) (ledger : Ledger) : Prop extends Keeps pending ledger where
  /-- The set of first atoms is that of the parked operations. -/
  contains : ∀ id, pending.contains id = true ↔ ∃ e ∈ ledger, e.2.id = id
  /-- An operation whose first atom is parked is not parked again, and nothing changes. -/
  again : ∀ m op, op.id ∈ ledger.ids →
    pending.push? m op = none ∧ pending.after (.push m op) = pending
  /-- Any other operation is parked, behind those that wait for the same atom. -/
  push : ∀ m op, op.id ∉ ledger.ids →
    ∃ after, pending.push? m op = some after ∧ after.Keeps (ledger ++ [(m, op)])
  /-- Released are the operations that wait for the atoms of a peer below a counter, by
  counter and then as they came; all others stay where they are. -/
  takeReady : ∀ peer stop, (pending.takeReady peer stop).1 = ledger.released peer stop ∧
    (pending.takeReady peer stop).2.Keeps (ledger.kept peer stop)
  /-- The atoms that are waited for ascend, and some operation waits for each of them. -/
  missing : (pending.missing.Pairwise fun a b => compare a b = .lt) ∧
    ∀ m, m ∈ pending.missing ↔ ∃ op, (m, op) ∈ ledger
  /-- The size counts the parked operations. -/
  size : pending.size = ledger.length

theorem Keeps.answers {pending : Pending} {ledger : Ledger} (h : pending.Keeps ledger) :
    pending.Answers ledger where
  toKeeps := h
  contains := fun id => by
    rw [Pending.contains, decide_eq_true_eq, h.mem_parked, Ledger.mem_ids]
  again := fun m op hin => by
    have hnone : pending.push? m op = none := h.push?_eq_none hin
    exact ⟨hnone, by rw [Pending.after, hnone, Option.getD_none]⟩
  push := fun _ _ => h.push
  takeReady := fun peer stop => ⟨h.released peer stop, h.takeReady peer stop⟩
  missing := ⟨ascending_missing pending, fun _ => h.mem_missing⟩
  size := h.size_eq

/-- The buffer of two levels answers what that of one answers. -/
structure Nested.Agrees (nested : Nested) (pending : Pending) : Prop
    extends Mirrors nested pending where
  push : ∀ m op, (nested.push? m op).isSome = (pending.push? m op).isSome
  released : ∀ peer stop, (nested.takeReady peer stop).1 = (pending.takeReady peer stop).1
  missing : nested.missing = pending.missing
  size : nested.size = pending.size

theorem Nested.Mirrors.agrees {nested : Nested} {pending : Pending} (h : nested.Mirrors pending) :
    nested.Agrees pending where
  toMirrors := h
  push := fun m op => by
    rcases h.push? m op with ⟨hnone, hnone'⟩ | ⟨after, after', hsome, hsome', -⟩
    · rw [hnone, hnone']; rfl
    · rw [hsome, hsome']; rfl
  released := h.released
  missing := h.missing_eq
  size := congrArg OrderedSet.size h.parked

/-- After any calls on an empty buffer it holds what the account of the calls lists, and answers
every call by it, whether it is kept on one level or on two. -/
theorem bookkeeping_exact (calls : List Call) :
    (empty.afterAll calls).Answers (Ledger.afterAll [] calls) ∧
      (Nested.empty.afterAll calls).Agrees (empty.afterAll calls) := by
  have hmirrors : Nested.empty.Mirrors empty := ⟨fun _ => rfl, rfl, fun _ h => by cases h⟩
  exact ⟨(keeps_empty.afterAll calls).answers, (hmirrors.afterAll calls).agrees⟩

/-- Two operations wait for one atom and one for an earlier atom; a copy is not parked while the
first one is, and is parked after it was released. -/
example :
    let op (peer : Nat) : Operation := ⟨⟨peer, 0⟩, 0, [], .root "m" .map, 0, .setField "k" none⟩
    let buffer := Nested.empty.afterAll
      [.push ⟨1, 4⟩ (op 2), .push ⟨1, 4⟩ (op 3), .push ⟨1, 2⟩ (op 4), .push ⟨9, 0⟩ (op 2)]
    let left := (buffer.takeReady 1 5).2
    buffer.missing = [⟨1, 2⟩, ⟨1, 4⟩] ∧ (buffer.takeReady 1 5).1 = [op 4, op 2, op 3] ∧
      left.size = 0 ∧ (left.after (.push ⟨9, 0⟩ (op 2))).missing = [⟨9, 0⟩] := by
  decide

end CausalDoc.Pending
