import CausalDoc.Proofs.Pending

/- The pending buffer against the plain account of what is parked.

   A ledger lists the parked operations with the atoms they wait for, in the order in which
   they came: parking writes an entry at the end, and releasing strikes the entries of the
   atoms that were reached. The buffer `Keeps` a ledger when both of its parts tell it, the
   operations under the missing atoms and the set of first atoms. Every call keeps that, so
   the buffer answers what the ledger says after any sequence of calls. -/

namespace CausalDoc

/-- Read key by key, the lists of a map come in the order of its keys; keys without a list add
nothing. -/
theorem Entries.flatten_values_eq {κ α : Type} [Ord κ] [Std.LawfulEqOrd κ] [Std.TransOrd κ] :
    ∀ {ks : List κ} {es : List (κ × List α)}, ks.Pairwise (fun a b => compare a b = .lt) →
      Ascending es → (∀ e ∈ es, e.1 ∈ ks) →
        (es.map (·.2)).flatten = ks.flatMap fun k => (find? k es).getD []
  | [], [], _, _, _ => rfl
  | [], e :: _, _, _, hkeys => absurd (hkeys e List.mem_cons_self) List.not_mem_nil
  | k :: ks, [], _, _, _ => by simp
  | k :: ks, (k', vs) :: es, hks, hes, hkeys => by
    obtain ⟨hhead, htail⟩ := List.pairwise_cons.1 hks
    have hirrefl : ∀ a : κ, compare a a ≠ .lt := fun a => by simp [Std.ReflOrd.compare_self]
    by_cases hk : k = k'
    · -- the first key has the first list, and the later keys find theirs behind it
      subst hk
      have hlater : ∀ e ∈ es, e.1 ∈ ks := by
        intro e he
        rcases List.mem_cons.1 (hkeys e (List.mem_cons_of_mem _ he)) with heq | hin
        · exact absurd (heq ▸ hes.head_lt he) (hirrefl _)
        · exact hin
      have hrest : ∀ x ∈ ks, (find? x ((k, vs) :: es)).getD [] = (find? x es).getD [] := by
        intro x hx
        rw [find?_cons_of_ne]
        rintro rfl
        exact hirrefl _ (hhead x hx)
      rw [List.map_cons, List.flatten_cons, List.flatMap_cons, find?_cons_self,
        flatten_values_eq htail hes.tail hlater]
      exact congrArg _ (List.flatMap_congr hrest).symm
    · -- the first key has no list: all keys of the map come later
      have hin : k' ∈ ks :=
        (List.mem_cons.1 (hkeys _ List.mem_cons_self)).resolve_left fun h => hk h.symm
      have hbelow : ∀ e ∈ (k', vs) :: es, compare k e.1 = .lt := by
        intro e he
        rcases List.mem_cons.1 he with rfl | he
        · exact hhead k' hin
        · exact Std.TransCmp.lt_trans (hhead k' hin) (hes.head_lt he)
      have hlater : ∀ e ∈ (k', vs) :: es, e.1 ∈ ks := by
        intro e he
        refine (List.mem_cons.1 (hkeys e he)).resolve_left fun heq => ?_
        exact hirrefl k (heq ▸ hbelow e he)
      rw [List.flatMap_cons, find?_eq_none_of_lt hbelow, flatten_values_eq htail hes hlater]
      rfl

namespace Pending

instance (peer stop : Nat) (m : AtomId) : Decidable (Reached peer stop m) :=
  inferInstanceAs (Decidable (_ ∧ _))

/-! ## Calls -/

/-- A call that changes the buffer. -/
inductive Call where
  /-- Parks an operation until an atom is applied. -/
  | push (missing : AtomId) (op : Operation)
  /-- Releases what waits for atoms of a peer below a counter. -/
  | takeReady (peer stop : Nat)
  deriving DecidableEq, Repr

/-- The buffer after a call; parking twice changes nothing. -/
def after (pending : Pending) : Call → Pending
  | .push missing op => (pending.push? missing op).getD pending
  | .takeReady peer stop => (pending.takeReady peer stop).2

def afterAll (pending : Pending) (calls : List Call) : Pending := calls.foldl after pending

/-! ## The account -/

/-- The parked operations with the atoms they wait for, in the order they came. -/
abbrev Ledger := List (AtomId × Operation)

namespace Ledger

def ids (ledger : Ledger) : List AtomId := ledger.map fun e => e.2.id

/-- The operations that wait for one atom, in the order they came. -/
def bucket (ledger : Ledger) (missing : AtomId) : List Operation :=
  (ledger.filter fun e => e.1 = missing).map Prod.snd

/-- The operations that wait for atoms of `peer` below `stop`: those of the lower counter
first, and of one counter in the order they came. -/
def released (ledger : Ledger) (peer stop : Nat) : List Operation :=
  (List.range stop).flatMap fun counter => ledger.bucket ⟨peer, counter⟩

/-- The entries of all other atoms. -/
def kept (ledger : Ledger) (peer stop : Nat) : Ledger :=
  ledger.filter fun e => ¬ Reached peer stop e.1

/-- The account of a call. -/
def after (ledger : Ledger) : Call → Ledger
  | .push missing op => if op.id ∈ ledger.ids then ledger else ledger ++ [(missing, op)]
  | .takeReady peer stop => ledger.kept peer stop

def afterAll (ledger : Ledger) (calls : List Call) : Ledger := calls.foldl after ledger

variable {ledger : Ledger} {m : AtomId} {op : Operation} {id : AtomId} {peer stop : Nat}

theorem mem_ids : id ∈ ledger.ids ↔ ∃ e ∈ ledger, e.2.id = id := List.mem_map

theorem mem_bucket : op ∈ ledger.bucket m ↔ (m, op) ∈ ledger := by
  simp [bucket]

theorem bucket_concat : bucket (ledger ++ [(m, op)]) id =
    if id = m then ledger.bucket id ++ [op] else ledger.bucket id := by
  unfold bucket
  rw [List.filter_append, List.map_append]
  split
  · next h => simp [h]
  · next h => simp [Ne.symm h]

theorem bucket_kept : (ledger.kept peer stop).bucket m =
    if Reached peer stop m then [] else ledger.bucket m := by
  unfold bucket kept
  rw [List.filter_filter]
  split
  · next hreached =>
    have hnone : ∀ e ∈ ledger, ¬ (decide (e.1 = m) && decide (¬ Reached peer stop e.1)) = true := by
      rintro e - hboth
      simp only [Bool.and_eq_true, decide_eq_true_eq] at hboth
      exact hboth.2 (hboth.1 ▸ hreached)
    rw [List.filter_eq_nil_iff.2 hnone, List.map_nil]
  · next hwaiting =>
    congr 1
    refine List.filter_congr fun e _ => ?_
    by_cases he : e.1 = m <;> simp [he, hwaiting]

end Ledger

/-! ## Keeping the account -/

variable {pending : Pending} {ledger : Ledger} {m : AtomId} {op : Operation}

/-- The parts of the buffer agree, and tell the ledger. -/
structure Keeps (pending : Pending) (ledger : Ledger) : Prop extends Tidy pending where
  /-- Under every atom stand the operations that wait for it, in the order they came. -/
  bucket : ∀ m, (pending.waiting.get? m).getD [] = ledger.bucket m
  /-- Each first atom is listed once. -/
  distinct : ledger.ids.Nodup

theorem keeps_empty : empty.Keeps [] where
  toTidy := tidy_empty
  bucket := fun _ => rfl
  distinct := List.nodup_nil

theorem get?_takeReady (pending : Pending) (peer stop : Nat) (m : AtomId) :
    (pending.takeReady peer stop).2.waiting.get? m =
      if Reached peer stop m then none else pending.waiting.get? m := by
  show (pending.waiting.filter _).get? m = _
  rw [OrderedMap.get?_filter]
  unfold Reached
  cases pending.waiting.get? m <;> grind

theorem takeReady_fst (pending : Pending) (peer stop : Nat) : (pending.takeReady peer stop).1 =
    (List.range stop).flatMap fun counter => (pending.waiting.get? ⟨peer, counter⟩).getD [] := by
  let ready := pending.waiting.filter fun id _ => id.peer = peer && id.counter < stop
  let atoms := (List.range stop).map (AtomId.mk peer)
  have hatoms : atoms.Pairwise fun a b => compare a b = .lt := by
    rw [List.pairwise_map]
    exact List.pairwise_lt_range.imp fun h => AtomId.compare_eq_lt_iff.2 (.inl h)
  have hkeys : ∀ e ∈ ready.entries, e.1 ∈ atoms := by
    intro e he
    have hready := (List.mem_filter.1 he).2
    simp only [Bool.and_eq_true, decide_eq_true_eq] at hready
    exact List.mem_map.2 ⟨e.1.counter, List.mem_range.2 hready.2, AtomId.ext hready.1.symm rfl⟩
  have hget : ∀ counter ∈ List.range stop,
      ready.get? ⟨peer, counter⟩ = pending.waiting.get? ⟨peer, counter⟩ := by
    intro counter hcounter
    rw [OrderedMap.get?_filter]
    cases pending.waiting.get? ⟨peer, counter⟩ <;> simp [List.mem_range.1 hcounter]
  calc (pending.takeReady peer stop).1
      = atoms.flatMap fun m => (ready.get? m).getD [] :=
        Entries.flatten_values_eq hatoms ready.ascending hkeys
    _ = (List.range stop).flatMap fun counter => (ready.get? ⟨peer, counter⟩).getD [] :=
        List.flatMap_map ..
    _ = _ := List.flatMap_congr fun counter hcounter => by rw [hget counter hcounter]

namespace Keeps

theorem waits_iff (h : pending.Keeps ledger) : pending.Waits m op ↔ (m, op) ∈ ledger := by
  rw [← Ledger.mem_bucket, ← h.bucket, Waits]
  cases pending.waiting.get? m <;> simp

theorem mem_parked (h : pending.Keeps ledger) {id : AtomId} :
    id ∈ pending.parked ↔ id ∈ ledger.ids := by
  simp only [h.parked, mem_operations, h.waits_iff, Ledger.mem_ids]
  refine ⟨?_, ?_⟩
  · intro hgiven
    obtain ⟨op, ⟨m, hm⟩, hid⟩ := hgiven
    exact ⟨(m, op), hm, hid⟩
  · intro hgiven
    obtain ⟨e, he, hid⟩ := hgiven
    exact ⟨e.2, ⟨e.1, he⟩, hid⟩

theorem push?_eq_none (h : pending.Keeps ledger) (hin : op.id ∈ ledger.ids) :
    pending.push? m op = none :=
  push?_eq_none_iff.2 (h.mem_parked.2 hin)

theorem push (h : pending.Keeps ledger) (hnew : op.id ∉ ledger.ids) :
    ∃ after, pending.push? m op = some after ∧ after.Keeps (ledger ++ [(m, op)]) := by
  have hfree : op.id ∉ pending.parked := fun hin => hnew (h.mem_parked.1 hin)
  have hpush : ∃ after, pending.push? m op = some after := ⟨_, if_neg hfree⟩
  obtain ⟨after, hpush⟩ := hpush
  refine ⟨after, hpush, h.toTidy.push? hpush, ?_, ?_⟩
  · intro m'
    rw [push?, if_neg hfree] at hpush
    cases hpush
    rw [OrderedMap.get?_insert, Ledger.bucket_concat]
    split
    · next hm => rw [Option.getD_some, h.bucket, hm]
    · exact h.bucket m'
  · rw [Ledger.ids, List.map_append, List.map_singleton, ← List.concat_eq_append,
      List.nodup_concat]
    exact ⟨hnew, h.distinct⟩

/-- Releasing strikes the entries of the atoms that were reached. -/
theorem takeReady (h : pending.Keeps ledger) (peer stop : Nat) :
    (pending.takeReady peer stop).2.Keeps (ledger.kept peer stop) where
  toTidy := h.toTidy.takeReady peer stop
  bucket := by
    intro m
    rw [get?_takeReady, Ledger.bucket_kept]
    split
    · rfl
    · exact h.bucket m
  distinct := h.distinct.sublist (List.filter_sublist.map _)

theorem after (h : pending.Keeps ledger) (call : Call) :
    (pending.after call).Keeps (ledger.after call) := by
  cases call with
  | push m op =>
    show ((pending.push? m op).getD pending).Keeps
      (if op.id ∈ ledger.ids then ledger else ledger ++ [(m, op)])
    split
    · next hin =>
      rw [h.push?_eq_none hin]
      exact h
    · next hnew =>
      obtain ⟨after, hpush, hkeeps⟩ := h.push (m := m) hnew
      rw [hpush]
      exact hkeeps
  | takeReady peer stop => exact h.takeReady peer stop

theorem afterAll (h : pending.Keeps ledger) (calls : List Call) :
    (pending.afterAll calls).Keeps (ledger.afterAll calls) := by
  induction calls generalizing pending ledger with
  | nil => exact h
  | cons call calls ih => exact ih (h.after call)

theorem released (h : pending.Keeps ledger) (peer stop : Nat) :
    (pending.takeReady peer stop).1 = ledger.released peer stop := by
  rw [takeReady_fst, Ledger.released]
  exact List.flatMap_congr fun counter _ => h.bucket ⟨peer, counter⟩

theorem mem_missing (h : pending.Keeps ledger) :
    m ∈ pending.missing ↔ ∃ op, (m, op) ∈ ledger := by
  rw [Pending.mem_missing h.toTidy]
  exact exists_congr fun op => h.waits_iff

theorem size_eq (h : pending.Keeps ledger) : pending.size = ledger.length := by
  rw [size, OrderedSet.size_eq_length h.distinct fun id => h.mem_parked, Ledger.ids,
    List.length_map]

end Keeps

theorem ascending_missing (pending : Pending) :
    pending.missing.Pairwise fun a b => compare a b = .lt :=
  List.pairwise_map.2 pending.waiting.ascending

end Pending

end CausalDoc
