import CausalDoc.Proofs.Checked.Log
import CausalDoc.Proofs.Store.InTurn
import Mathlib.Algebra.GroupWithZero.Nat
import Mathlib.Data.Set.Operations
import Mathlib.Order.Bounds.Defs

/- What a log built by appends answers about atoms.

   A log is built by calling `append` with sound operations; a call whose operation does not
   continue its peer's history fails and leaves the log as it was. The reference is the list
   `taken` of the operations that were appended. `Tallies` ties the log to it and is kept by
   every call, and every answer about an atom is then an answer about that list (`Exact`).

   The version vector answers what is contained, and a history is searched by halving for the
   operation that an atom belongs to (`partitionPoint`): both rest on the operations of a
   peer being in order and without gaps. -/

namespace CausalDoc

/-! ## Halving -/

section Halving

variable {α : Type}

/-- The place in `low … high` where the items that pass end, found by halving. -/
def bisect (p : α → Bool) (xs : List α) (low high : Nat) : Nat :=
  if low < high then
    let middle := (low + high) / 2
    if xs[middle]?.any p then bisect p xs (middle + 1) high else bisect p xs low middle
  else low
termination_by high - low

/-- The number of items that pass, when they come first. -/
def partitionPoint (p : α → Bool) (xs : List α) : Nat := bisect p xs 0 xs.length

variable {p : α → Bool} {xs : List α}

/-- While the place sought lies in the window, halving it finds the place. -/
theorem bisect_eq {cut : Nat} (hcut : ∀ i x, xs[i]? = some x → (p x = true ↔ i < cut))
    {low high : Nat} (hlow : low ≤ cut) (hhigh : cut ≤ high) (hend : high ≤ xs.length) :
    bisect p xs low high = cut := by
  induction low, high using bisect.induct p xs with
  | case1 low high hlt middle hpass ih =>
    have hmiddle : middle < xs.length := by omega
    rw [bisect, if_pos hlt, if_pos hpass]
    apply ih _ hhigh hend
    rw [List.getElem?_eq_getElem hmiddle, Option.any_some] at hpass
    exact (hcut middle _ (List.getElem?_eq_getElem hmiddle)).1 hpass
  | case2 low high hlt middle hfail ih =>
    have hmiddle : middle < xs.length := by omega
    rw [bisect, if_pos hlt, if_neg hfail]
    apply ih hlow _ hmiddle.le
    rw [List.getElem?_eq_getElem hmiddle, Option.any_some] at hfail
    exact Nat.not_lt.1 fun h => hfail ((hcut middle _ (List.getElem?_eq_getElem hmiddle)).2 h)
  | case3 low high hge =>
    rw [bisect, if_neg hge]
    omega

theorem exists_cut (h : xs.Pairwise fun x y => p y = true → p x = true) :
    ∃ cut, cut ≤ xs.length ∧ (∀ i x, xs[i]? = some x → (p x = true ↔ i < cut)) ∧
      xs[cut]? = xs.find? fun x => !p x := by
  induction h with
  | nil => exact ⟨0, by simp⟩
  | @cons head xs hhead _ ih =>
    by_cases hp : p head = true
    · obtain ⟨cut, hle, hcut, hfind⟩ := ih
      refine ⟨cut + 1, Nat.succ_le_succ hle, fun i x hx => ?_, by simp [hp, hfind]⟩
      cases i with
      | zero => simp_all
      | succ i => rw [hcut i x (by simpa using hx), Nat.add_lt_add_iff_right]
    · refine ⟨0, Nat.zero_le _, fun i x hx => ?_, by simp [hp]⟩
      have hmem : x ∈ head :: xs := List.mem_of_getElem? hx
      have hfail : p x ≠ true := by
        rcases List.mem_cons.1 hmem with rfl | hmem
        · exact hp
        · exact fun hpx => hp (hhead x hmem hpx)
      simp [hfail]

/-- Halving finds the first item that does not pass. -/
theorem getElem?_partitionPoint (h : xs.Pairwise fun x y => p y = true → p x = true) :
    xs[partitionPoint p xs]? = xs.find? fun x => !p x := by
  obtain ⟨cut, hle, hcut, hfind⟩ := exists_cut h
  rw [partitionPoint, bisect_eq hcut (Nat.zero_le _) hle (Nat.le_refl _), hfind]

end Halving

/-! ## Counting atoms -/

namespace VersionVector

/-- Overwriting an entry changes the count by what it changes the next counter. -/
theorem atomCount_setLast (v : VersionVector) (id : AtomId) :
    (v.setLast id).atomCount + v.nextCounter id.peer = v.atomCount + (id.counter + 1) := by
  have hsum := Entries.foldr_insert (fun e => e.2 + 1) id.peer id.counter v.last.ascending
  have hnext : ((Entries.find? id.peer v.last.entries).elim 0 fun c => c + 1) =
      v.nextCounter id.peer := by
    unfold nextCounter get? OrderedMap.get?
    cases Entries.find? id.peer v.last.entries <;> rfl
  rw [hnext] at hsum
  exact hsum

end VersionVector

namespace Log

variable {log : Log} {op : Operation} {ops done : List Operation}

theorem atomCount_push (hpos : 0 < op.length)
    (hnext : op.id.counter = log.version.nextCounter op.id.peer) :
    (log.push op).atomCount = log.atomCount + op.length := by
  have hset := log.version.atomCount_setLast
    ⟨op.id.peer, max ((log.version.get? op.id.peer).getD 0) op.lastId.counter⟩
  have hafter : (log.push op).version.nextCounter op.id.peer = op.stop := by
    rw [nextCounter_push hpos hnext, if_pos rfl]
  have hlast : (log.push op).version.nextCounter op.id.peer =
      max ((log.version.get? op.id.peer).getD 0) op.lastId.counter + 1 :=
    VersionVector.nextCounter_setLast_self ..
  rw [← hlast, hafter, ← hnext, Operation.stop] at hset
  have hcount : (log.push op).atomCount + op.id.counter =
      log.atomCount + (op.id.counter + op.length) := hset
  omega

/-! ## Appending -/

/-- Appends an operation, or does nothing when the call fails. -/
def tryAppend (log : Log) (op : Operation) : Log :=
  match log.append op with
  | .ok after => after
  | .error _ => log

/-- The log after calls of `append`, failed ones included. -/
def appendAll (log : Log) (ops : List Operation) : Log := ops.foldl tryAppend log

/-- The operations whose calls succeed, in order. -/
def taken : Log → List Operation → List Operation
  | _, [] => []
  | log, op :: ops =>
    match log.append op with
    | .ok after => op :: after.taken ops
    | .error _ => log.taken ops

/-- The log holds exactly the operations `done`, and counts them and their atoms. -/
structure Tallies (log : Log) (done : List Operation) : Prop extends Gapless log where
  stored : ∀ op, log.Stored op ↔ op ∈ done
  once : done.Nodup
  atoms : log.atomCount = (done.map Operation.length).sum
  operations : log.operationCount = done.length

theorem tallies_empty : empty.Tallies [] where
  toGapless := gapless_empty
  stored := fun _ => Iff.rfl
  once := List.nodup_nil
  atoms := rfl
  operations := rfl

/-- A log without gaps has no operation that starts where a history ends. -/
theorem Gapless.not_stored (h : log.Gapless)
    (hnext : op.id.counter = log.version.nextCounter op.id.peer) : ¬ log.Stored op := by
  intro hop
  have hin := h.contains_of_covers hop (Operation.covers_id (h.sound hop).length_pos)
  rw [contains, VersionVector.includes_iff, hnext] at hin
  exact Nat.lt_irrefl _ hin

theorem Tallies.push (h : log.Tallies done) (hsound : op.Sound)
    (hnext : op.id.counter = log.version.nextCounter op.id.peer) :
    (log.push op).Tallies (done ++ [op]) where
  toGapless := h.toGapless.push hsound hnext
  stored := fun o => by rw [stored_push, h.stored, List.mem_append, List.mem_singleton]
  once := by
    have hnew : op ∉ done := fun hop => h.toGapless.not_stored hnext ((h.stored op).2 hop)
    rw [← List.concat_eq_append, List.nodup_concat]
    exact ⟨hnew, h.once⟩
  atoms := by
    rw [atomCount_push hsound.length_pos hnext, h.atoms, List.map_append, List.sum_append]
    rfl
  operations := by rw [operationCount_push, h.operations, List.length_append]; rfl

/-- A call that fails leaves the log and its account as they were, and one that succeeds adds
the operation to both. -/
theorem Tallies.appendAll (h : log.Tallies done) (hops : ∀ op ∈ ops, op.Sound) :
    (log.appendAll ops).Tallies (done ++ log.taken ops) := by
  induction ops generalizing log done with
  | nil =>
    rw [taken, List.append_nil]
    exact h
  | cons op ops ih =>
    obtain ⟨hop, hrest⟩ := List.forall_mem_cons.1 hops
    show ((log.tryAppend op).appendAll ops).Tallies (done ++ log.taken (op :: ops))
    by_cases hnext : op.id.counter = log.version.nextCounter op.id.peer
    · simp only [tryAppend, taken, append_eq hnext]
      rw [List.append_cons]
      exact ih (h.push hop hnext) hrest
    · simp only [tryAppend, taken, append, ne_eq, hnext, not_false_eq_true, if_true]
      exact ih h hrest

/-! ## Looking up -/

/-- Halving a history finds the operation that an atom belongs to. -/
theorem Gapless.get?_eq_halving (h : log.Gapless) (id : AtomId) :
    log.get? id =
      ((log.history id.peer)[partitionPoint (fun op => op.stop ≤ id.counter)
        (log.history id.peer)]?).filter fun op => op.covers id := by
  have hordered : (log.history id.peer).Pairwise fun a b =>
      decide (b.stop ≤ id.counter) = true → decide (a.stop ≤ id.counter) = true := by
    refine (h.contiguous id.peer).pairwise.imp fun {a b} hab => ?_
    rw [decide_eq_true_eq, decide_eq_true_eq, Operation.stop]
    omega
  rw [getElem?_partitionPoint hordered, get?]
  simp only [← decide_not, Nat.not_le]

/-- What the log answers about atoms is so of the operations `done` that were appended. -/
structure Exact (log : Log) (done : List Operation) : Prop where
  /-- These are the stored operations, and none of them is there twice. -/
  stored : done.Nodup ∧ ∀ op, log.Stored op ↔ op ∈ done
  /-- An atom is contained when an operation covers it. -/
  contains : ∀ id, log.contains id = true ↔ ∃ op ∈ done, op.covers id = true
  /-- No two operations cover the same atom. -/
  unique : ∀ id, log.contains id = true ↔ ∃! op, op ∈ done ∧ op.covers id = true
  /-- The look-up gives the operation that covers the atom. -/
  get? : ∀ id op, log.get? id = some op ↔ op ∈ done ∧ op.covers id = true
  /-- It gives none for an atom that is not contained. -/
  absent : ∀ id, log.get? id = none ↔ log.contains id = false
  /-- It halves the history of the atom's peer. -/
  halving : ∀ id, log.get? id =
    ((log.history id.peer)[partitionPoint (fun op => op.stop ≤ id.counter)
      (log.history id.peer)]?).filter fun op => op.covers id
  /-- The Lamport time of an atom is that of its operation, and one more for each atom before. -/
  lamport? : ∀ id l, log.lamport? id = some l ↔
    ∃ op ∈ done, op.covers id = true ∧ l = op.lamport + (id.counter - op.id.counter)
  /-- There are as many atoms as the operations have together. -/
  atoms : log.atomCount = (done.map Operation.length).sum
  /-- There are as many operations as calls that succeeded. -/
  operations : log.operationCount = done.length
  /-- A call succeeds for the operations that start with the next atom of their peer. -/
  append : ∀ op : Operation,
    (∃ after, log.append op = .ok after) ↔ op.id = log.nextId op.id.peer
  /-- The next atom of a peer is the first one that is not contained. -/
  nextId : ∀ peer, (log.nextId peer).peer = peer ∧
    IsLeast {c | log.contains ⟨peer, c⟩ = false} (log.nextId peer).counter
  /-- None of this needs more than 32 bits. -/
  words : (∀ id, Checked.get? log id = .ok (log.get? id)) ∧
    (∀ id, Checked.lamport? log id = .ok (log.lamport? id)) ∧
    (∀ peer, Checked.nextCounter log.version peer = .ok (log.nextId peer).counter) ∧
    ∀ op : Operation, op.Sound → Checked.append log op = .ok (log.append op)

theorem exists_append_iff :
    (∃ after, log.append op = .ok after) ↔ op.id = log.nextId op.id.peer := by
  have hid : op.id = log.nextId op.id.peer ↔
      op.id.counter = log.version.nextCounter op.id.peer := by
    rw [AtomId.ext_iff]
    exact and_iff_right rfl
  rw [hid, Log.append]
  by_cases hnext : op.id.counter = log.version.nextCounter op.id.peer <;> simp [hnext]

theorem isLeast_nextId (log : Log) (peer : Nat) :
    IsLeast {c | log.contains ⟨peer, c⟩ = false} (log.nextId peer).counter := by
  have hmem : ∀ c, log.contains ⟨peer, c⟩ = false ↔ log.version.nextCounter peer ≤ c := by
    intro c
    rw [← Bool.not_eq_true, contains, VersionVector.includes_iff, Nat.not_lt]
  exact ⟨(hmem _).2 (Nat.le_refl _), fun c hc => (hmem c).1 hc⟩

theorem Tallies.exact (h : log.Tallies done) : log.Exact done where
  stored := ⟨h.once, h.stored⟩
  contains := fun id => by
    rw [h.contains_iff_covers]
    exact exists_congr fun op => and_congr_left fun _ => h.stored op
  unique := fun id => by
    rw [h.contains_iff_covers]
    simp only [h.stored]
    refine ⟨?_, ExistsUnique.exists⟩
    intro hgiven
    obtain ⟨op, hop, hcovers⟩ := hgiven
    refine ⟨op, ⟨hop, hcovers⟩, fun o ho => ?_⟩
    exact h.eq_of_covers ((h.stored o).2 ho.1) ((h.stored op).2 hop) ho.2 hcovers
  get? := fun id op => by rw [h.get?_eq_some_iff, h.stored]
  absent := fun id => by
    rw [← Bool.not_eq_true, h.contains_iff, Option.eq_none_iff_forall_ne_some]
    simp
  halving := h.get?_eq_halving
  lamport? := fun id l => by
    simp only [lamport?_eq_some_iff, h.get?_eq_some_iff, h.stored, and_assoc]
  atoms := h.atoms
  operations := h.operations
  append := fun _ => exists_append_iff
  nextId := fun peer => ⟨rfl, log.isLeast_nextId peer⟩
  words := by
    refine ⟨Checked.get?_eq h.toGapless, Checked.lamport?_eq h.toGapless, fun peer => ?_,
      fun op => Checked.append_eq h.toGapless⟩
    exact Checked.nextCounter_eq (Checked.version_lt h.toGapless peer)

/-- After any calls of `append` with sound operations, whether they succeed or fail, the log
answers about every atom what the operations that were appended say. -/
theorem lookups_exact (ops : List Operation) (hops : ∀ op ∈ ops, op.Sound) :
    (empty.appendAll ops).Exact (empty.taken ops) :=
  (tallies_empty.appendAll hops).exact

/-- Two letters, the same two again, which fails, and three more. -/
theorem lookups_exact_typed :
    let first : Operation := ⟨⟨1, 0⟩, 4, [], .root "t" .text, 0, .insert none (.text "ab")⟩
    let second : Operation :=
      ⟨⟨1, 2⟩, 9, [], .root "t" .text, 0, .insert (some ⟨1, 1⟩) (.text "cde")⟩
    let log := empty.appendAll [first, first, second]
    log.Exact [first, second] ∧ log.get? ⟨1, 1⟩ = some first ∧ log.get? ⟨1, 2⟩ = some second ∧
      log.lamport? ⟨1, 4⟩ = some 11 ∧ log.get? ⟨1, 5⟩ = none ∧ log.nextId 1 = ⟨1, 5⟩ ∧
      log.nextId 2 = ⟨2, 0⟩ := by
  intro first second log
  have hops : ∀ op ∈ [first, first, second], op.Sound := by decide
  exact ⟨lookups_exact [first, first, second] hops, by decide⟩

end Log

end CausalDoc
