import CausalDoc.Proofs.Log.Coherent

/- Operations and versions with checked arithmetic.

   Counters and Lamport times are natural numbers in the library and 32-bit words on a
   machine. The functions of this part compute what the functions of the same names in the
   library compute, but trap where a machine would: when a sum leaves 32 bits, a difference
   falls below zero, or a part of a content starts beyond its end. On an operation without a
   flaw none of them traps: its own limits bound all that is computed from it. -/

namespace CausalDoc

/-- What a machine would run into. -/
inductive Trap where
  /-- A sum leaves 32 bits. -/
  | overflow
  /-- A difference falls below zero. -/
  | underflow
  /-- A part starts beyond the end of its whole. -/
  | slice
  /-- An element that is looked up does not exist. -/
  | missing
  /-- Elements are put beyond the end of an order. -/
  | splice
  deriving DecidableEq, Repr

/-- A result, unless the machine traps on the way. -/
abbrev Checked (α : Type) := Except Trap α

namespace Checked

@[simp] theorem ok_bind {α β : Type} (a : α) (f : α → Checked β) :
    ((.ok a : Checked α) >>= f) = f a := rfl

theorem bind_eq_ok {α β : Type} {x : Checked α} {f : α → Checked β} {b : β}
    (h : x >>= f = .ok b) : ∃ a, x = .ok a ∧ f a = .ok b := by
  cases x with
  | error trap => cases h
  | ok a => exact ⟨a, rfl, h⟩

theorem mapM_eq {α β : Type} {f : α → Checked β} {g : α → β} {xs : List α}
    (h : ∀ x ∈ xs, f x = .ok (g x)) : xs.mapM f = .ok (xs.map g) := by
  induction xs with
  | nil => rfl
  | cons x xs ih =>
    rw [List.mapM_cons, h x List.mem_cons_self, ok_bind,
      ih fun y hy => h y (List.mem_cons_of_mem _ hy)]
    rfl

/-! ## Words -/

/-- A number of 32 bits. -/
def word (n : Nat) : Checked Nat := if n < 0x100000000 then .ok n else .error .overflow

def minus (a b : Nat) : Checked Nat := if b ≤ a then .ok (a - b) else .error .underflow

theorem word_eq {n : Nat} (h : n < 0x100000000) : word n = .ok n := if_pos h

theorem minus_eq {a b : Nat} (h : b ≤ a) : minus a b = .ok (a - b) := if_pos h

/-! ## Versions -/

def forward (id : AtomId) (n : Nat) : Checked AtomId := do
  return ⟨id.peer, ← word (id.counter + n)⟩

def nextCounter (v : VersionVector) (peer : Nat) : Checked Nat :=
  match v.get? peer with
  | none => return 0
  | some c => word (c + 1)

/-- What `w` does not cover of a peer's atoms up to a last one. -/
def newSpan (w : VersionVector) (last : Nat × Nat) : Checked (Option Span) := do
  let first ← nextCounter w last.1
  if first ≤ last.2 then
    return some ⟨last.1, first, ← word (last.2 + 1)⟩
  else
    return none

def subtract (v w : VersionVector) : Checked (List Span) := do
  return (← v.last.entries.mapM (newSpan w)).filterMap id

theorem forward_eq {id : AtomId} {n : Nat} (h : id.counter + n < 0x100000000) :
    forward id n = .ok (id.forward n) := by
  rw [forward, word_eq h]
  rfl

theorem nextCounter_eq {v : VersionVector} {peer : Nat} (h : v.nextCounter peer < 0x100000000) :
    nextCounter v peer = .ok (v.nextCounter peer) := by
  unfold nextCounter
  unfold VersionVector.nextCounter at h ⊢
  cases hget : v.get? peer with
  | none => rfl
  | some c =>
    rw [hget] at h
    exact word_eq h

theorem subtract_eq {v w : VersionVector} (hv : ∀ peer, v.nextCounter peer < 0x100000000)
    (hw : ∀ peer, w.nextCounter peer < 0x100000000) : subtract v w = .ok (v.subtract w) := by
  have hspan : ∀ e ∈ v.last.entries, newSpan w e =
      .ok (if w.nextCounter e.1 ≤ e.2 then some ⟨e.1, w.nextCounter e.1, e.2 + 1⟩ else none) := by
    intro e he
    have hlast : v.nextCounter e.1 = e.2 + 1 := by
      apply VersionVector.get?_eq_some_iff.1
      exact (OrderedMap.get?_eq_some_iff _).2 he
    rw [newSpan, nextCounter_eq (hw e.1), ok_bind, word_eq (hlast ▸ hv e.1)]
    split <;> rfl
  rw [subtract, mapM_eq hspan, ok_bind, List.filterMap_map]
  rfl

/-! ## Operations -/

def length (op : Operation) : Checked Nat := word op.length

def stop (op : Operation) : Checked Nat := do word (op.id.counter + (← length op))

def lastId (op : Operation) : Checked AtomId := do forward op.id (← minus (← length op) 1)

def covers (op : Operation) (id : AtomId) : Checked Bool := do
  let stop ← stop op
  return id.peer = op.id.peer && op.id.counter ≤ id.counter && id.counter < stop

def drop (content : Inserted) (n : Nat) : Checked Inserted :=
  if n ≤ content.length then .ok (content.drop n) else .error .slice

def suffix (op : Operation) (counter : Nat) : Checked Operation := do
  let skipped := counter - op.id.counter
  if skipped = 0 then
    return op
  else
    let id ← forward op.id skipped
    let lamport ← word (op.lamport + skipped)
    match op.action with
    | .insert _ content =>
      let anchor ← forward op.id (← minus skipped 1)
      let content ← drop content skipped
      return { op with id, lamport, action := .insert (some anchor) content }
    | action => return { op with id, lamport, action }

section Sound

variable {op : Operation} (h : op.Sound)

include h

theorem length_eq : length op = .ok op.length := word_eq h.length_lt

theorem stop_eq : stop op = .ok op.stop := by
  rw [stop, length_eq h, ok_bind]
  exact word_eq h.stop_lt

theorem lastId_eq : lastId op = .ok op.lastId := by
  have hpos := h.length_pos
  have hstop := h.stop_lt
  rw [Operation.stop] at hstop
  rw [lastId, length_eq h, ok_bind, minus_eq hpos, ok_bind, forward_eq (by omega)]
  rfl

theorem covers_eq (id : AtomId) : covers op id = .ok (op.covers id) := by
  rw [covers, stop_eq h]
  rfl

theorem suffix_eq {counter : Nat} (hstop : counter < op.stop) :
    suffix op counter = .ok (op.suffix counter) := by
  have hlimit := h.stop_lt
  have hlamport := h.lamport_lt
  rw [Operation.stop] at hstop hlimit
  unfold suffix Operation.suffix
  dsimp only
  split
  · rfl
  · rw [forward_eq (by omega), word_eq (by omega), minus_eq (by omega)]
    cases haction : op.action with
    | insert anchor content =>
      have hlength : op.length = content.length := by rw [Operation.length, haction]; rfl
      have hdrop : drop content (counter - op.id.counter) =
          .ok (content.drop (counter - op.id.counter)) := if_pos (by omega)
      simp only [ok_bind]
      rw [forward_eq (by omega), hdrop]
      rfl
    | delete targets | setField key value | create slot kind => rfl

end Sound

end Checked

end CausalDoc
