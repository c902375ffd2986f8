import CausalDoc.Operation.Basic
import CausalDoc.Ordered.Map
import CausalDoc.Ordered.Set

/- Operations that came before something they depend on.

   Each waits under one atom that was missing when it came. Nothing is dropped; an
   operation stays until its atom is applied. The first atoms of the parked operations
   are kept beside them, so that an operation that comes twice is parked once. -/

namespace CausalDoc

/-- The parked operations. -/
structure Pending where
  /-- Under each missing atom the operations that wait for it, in the order they came. -/
  waiting : OrderedMap AtomId (List Operation)
  /-- The first atoms of the parked operations. -/
  parked : OrderedSet AtomId
  deriving DecidableEq, Repr, Inhabited

namespace Pending

def empty : Pending := ⟨.empty, .empty⟩

/-- Whether an operation that starts with `id` is parked. -/
def contains (pending : Pending) (id : AtomId) : Bool := decide (id ∈ pending.parked)

/-- Parks an operation until `missing` is applied. An operation with the same first atom as a
parked one is not parked; then there is no result. -/
def push? (pending : Pending) (missing : AtomId) (op : Operation) : Option Pending :=
  if op.id ∈ pending.parked then none
  else
    some {
      waiting :=
        pending.waiting.insert missing ((pending.waiting.get? missing).getD [] ++ [op])
      parked := pending.parked.insert op.id }

/-- Releases every operation that waits for an atom of `peer` below `stop`, in the order of
those atoms. -/
def takeReady (pending : Pending) (peer stop : Nat) : List Operation × Pending :=
  let isReady (id : AtomId) : Bool := id.peer = peer && id.counter < stop
  let ready := (pending.waiting.filter fun id _ => isReady id).values.flatten
  (ready, {
    waiting := pending.waiting.filter fun id _ => !isReady id
    parked := pending.parked.filter fun id => !(ready.map Operation.id).contains id })

/-- The atoms that are waited for, ascending. -/
def missing (pending : Pending) : List AtomId := pending.waiting.keys

def size (pending : Pending) : Nat := pending.parked.size

def isEmpty (pending : Pending) : Bool := pending.parked.isEmpty

/-! ## Nothing is lost -/

/-- The number of operations listed in the entries. -/
def loadOf (entries : List (AtomId × List Operation)) : Nat :=
  entries.foldr (fun e n => e.2.length + n) 0

/-- The number of operations that wait under some atom. -/
def load (pending : Pending) : Nat := loadOf pending.waiting.entries

theorem loadOf_insert (id : AtomId) (ops : List Operation)
    {es : List (AtomId × List Operation)} (h : Entries.Ascending es) :
    loadOf (Entries.insert id ops es) + ((Entries.find? id es).getD []).length =
      loadOf es + ops.length := by
  have hsum := Entries.foldr_insert (fun e => e.2.length) id ops h
  have hold : ((Entries.find? id es).elim 0 fun old => old.length) =
      ((Entries.find? id es).getD []).length := by
    cases Entries.find? id es <;> rfl
  rw [hold] at hsum
  exact hsum

theorem load_push? {pending after : Pending} {missing : AtomId} {op : Operation}
    (h : pending.push? missing op = some after) : after.load = pending.load + 1 := by
  unfold push? at h
  split at h
  · cases h
  · cases h
    have := loadOf_insert missing ((pending.waiting.get? missing).getD [] ++ [op])
      pending.waiting.ascending
    change loadOf (Entries.insert _ _ _) = loadOf _ + 1
    rw [List.length_append, List.length_singleton] at this
    unfold OrderedMap.get? at this ⊢
    omega

theorem loadOf_filter (p : AtomId × List Operation → Bool) :
    ∀ es : List (AtomId × List Operation),
      ((es.filter p).map (·.2)).flatten.length + loadOf (es.filter fun e => !p e) = loadOf es
  | [] => rfl
  | e :: es => by
    have ih := loadOf_filter p es
    cases hp : p e <;>
      simp only [List.filter_cons, hp, Bool.not_true, Bool.not_false, if_true, if_false,
        Bool.false_eq_true, loadOf, List.foldr_cons, List.map_cons, List.flatten_cons,
        List.length_append] at ih ⊢ <;> omega

/-- What is released no longer waits, and all else still does. -/
theorem load_takeReady (pending : Pending) (peer stop : Nat) :
    (pending.takeReady peer stop).1.length + (pending.takeReady peer stop).2.load =
      pending.load :=
  loadOf_filter _ pending.waiting.entries

end Pending

end CausalDoc
