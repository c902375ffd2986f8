import CausalDoc.Atom
import CausalDoc.Ordered.Map

/- Version vectors: how much of every peer's history is known.

   An entry `peer ↦ c` says that the atoms 0, …, c of that peer are known. A peer
   without an entry has contributed nothing, which is not the same as an entry 0.
   So a vector describes a set of atoms that with an atom holds its predecessors
   (`includes`), and comparing, joining and subtracting vectors is meant for these
   sets. -/

namespace CausalDoc

/-- Per peer the last counter known. -/
structure VersionVector where
  /-- The entries, in peer order. -/
  last : OrderedMap Nat Nat
  deriving DecidableEq, Repr, Inhabited

namespace VersionVector

def empty : VersionVector := ⟨.empty⟩

def get? (v : VersionVector) (peer : Nat) : Option Nat := v.last.get? peer

/-- The counter that the next unseen atom of a peer must have. -/
def nextCounter (v : VersionVector) (peer : Nat) : Nat :=
  match v.get? peer with
  | none => 0
  | some c => c + 1

def includes (v : VersionVector) (id : AtomId) : Bool := id.counter < v.nextCounter id.peer

/-- Whether everything that `w` covers is covered. -/
def includesAll (v w : VersionVector) : Bool := w.last.entries.all fun e => v.includes ⟨e.1, e.2⟩

/-- Overwrites the last counter of the atom's peer. -/
def setLast (v : VersionVector) (id : AtomId) : VersionVector := ⟨v.last.insert id.peer id.counter⟩

/-- Grows the entry of the atom's peer until it covers the atom. -/
def extend (v : VersionVector) (id : AtomId) : VersionVector :=
  v.setLast ⟨id.peer, max ((v.get? id.peer).getD 0) id.counter⟩

/-- The vector that grows from the empty one by the listed atoms. -/
def ofAtoms (ids : List AtomId) : VersionVector := ids.foldl extend empty

/-- Covers what either vector covers. -/
def merge (v w : VersionVector) : VersionVector :=
  w.last.entries.foldl (fun u e => u.extend ⟨e.1, e.2⟩) v

/-- The atoms that `v` covers and `w` does not, as one span for each peer, in peer order. -/
def subtract (v w : VersionVector) : List Span :=
  v.last.entries.filterMap fun e =>
    let first := w.nextCounter e.1
    if first ≤ e.2 then some ⟨e.1, first, e.2 + 1⟩ else none

/-- What each side covers and the other does not. -/
def diff (v w : VersionVector) : List Span × List Span := (v.subtract w, w.subtract v)

def size (v : VersionVector) : Nat := v.last.size

def isEmpty (v : VersionVector) : Bool := v.last.isEmpty

def atomCount (v : VersionVector) : Nat := v.last.entries.foldr (fun e n => e.2 + 1 + n) 0

/-- The causal order of two vectors; nothing when neither covers the other. -/
def order? (v w : VersionVector) : Option Ordering :=
  match v.includesAll w, w.includesAll v with
  | true, true => some .eq
  | true, false => some .gt
  | false, true => some .lt
  | false, false => none

theorem nextCounter_setLast_self (v : VersionVector) (id : AtomId) :
    (v.setLast id).nextCounter id.peer = id.counter + 1 := by
  simp [nextCounter, get?, setLast]

theorem nextCounter_setLast_of_ne (v : VersionVector) (id : AtomId) {peer : Nat}
    (h : peer ≠ id.peer) : (v.setLast id).nextCounter peer = v.nextCounter peer := by
  simp [nextCounter, get?, setLast, OrderedMap.get?_insert_of_ne _ h]

theorem nextCounter_extend_self (v : VersionVector) (id : AtomId) :
    (v.extend id).nextCounter id.peer = max (v.nextCounter id.peer) (id.counter + 1) := by
  rw [extend, nextCounter_setLast_self v ⟨id.peer, _⟩, nextCounter]
  cases v.get? id.peer with
  | none =>
    change max 0 id.counter + 1 = max 0 (id.counter + 1)
    omega
  | some c =>
    change max c id.counter + 1 = max (c + 1) (id.counter + 1)
    omega

theorem nextCounter_extend_of_ne (v : VersionVector) {id : AtomId} {peer : Nat}
    (h : peer ≠ id.peer) : (v.extend id).nextCounter peer = v.nextCounter peer :=
  nextCounter_setLast_of_ne v ⟨id.peer, _⟩ h

end VersionVector

end CausalDoc
