/- Atoms: the smallest steps of a history.

   Every replica (a peer) numbers the atoms it creates 0, 1, 2, … Peer and
   counter together name an atom everywhere and for ever. Beside its name an
   atom has a stamp, its Lamport time with the peer as tie-break; stamps decide
   every conflict, so that no replica has to ask another.

   Peers, counters and Lamport times are natural numbers here. That peers fit 64
   bits, and counters and Lamport times 32, is seen to where operations come into
   being: when they are read and when they are checked for flaws. -/

namespace CausalDoc

/-! ## Names -/

/-- The name of an atom. -/
@[ext] structure AtomId where
  /-- The peer that created the atom. -/
  peer : Nat
  /-- The atom's position in that peer's history. -/
  counter : Nat
  deriving DecidableEq, Repr, Inhabited

namespace AtomId

/-- Names are ordered by counter, and equal counters by peer. -/
instance : Ord AtomId :=
  ⟨compareLex (compareOn AtomId.counter) (compareOn AtomId.peer)⟩

instance : Std.TransOrd AtomId :=
  inferInstanceAs
    (Std.TransCmp (compareLex (compareOn AtomId.counter) (compareOn AtomId.peer)))

theorem compare_eq_lt_iff {a b : AtomId} :
    compare a b = .lt ↔ a.counter < b.counter ∨ a.counter = b.counter ∧ a.peer < b.peer := by
  change compareLex (compareOn AtomId.counter) (compareOn AtomId.peer) a b = .lt ↔ _
  simp only [compareLex, compareOn, Ordering.then_eq_lt, Nat.compare_eq_lt, Nat.compare_eq_eq]

theorem compare_eq_eq_iff {a b : AtomId} : compare a b = .eq ↔ a = b := by
  change compareLex (compareOn AtomId.counter) (compareOn AtomId.peer) a b = .eq ↔ _
  obtain ⟨p, c⟩ := a
  obtain ⟨q, d⟩ := b
  simp only [compareLex, compareOn, Ordering.then_eq_eq, Nat.compare_eq_eq, AtomId.mk.injEq,
    and_comm]

instance : Std.LawfulEqOrd AtomId where
  compare_self := compare_eq_eq_iff.2 rfl
  eq_of_compare := compare_eq_eq_iff.1

/-- The atom `n` places further on in the same peer's history. -/
def forward (id : AtomId) (n : Nat) : AtomId := ⟨id.peer, id.counter + n⟩

/-- The atom right before this one in the same peer's history. -/
def previous? (id : AtomId) : Option AtomId :=
  if id.counter = 0 then none else some ⟨id.peer, id.counter - 1⟩

/-- The written form `counter@peer`. -/
protected def toString (id : AtomId) : String := s!"{id.counter}@{id.peer}"

instance : ToString AtomId := ⟨AtomId.toString⟩

end AtomId

/-! ## Stamps -/

/-- The conflict-resolution key of an atom. -/
@[ext] structure Stamp where
  /-- The atom's Lamport time. -/
  lamport : Nat
  /-- The peer that created the atom. -/
  peer : Nat
  deriving DecidableEq, Repr, Inhabited

namespace Stamp

/-- Stamps are ordered by Lamport time, and equal times by peer. -/
instance : Ord Stamp :=
  ⟨compareLex (compareOn Stamp.lamport) (compareOn Stamp.peer)⟩

instance : Std.TransOrd Stamp :=
  inferInstanceAs (Std.TransCmp (compareLex (compareOn Stamp.lamport) (compareOn Stamp.peer)))

theorem compare_eq_lt_iff {a b : Stamp} :
    compare a b = .lt ↔ a.lamport < b.lamport ∨ a.lamport = b.lamport ∧ a.peer < b.peer := by
  change compareLex (compareOn Stamp.lamport) (compareOn Stamp.peer) a b = .lt ↔ _
  simp only [compareLex, compareOn, Ordering.then_eq_lt, Nat.compare_eq_lt, Nat.compare_eq_eq]

theorem compare_eq_eq_iff {a b : Stamp} : compare a b = .eq ↔ a = b := by
  change compareLex (compareOn Stamp.lamport) (compareOn Stamp.peer) a b = .eq ↔ _
  obtain ⟨l, p⟩ := a
  obtain ⟨m, q⟩ := b
  simp only [compareLex, compareOn, Ordering.then_eq_eq, Nat.compare_eq_eq, Stamp.mk.injEq]

instance : Std.LawfulEqOrd Stamp where
  compare_self := compare_eq_eq_iff.2 rfl
  eq_of_compare := compare_eq_eq_iff.1

instance : LT Stamp := ⟨fun a b => compare a b = .lt⟩

instance (a b : Stamp) : Decidable (a < b) := inferInstanceAs (Decidable (compare a b = .lt))

/-- The stamp `n` Lamport steps later. -/
def forward (stamp : Stamp) (n : Nat) : Stamp := ⟨stamp.lamport + n, stamp.peer⟩

end Stamp

/-! ## Spans -/

/-- A run of one peer's counters, from `first` up to but without `stop`. -/
structure Span where
  /-- The peer the run belongs to. -/
  peer : Nat
  /-- The first counter of the run. -/
  first : Nat
  /-- The counter after the last one. -/
  stop : Nat
  deriving DecidableEq, Repr

/-- The number of atoms in the span; none when it ends before it starts. -/
def Span.length (span : Span) : Nat := span.stop - span.first

def Span.isEmpty (span : Span) : Bool := span.length = 0

end CausalDoc
