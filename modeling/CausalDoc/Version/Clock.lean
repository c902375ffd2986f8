import CausalDoc.Atom

/- Logical and wall-clock time of one replica.

   The logical part is the Lamport time that the next local operation takes, which
   stays above everything applied. The wall clock is read elsewhere and handed in;
   the replica remembers the latest timestamp applied and never issues an earlier
   one, though the wall clock may jump back. -/

namespace CausalDoc

/-- The clock of a replica. -/
structure Clock where
  /-- The Lamport time of the next local operation. -/
  nextLamport : Nat
  /-- The latest timestamp of an applied operation. -/
  latestTimestamp : Nat
  deriving DecidableEq, Repr, Inhabited

namespace Clock

def start : Clock := ⟨0, 0⟩

/-- The timestamp of a local operation, when the wall clock shows `wallTime`. -/
def now (clock : Clock) (wallTime : Nat) : Nat := max wallTime clock.latestTimestamp

/-- Takes note of an applied operation of `length` atoms. -/
def observe (clock : Clock) (lamport : Nat) (length timestamp : Nat) : Clock :=
  ⟨max clock.nextLamport (lamport + length), max clock.latestTimestamp timestamp⟩

end Clock

end CausalDoc
