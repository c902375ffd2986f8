import CausalDoc.Atom

/- The order of stamps, and names and stamps of neighbouring atoms. -/

namespace CausalDoc

namespace AtomId

@[simp] theorem forward_peer (id : AtomId) (n : Nat) : (id.forward n).peer = id.peer := rfl

@[simp] theorem forward_counter (id : AtomId) (n : Nat) :
    (id.forward n).counter = id.counter + n := rfl

@[simp] theorem forward_zero (id : AtomId) : id.forward 0 = id := rfl

theorem forward_forward (id : AtomId) (m n : Nat) :
    (id.forward m).forward n = id.forward (m + n) := by
  simp [forward, Nat.add_assoc]

theorem forward_inj {id : AtomId} {m n : Nat} : id.forward m = id.forward n ↔ m = n := by
  simp [forward]

theorem eq_forward {a b : AtomId} (hpeer : b.peer = a.peer) (hle : a.counter ≤ b.counter) :
    b = a.forward (b.counter - a.counter) := by
  ext
  · exact hpeer
  · rw [forward_counter]
    omega

theorem mem_previous? {a b : AtomId} :
    a ∈ b.previous?.toList ↔ a.peer = b.peer ∧ a.counter + 1 = b.counter := by
  unfold previous?
  split
  · next h => simp [h]
  · next h =>
    simp only [Option.toList_some, List.mem_singleton, AtomId.ext_iff]
    omega

end AtomId

namespace Stamp

theorem lt_iff {a b : Stamp} :
    a < b ↔ a.lamport < b.lamport ∨ a.lamport = b.lamport ∧ a.peer < b.peer :=
  compare_eq_lt_iff

theorem lt_irrefl (a : Stamp) : ¬ a < a := by
  rw [lt_iff]
  omega

theorem lt_trans {a b c : Stamp} (hab : a < b) (hbc : b < c) : a < c := by
  rw [lt_iff] at *
  omega

theorem lt_of_lt_of_not_lt {a b c : Stamp} (hab : a < b) (hcb : ¬ c < b) : a < c := by
  rw [lt_iff] at *
  omega

theorem eq_of_not_lt {a b : Stamp} (hab : ¬ a < b) (hba : ¬ b < a) : a = b := by
  rw [lt_iff] at *
  ext <;> omega

theorem lt_of_lamport_lt {a b : Stamp} (h : a.lamport < b.lamport) : a < b :=
  lt_iff.2 (.inl h)

@[simp] theorem forward_lamport (a : Stamp) (n : Nat) :
    (a.forward n).lamport = a.lamport + n := rfl

@[simp] theorem forward_peer (a : Stamp) (n : Nat) : (a.forward n).peer = a.peer := rfl

@[simp] theorem forward_zero (a : Stamp) : a.forward 0 = a := rfl

theorem forward_forward (a : Stamp) (m n : Nat) : (a.forward m).forward n = a.forward (m + n) := by
  simp [forward, Nat.add_assoc]

end Stamp

end CausalDoc
