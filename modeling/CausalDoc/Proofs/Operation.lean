import CausalDoc.Operation.Flaw
import CausalDoc.Proofs.Atom

/- The atoms of an operation, what soundness says, and suffixes.

   A suffix covers the atoms of the operation from a counter on, with the Lamport times
   they have in the whole, and is sound with it. Everything else here reads definitions
   as statements about atoms. -/

namespace CausalDoc.Value

theorem itemsHoldContainer_eq_false {vs : List Value} :
    itemsHoldContainer vs = false ↔ ∀ v ∈ vs, v.holdsContainer = false := by
  induction vs with
  | nil => simp [itemsHoldContainer]
  | cons v vs ih => simp [itemsHoldContainer, ih]

theorem fieldsHoldContainer_eq_false {fs : List (String × Value)} :
    fieldsHoldContainer fs = false ↔ ∀ f ∈ fs, f.2.holdsContainer = false := by
  induction fs with
  | nil => simp [fieldsHoldContainer]
  | cons f fs ih => simp [fieldsHoldContainer, ih]

end CausalDoc.Value

namespace CausalDoc.Operation

variable {op : Operation}

/-! ## Atoms -/

theorem covers_iff {a : AtomId} :
    op.covers a = true ↔
      a.peer = op.id.peer ∧ op.id.counter ≤ a.counter ∧ a.counter < op.stop := by
  simp [covers, and_assoc]

/-- Operations that share an atom have one author. -/
theorem peer_eq_of_covers {o : Operation} {a : AtomId} (h : op.covers a = true)
    (h' : o.covers a = true) : op.id.peer = o.id.peer := by
  calc op.id.peer
      = a.peer := (covers_iff.1 h).1.symm
    _ = o.id.peer := (covers_iff.1 h').1

theorem covers_id (h : 0 < op.length) : op.covers op.id = true := by
  rw [covers_iff, stop]
  omega

theorem covers_lastId (h : 0 < op.length) : op.covers op.lastId = true := by
  rw [covers_iff, lastId, stop, AtomId.forward_peer, AtomId.forward_counter]
  omega

theorem covers_forward {n : Nat} (h : n < op.length) : op.covers (op.id.forward n) = true := by
  rw [covers_iff, stop, AtomId.forward_peer, AtomId.forward_counter]
  omega

/-- Every atom of an operation is so many places behind its first one. -/
theorem exists_forward {a : AtomId} (h : op.covers a = true) :
    ∃ n < op.length, a = op.id.forward n := by
  obtain ⟨hpeer, hfirst, hstop⟩ := covers_iff.1 h
  rw [stop] at hstop
  exact ⟨a.counter - op.id.counter, by omega, AtomId.eq_forward hpeer hfirst⟩

theorem stop_eq_lastId (h : 0 < op.length) : op.lastId.counter + 1 = op.stop := by
  rw [lastId, stop, AtomId.forward_counter]
  omega

theorem lastId_peer : op.lastId.peer = op.id.peer := rfl

theorem mem_dependencies {d : AtomId} :
    d ∈ op.dependencies ↔
      d ∈ op.deps ∨ d.peer = op.id.peer ∧ d.counter + 1 = op.id.counter ∨
        op.container.creator? = some d := by
  rw [dependencies, List.mem_append, List.mem_append, AtomId.mem_previous?, Option.mem_toList,
    or_assoc]

/-! ## Soundness -/

theorem sound_iff :
    op.Sound ↔
      0 < op.length ∧ op.length < 0x100000000 ∧ op.stop < 0x100000000 ∧
        op.lamport + op.length < 0x100000000 ∧
        (∀ d ∈ op.deps, d.peer = op.id.peer → d.counter < op.id.counter) ∧
        op.action.holdsContainer = false ∧ op.action.flaw? op.container.kind = none := by
  have hfuture : (op.deps.any fun d => d.peer = op.id.peer && op.id.counter ≤ d.counter) = false ↔
      ∀ d ∈ op.deps, d.peer = op.id.peer → d.counter < op.id.counter := by
    simp [List.any_eq_false]
  unfold Sound flaw?
  rw [← hfuture]
  unfold stop
  refine ⟨?_, ?_⟩
  · intro h
    split at h
    · cases h
    split at h
    · cases h
    split at h
    · cases h
    split at h
    · cases h
    split at h
    · cases h
    next hlength hlong hlimit hdeps hplain =>
      exact ⟨by omega, by omega, by omega, by omega, Bool.not_eq_true _ ▸ hdeps,
        Bool.not_eq_true _ ▸ hplain, h⟩
  · intro hgiven
    obtain ⟨hlength, hlong, hcounter, hlamport, hdeps, hplain, haction⟩ := hgiven
    rw [if_neg (by omega), if_neg (by omega), if_neg (by omega), hdeps, hplain]
    exact haction

namespace Sound

variable (h : op.Sound)

include h

theorem length_pos : 0 < op.length := (sound_iff.1 h).1

theorem length_lt : op.length < 0x100000000 := (sound_iff.1 h).2.1

theorem stop_pos : 0 < op.stop := Nat.lt_of_lt_of_le h.length_pos (Nat.le_add_left _ _)

theorem stop_lt : op.stop < 0x100000000 := (sound_iff.1 h).2.2.1

theorem lamport_lt : op.lamport + op.length < 0x100000000 := (sound_iff.1 h).2.2.2.1

theorem dep_lt {d : AtomId} (hd : d ∈ op.deps) (hpeer : d.peer = op.id.peer) :
    d.counter < op.id.counter :=
  (sound_iff.1 h).2.2.2.2.1 d hd hpeer

theorem plain : op.action.holdsContainer = false := (sound_iff.1 h).2.2.2.2.2.1

theorem fits : op.action.flaw? op.container.kind = none := (sound_iff.1 h).2.2.2.2.2.2

end Sound

/-! ## Suffixes -/

theorem suffix_of_le {counter : Nat} (h : counter ≤ op.id.counter) : op.suffix counter = op := by
  rw [suffix, if_pos (by omega)]

theorem length_eq_one_of_not_insert (h : ∀ anchor content, op.action ≠ .insert anchor content) :
    op.length = 1 := by
  unfold length Action.length
  split
  · next anchor content heq => exact absurd heq (h anchor content)
  · rfl

/-- A proper suffix is one of an insertion. -/
theorem suffix_eq {counter : Nat} (hfirst : op.id.counter < counter) (hstop : counter < op.stop) :
    ∃ anchor content, op.action = .insert anchor content ∧
      op.suffix counter =
        { op with
          id := ⟨op.id.peer, counter⟩
          lamport := op.lamport + (counter - op.id.counter)
          action := .insert (some ⟨op.id.peer, counter - 1⟩)
            (content.drop (counter - op.id.counter)) } := by
  have hinsert : ∃ anchor content, op.action = .insert anchor content := by
    apply Classical.byContradiction
    intro hnone
    have : op.length = 1 := length_eq_one_of_not_insert fun anchor content heq =>
      hnone ⟨anchor, content, heq⟩
    rw [stop] at hstop
    omega
  obtain ⟨anchor, content, haction⟩ := hinsert
  refine ⟨anchor, content, haction, ?_⟩
  rw [suffix, if_neg (by omega), haction]
  have hid : op.id.forward (counter - op.id.counter) = ⟨op.id.peer, counter⟩ := by
    rw [AtomId.forward, Nat.add_sub_cancel' (Nat.le_of_lt hfirst)]
  have hprevious : op.id.forward (counter - op.id.counter - 1) = ⟨op.id.peer, counter - 1⟩ := by
    rw [AtomId.forward, AtomId.mk.injEq]
    omega
  simp only [hid, hprevious]

theorem length_drop (content : Inserted) (n : Nat) : (content.drop n).length = content.length - n := by
  cases content <;> simp [Inserted.drop, Inserted.length]

section Suffix

variable {counter : Nat}

@[simp] theorem suffix_deps : (op.suffix counter).deps = op.deps := by
  unfold suffix
  dsimp only
  split <;> rfl

@[simp] theorem suffix_container : (op.suffix counter).container = op.container := by
  unfold suffix
  dsimp only
  split <;> rfl

@[simp] theorem suffix_timestamp : (op.suffix counter).timestamp = op.timestamp := by
  unfold suffix
  dsimp only
  split <;> rfl

theorem suffix_id : (op.suffix counter).id = ⟨op.id.peer, max counter op.id.counter⟩ := by
  unfold suffix
  dsimp only
  split
  · ext
    · rfl
    · show op.id.counter = max counter op.id.counter
      omega
  · ext
    · rfl
    · show op.id.counter + (counter - op.id.counter) = max counter op.id.counter
      omega

theorem suffix_lamport :
    (op.suffix counter).lamport = op.lamport + (counter - op.id.counter) := by
  unfold suffix
  dsimp only
  split
  · omega
  · rfl

theorem suffix_length (h : counter < op.stop) :
    (op.suffix counter).length = op.length - (counter - op.id.counter) := by
  by_cases hfirst : op.id.counter < counter
  · obtain ⟨anchor, content, haction, heq⟩ := suffix_eq hfirst h
    rw [heq, length, Action.length, length_drop, length, haction, Action.length]
  · rw [suffix_of_le (by omega)]
    omega

theorem suffix_stop (h : counter < op.stop) : (op.suffix counter).stop = op.stop := by
  rw [stop, suffix_length h, suffix_id, stop]
  rw [stop] at h
  dsimp only
  omega

theorem covers_suffix (h : counter < op.stop) {a : AtomId} :
    (op.suffix counter).covers a = true ↔ op.covers a = true ∧ counter ≤ a.counter := by
  rw [covers_iff, covers_iff, suffix_stop h, suffix_id]
  dsimp only
  omega

/-- What is cut off a sound operation leaves a sound one. -/
theorem Sound.suffix (h : op.Sound) (hstop : counter < op.stop) : (op.suffix counter).Sound := by
  by_cases hfirst : op.id.counter < counter
  · have hlength := suffix_length hstop
    have hend := suffix_stop hstop
    rw [sound_iff, hlength, hend, suffix_deps, suffix_container, suffix_lamport, suffix_id]
    obtain ⟨anchor, content, haction, heq⟩ := suffix_eq hfirst hstop
    have hlong := h.length_lt
    have hlamport := h.lamport_lt
    have hlimit := h.stop_lt
    have hplain := h.plain
    have hfits := h.fits
    rw [stop] at hstop
    refine ⟨by omega, by omega, hlimit, by omega, fun d hd hpeer => ?_, ?_, ?_⟩
    · have := h.dep_lt hd hpeer
      dsimp only
      omega
    · rw [heq]
      rw [haction] at hplain
      cases content with
      | values vs =>
        apply Value.itemsHoldContainer_eq_false.2
        exact fun v hv => Value.itemsHoldContainer_eq_false.1 hplain v (List.mem_of_mem_drop hv)
      | text s => rfl
    · rw [heq]
      rw [haction] at hfits
      generalize op.container.kind = kind at hfits ⊢
      cases content <;> cases kind <;> exact hfits
  · rwa [suffix_of_le (by omega)]

end Suffix

end CausalDoc.Operation
