import CausalDoc.Proofs.Checked.Operation
import CausalDoc.Proofs.Log.Closure
import CausalDoc.Proofs.Log.Delta
import Mathlib.Data.Set.Card
import Mathlib.Order.CompletePartialOrder

/- Version vectors as sets of atoms.

   A vector stands for the atoms that it covers. This set is finite and has, with an atom, all
   earlier ones of the same peer, and every such set is the set of one vector. Growing a vector
   by atoms adds these and what is below them (`includes_foldl_extend`); joining two vectors is
   growing one by the entries of the other, so it is the union, and the laws of a join are those
   of the union. What two vectors lack of each other comes as one span for each peer
   (`lists_subtract`), and growing one by the last atoms of its spans gives the join. -/

namespace CausalDoc

/-- With an atom the earlier ones of its peer. -/
def DownClosed (s : Set AtomId) : Prop :=
  ∀ a ∈ s, ∀ b : AtomId, b.peer = a.peer → b.counter ≤ a.counter → b ∈ s

def Span.atoms (span : Span) : Set AtomId :=
  {a | a.peer = span.peer ∧ span.first ≤ a.counter ∧ a.counter < span.stop}

/-- The spans have the atoms of a set: at least one each, no two of them the same, and one peer
after the other. -/
structure Span.Lists (spans : List Span) (s : Set AtomId) : Prop where
  ascending : spans.Pairwise fun x y => x.peer < y.peer
  nonempty : ∀ x ∈ spans, x.isEmpty = false
  disjoint : spans.Pairwise fun x y => Disjoint x.atoms y.atoms
  atoms : ∀ a, a ∈ s ↔ ∃ x ∈ spans, a ∈ x.atoms

namespace VersionVector

def atoms (v : VersionVector) : Set AtomId := {a | v.includes a = true}

/-- Grows by a span, that is up to its last atom. -/
def cover (v : VersionVector) (span : Span) : VersionVector := v.extend ⟨span.peer, span.stop - 1⟩

variable {u v w : VersionVector} {a id : AtomId}

theorem mem_atoms_iff : a ∈ v.atoms ↔ a.counter < v.nextCounter a.peer := includes_iff

theorem mem_atoms_iff_entry :
    a ∈ v.atoms ↔ ∃ e ∈ v.last.entries, a.peer = e.1 ∧ a.counter ≤ e.2 := by
  have hentry : ∀ {e : Nat × Nat}, e ∈ v.last.entries ↔ v.nextCounter e.1 = e.2 + 1 := by
    intro e
    rw [← get?_eq_some_iff, get?, OrderedMap.get?_eq_some_iff]
  rw [mem_atoms_iff]
  refine ⟨fun hlt => ?_, ?_⟩
  · refine ⟨(a.peer, v.nextCounter a.peer - 1), hentry.2 ?_, rfl, ?_⟩ <;> dsimp only <;> omega
  · rintro ⟨e, he, hpeer, hle⟩
    rw [hpeer, hentry.1 he]
    omega

theorem downClosed_atoms (v : VersionVector) : DownClosed v.atoms :=
  fun _ ha _ hpeer hle => includes_of_le ha hpeer hle

theorem eq_iff_atoms : v = w ↔ v.atoms = w.atoms := by
  refine ⟨fun h => h ▸ rfl, fun h => ext_includes fun a => ?_⟩
  exact Set.ext_iff.1 h a

theorem includesAll_iff_subset : v.includesAll w = true ↔ w.atoms ⊆ v.atoms := includesAll_iff

/-! ## Growing -/

theorem includes_foldl_extend (ids : List AtomId) (v : VersionVector) :
    (ids.foldl extend v).includes a = true ↔
      v.includes a = true ∨ ∃ id ∈ ids, a.peer = id.peer ∧ a.counter ≤ id.counter := by
  induction ids generalizing v with
  | nil => simp
  | cons id ids ih =>
    rw [List.foldl_cons, ih, Log.includes_extend, List.exists_mem_cons_iff, or_assoc]

theorem atoms_extend (v : VersionVector) (id : AtomId) :
    (v.extend id).atoms = v.atoms ∪ {a | a.peer = id.peer ∧ a.counter ≤ id.counter} :=
  Set.ext fun _ => Log.includes_extend

/-- Every finite set that is closed downwards is the set of the vector that grows by its atoms. -/
theorem exists_atoms_eq {s : Set AtomId} (hfinite : s.Finite) (hdown : DownClosed s) :
    ∃ v : VersionVector, v.atoms = s := by
  refine ⟨ofAtoms hfinite.toFinset.toList, Set.ext fun a => ?_⟩
  have hnone : ¬ empty.includes a = true := by
    rw [includes_iff]
    exact Nat.not_lt_zero _
  refine (includes_foldl_extend _ _).trans ?_
  rw [or_iff_right hnone]
  simp only [Finset.mem_toList, Set.Finite.mem_toFinset]
  refine ⟨?_, fun ha => ⟨a, ha, rfl, Nat.le_refl _⟩⟩
  rintro ⟨id, hid, hpeer, hle⟩
  exact hdown id hid a hpeer hle

/-! ## Joining -/

theorem atoms_merge (v w : VersionVector) : (v.merge w).atoms = v.atoms ∪ w.atoms := by
  have hfold : v.merge w = (w.last.entries.map fun e => (⟨e.1, e.2⟩ : AtomId)).foldl extend v := by
    rw [List.foldl_map]
    rfl
  refine Set.ext fun a => ?_
  rw [hfold, Set.mem_union, mem_atoms_iff_entry (v := w)]
  refine (includes_foldl_extend _ _).trans (or_congr_right ?_)
  simp only [List.mem_map, exists_exists_and_eq_and]

theorem merge_comm (v w : VersionVector) : v.merge w = w.merge v := by
  rw [eq_iff_atoms, atoms_merge, atoms_merge, Set.union_comm]

theorem merge_assoc (u v w : VersionVector) : (u.merge v).merge w = u.merge (v.merge w) := by
  simp only [eq_iff_atoms, atoms_merge, Set.union_assoc]

theorem merge_self (v : VersionVector) : v.merge v = v := by
  rw [eq_iff_atoms, atoms_merge, Set.union_self]

theorem includesAll_merge :
    u.includesAll (v.merge w) = true ↔ u.includesAll v = true ∧ u.includesAll w = true := by
  simp only [includesAll_iff_subset, atoms_merge, Set.union_subset_iff]

/-! ## Comparing -/

/-- The causal order is the order of the sets. -/
theorem order?_iff (v w : VersionVector) :
    (v.order? w = some .eq ↔ v = w) ∧
      (v.order? w = some .lt ↔ v.atoms ⊂ w.atoms) ∧
      (v.order? w = some .gt ↔ w.atoms ⊂ v.atoms) ∧
      (v.order? w = none ↔ ¬ v.atoms ⊆ w.atoms ∧ ¬ w.atoms ⊆ v.atoms) := by
  simp only [eq_iff_atoms, ssubset_iff_subset_not_subset, subset_antisymm_iff,
    ← includesAll_iff_subset, Bool.not_eq_true]
  unfold order?
  cases v.includesAll w <;> cases w.includesAll v <;> simp

/-! ## Counting -/

theorem encard_below (peer c : Nat) :
    {a : AtomId | a.peer = peer ∧ a.counter ≤ c}.encard = (c + 1 : Nat) := by
  have himage : {a : AtomId | a.peer = peer ∧ a.counter ≤ c} =
      AtomId.mk peer '' ((Finset.range (c + 1) : Finset Nat) : Set Nat) := by
    ext a
    simp only [Set.mem_ofPred_eq, Set.mem_image, Finset.coe_range, Set.mem_Iio, Nat.lt_succ_iff]
    refine ⟨fun h => ⟨a.counter, h.2, AtomId.ext h.1.symm rfl⟩, ?_⟩
    rintro ⟨n, hn, rfl⟩
    exact ⟨rfl, hn⟩
  have hinj : Function.Injective (AtomId.mk peer) := fun _ _ h => (AtomId.mk.inj h).2
  rw [himage, hinj.encard_image, Set.encard_coe_eq_coe_finsetCard, Finset.card_range]

/-- There are as many atoms as the count says, and so finitely many. -/
theorem encard_atoms (v : VersionVector) : v.atoms.encard = v.atomCount := by
  have hatoms : v.atoms =
      {a | ∃ e ∈ v.last.entries, a.peer = e.1 ∧ a.counter ≤ e.2} :=
    Set.ext fun _ => mem_atoms_iff_entry
  -- the entries are of different peers, so nothing is counted twice
  have hkeys : v.last.entries.Pairwise fun e f => e.1 ≠ f.1 :=
    List.pairwise_map.1 (OrderedMap.nodup_keys v.last)
  rw [hatoms, atomCount]
  generalize v.last.entries = entries at hkeys
  clear hatoms
  induction entries with
  | nil => simp
  | cons e es ih =>
    obtain ⟨hapart, hrest⟩ := List.pairwise_cons.1 hkeys
    have hsplit : {a : AtomId | ∃ f ∈ e :: es, a.peer = f.1 ∧ a.counter ≤ f.2} =
        {a | a.peer = e.1 ∧ a.counter ≤ e.2} ∪
          {a | ∃ f ∈ es, a.peer = f.1 ∧ a.counter ≤ f.2} := by
      ext a
      simp
    have hdisjoint : Disjoint {a : AtomId | a.peer = e.1 ∧ a.counter ≤ e.2}
        {a | ∃ f ∈ es, a.peer = f.1 ∧ a.counter ≤ f.2} := by
      rw [Set.disjoint_left]
      rintro a ⟨hpeer, -⟩ ⟨f, hf, hpeer', -⟩
      exact hapart f hf (hpeer.symm.trans hpeer')
    rw [hsplit, Set.encard_union_eq hdisjoint, encard_below, ih hrest, List.foldr_cons,
      Nat.cast_add (e.2 + 1)]

/-- With at most 2 ^ 32 peers the count has 64 bits. -/
theorem atomCount_lt (hlast : ∀ e ∈ v.last.entries, e.2 < 0xFFFFFFFF)
    (hsize : v.size ≤ 0x100000000) :
    v.atomCount < 0x10000000000000000 := by
  have hle : v.atomCount ≤ v.size * 0xFFFFFFFF := by
    unfold atomCount size OrderedMap.size
    generalize v.last.entries = entries at hlast
    clear hsize
    induction entries with
    | nil => exact Nat.zero_le _
    | cons e es ih =>
      have := ih fun f hf => hlast f (List.mem_cons_of_mem _ hf)
      have := hlast e List.mem_cons_self
      rw [List.foldr_cons, List.length_cons]
      omega
  omega

/-! ## Subtracting -/

theorem ascending_subtract (v w : VersionVector) :
    (v.subtract w).Pairwise fun x y => x.peer < y.peer := by
  refine List.pairwise_filterMap.2 (v.last.ascending.imp fun {e f} hlt x hx y hy => ?_)
  rw [Option.ite_none_right_eq_some, Option.some.injEq] at hx hy
  obtain ⟨-, rfl⟩ := hx
  obtain ⟨-, rfl⟩ := hy
  exact Nat.compare_eq_lt.1 hlt

theorem lists_subtract (v w : VersionVector) : Span.Lists (v.subtract w) (v.atoms \ w.atoms) where
  ascending := ascending_subtract v w
  nonempty := by
    intro x hx
    obtain ⟨-, hlt, -⟩ := Log.mem_subtract.1 hx
    rw [Span.isEmpty, Span.length, decide_eq_false_iff_not]
    omega
  disjoint := by
    refine (ascending_subtract v w).imp fun {x y} hlt => Set.disjoint_left.2 ?_
    rintro a ⟨hpeer, -⟩ ⟨hpeer', -⟩
    omega
  atoms := by
    intro a
    rw [Set.mem_sdiff, mem_atoms_iff, mem_atoms_iff, Nat.not_lt]
    refine ⟨?_, ?_⟩
    · rintro ⟨hv, hw⟩
      refine ⟨⟨a.peer, w.nextCounter a.peer, v.nextCounter a.peer⟩, ?_, rfl, hw, hv⟩
      exact Log.mem_subtract.2 ⟨rfl, Nat.lt_of_le_of_lt hw hv, rfl⟩
    · rintro ⟨x, hx, hpeer, hfirst, hstop⟩
      obtain ⟨hnext, -, hend⟩ := Log.mem_subtract.1 hx
      rw [hpeer, hend, ← hnext]
      exact ⟨hstop, hfirst⟩

/-- Growing by what is lacking gives the join. -/
theorem foldl_cover (v w : VersionVector) : (w.subtract v).foldl cover v = v.merge w := by
  have hfold : (w.subtract v).foldl cover v =
      ((w.subtract v).map fun span => (⟨span.peer, span.stop - 1⟩ : AtomId)).foldl extend v := by
    rw [List.foldl_map]
    rfl
  rw [eq_iff_atoms, atoms_merge, hfold]
  refine Set.ext fun a => ?_
  rw [Set.mem_union]
  refine (includes_foldl_extend _ _).trans ?_
  simp only [List.mem_map, exists_exists_and_eq_and]
  refine ⟨fun h => h.imp_right ?_, fun h => ?_⟩
  · -- the last atom of a span is covered by `w`
    rintro ⟨x, hx, hpeer, hle⟩
    obtain ⟨-, hlt, hend⟩ := Log.mem_subtract.1 hx
    rw [mem_atoms_iff, hpeer, hend]
    omega
  · by_cases hv : v.includes a = true
    · exact .inl hv
    · obtain ⟨x, hx, hpeer, -, hstop⟩ := ((lists_subtract w v).atoms a).1 ⟨h.resolve_left hv, hv⟩
      exact .inr ⟨x, hx, hpeer, by omega⟩

theorem checked_subtract (hv : ∀ e ∈ v.last.entries, e.2 < 0xFFFFFFFF)
    (hw : ∀ e ∈ w.last.entries, e.2 < 0xFFFFFFFF) :
    Checked.subtract v w = .ok (v.subtract w) := by
  have hnext : ∀ {x : VersionVector}, (∀ e ∈ x.last.entries, e.2 < 0xFFFFFFFF) →
      ∀ peer, x.nextCounter peer < 0x100000000 := by
    intro x hx peer
    apply Nat.lt_of_not_le
    intro hlarge
    have hlast : x.get? peer = some (x.nextCounter peer - 1) := get?_eq_some_iff.2 (by omega)
    have := hx _ ((OrderedMap.get?_eq_some_iff _).1 hlast)
    dsimp only at this
    omega
  exact Checked.subtract_eq (hnext hv) (hnext hw)

/-- Version vectors are the lattice of the finite sets of atoms that hold, with an atom, the earlier
ones of its peer.

Every vector stands for such a set and every such set for one vector; equality, inclusion and causal
order are those of the sets; merging is the union, which makes it the join; growing up to an atom
adds it and the earlier ones of its peer; the count is that of the atoms; and what two vectors lack
of each other is listed by spans, by which one grows to the join. With entries below the last
counter of 32 bits a machine computes the spans as they are here. -/
theorem lattice_of_atoms :
    (∀ v : VersionVector, v.atoms.Finite ∧ DownClosed v.atoms) ∧
    (∀ s, s.Finite → DownClosed s → ∃ v : VersionVector, v.atoms = s) ∧
    (∀ v w : VersionVector, v = w ↔ v.atoms = w.atoms) ∧
    (∀ v w : VersionVector, v.includesAll w = true ↔ w.atoms ⊆ v.atoms) ∧
    (∀ v w : VersionVector, (v.order? w = some .eq ↔ v = w) ∧
      (v.order? w = some .lt ↔ v.atoms ⊂ w.atoms) ∧
      (v.order? w = some .gt ↔ w.atoms ⊂ v.atoms) ∧
      (v.order? w = none ↔ ¬ v.atoms ⊆ w.atoms ∧ ¬ w.atoms ⊆ v.atoms)) ∧
    (∀ v w : VersionVector, (v.merge w).atoms = v.atoms ∪ w.atoms) ∧
    (∀ u v w : VersionVector, v.merge w = w.merge v ∧
      (u.merge v).merge w = u.merge (v.merge w) ∧ v.merge v = v ∧
      (u.includesAll (v.merge w) = true ↔ u.includesAll v = true ∧ u.includesAll w = true)) ∧
    (∀ (v : VersionVector) (id : AtomId), (v.extend id).atoms =
      v.atoms ∪ {a | a.peer = id.peer ∧ a.counter ≤ id.counter}) ∧
    (∀ v : VersionVector, v.atoms.encard = v.atomCount) ∧
    (∀ v w : VersionVector, Span.Lists (v.diff w).1 (v.atoms \ w.atoms) ∧
      Span.Lists (v.diff w).2 (w.atoms \ v.atoms) ∧ (v.diff w).2.foldl cover v = v.merge w) ∧
    ∀ v w : VersionVector, (∀ e ∈ v.last.entries, e.2 < 0xFFFFFFFF) →
      (∀ e ∈ w.last.entries, e.2 < 0xFFFFFFFF) →
        Checked.subtract v w = .ok (v.diff w).1 ∧ Checked.subtract w v = .ok (v.diff w).2 ∧
          (v.size ≤ 0x100000000 → v.atomCount < 0x10000000000000000) := by
  refine ⟨fun v => ⟨Set.finite_of_encard_eq_coe v.encard_atoms, v.downClosed_atoms⟩,
    fun s => exists_atoms_eq, fun v w => eq_iff_atoms, fun v w => includesAll_iff_subset,
    order?_iff, atoms_merge, ?_, atoms_extend, encard_atoms, ?_, ?_⟩
  · exact fun u v w => ⟨merge_comm v w, merge_assoc u v w, merge_self v, includesAll_merge⟩
  · exact fun v w => ⟨lists_subtract v w, lists_subtract w v, foldl_cover v w⟩
  · exact fun v w hv hw => ⟨checked_subtract hv hw, checked_subtract hw hv, atomCount_lt hv⟩

/-- Two vectors that are behind each other. -/
theorem lattice_of_atoms_apart :
    let v := ofAtoms [⟨1, 2⟩]
    let w := ofAtoms [⟨1, 0⟩, ⟨2, 1⟩]
    v.diff w = ([⟨1, 1, 3⟩], [⟨2, 0, 2⟩]) ∧ v.order? w = none ∧
      Checked.subtract v w = .ok [⟨1, 1, 3⟩] ∧ v.atomCount < 0x10000000000000000 ∧
      ∃ u : VersionVector, u.atoms = v.atoms ∪ w.atoms := by
  intro v w
  obtain ⟨hdown, hexists, -, -, -, -, -, -, -, -, hchecked⟩ := lattice_of_atoms
  obtain ⟨hsubtract, -, hcount⟩ := hchecked v w (by decide) (by decide)
  refine ⟨by decide, by decide, hsubtract, hcount (by decide), ?_⟩
  apply hexists _ ((hdown v).1.union (hdown w).1)
  intro a ha b hpeer hle
  exact ha.imp (fun hv => (hdown v).2 a hv b hpeer hle) fun hw => (hdown w).2 a hw b hpeer hle

end VersionVector

end CausalDoc
