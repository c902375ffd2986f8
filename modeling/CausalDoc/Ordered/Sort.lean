/- Sorting by a key.

   The sort is stable: elements with equal keys keep their order. -/

namespace CausalDoc

universe u v

variable {α : Type u} {κ : Type v} [Ord κ]

/-- Puts `x` before the first element whose key is not smaller. -/
def insertByKey (key : α → κ) (x : α) : List α → List α
  | [] => [x]
  | y :: ys =>
    if (compare (key x) (key y)).isLE then x :: y :: ys else y :: insertByKey key x ys

/-- The elements in ascending order of their keys. -/
def sortByKey (key : α → κ) (xs : List α) : List α := xs.foldr (insertByKey key) []

theorem insertByKey_perm (key : α → κ) (x : α) :
    ∀ xs : List α, (insertByKey key x xs).Perm (x :: xs)
  | [] => List.Perm.refl _
  | y :: ys => by
    unfold insertByKey
    split
    · exact List.Perm.refl _
    · exact ((insertByKey_perm key x ys).cons y).trans (List.Perm.swap x y ys)

/-- Sorting only rearranges. -/
theorem sortByKey_perm (key : α → κ) : ∀ xs : List α, (sortByKey key xs).Perm xs
  | [] => List.Perm.refl _
  | x :: xs => (insertByKey_perm key x _).trans ((sortByKey_perm key xs).cons x)

variable [Std.TransOrd κ]

theorem pairwise_insertByKey (key : α → κ) (x : α) :
    ∀ {xs : List α}, xs.Pairwise (fun a b => (compare (key a) (key b)).isLE) →
      (insertByKey key x xs).Pairwise fun a b => (compare (key a) (key b)).isLE
  | [], _ => List.pairwise_singleton _ _
  | y :: ys, h => by
    obtain ⟨hhead, htail⟩ := List.pairwise_cons.1 h
    unfold insertByKey
    split
    · rename_i hle
      refine List.pairwise_cons.2 ⟨fun z hz => ?_, h⟩
      rcases List.mem_cons.1 hz with rfl | hz
      · exact hle
      · exact Std.TransCmp.isLE_trans hle (hhead z hz)
    · rename_i hgt
      refine List.pairwise_cons.2 ⟨fun z hz => ?_, pairwise_insertByKey key x htail⟩
      rcases List.mem_cons.1 ((insertByKey_perm key x ys).mem_iff.1 hz) with rfl | hz
      · have hswap : compare (key z) (key y) = (compare (key y) (key z)).swap :=
          Std.OrientedCmp.eq_swap
        rw [hswap] at hgt
        revert hgt
        cases compare (key y) (key z) <;> simp
      · exact hhead z hz

/-- What is sorted ascends. -/
theorem pairwise_sortByKey (key : α → κ) :
    ∀ xs : List α, (sortByKey key xs).Pairwise fun a b => (compare (key a) (key b)).isLE
  | [] => List.Pairwise.nil
  | x :: xs => pairwise_insertByKey key x (pairwise_sortByKey key xs)

/-- It ascends strictly when no element is there twice. -/
theorem ascending_sortByKey [Std.LawfulEqOrd κ] {xs : List κ} (h : xs.Nodup) :
    (sortByKey id xs).Pairwise fun a b => compare a b = .lt := by
  have hnodup := (sortByKey_perm id xs).nodup_iff.2 h
  refine (pairwise_sortByKey id xs).imp₂ (fun {a b} hle hne => ?_) hnodup
  cases hcompare : compare a b with
  | lt => rfl
  | eq => exact absurd (Std.LawfulEqOrd.eq_of_compare hcompare) hne
  | gt =>
    rw [id, id, hcompare] at hle
    cases hle

end CausalDoc
