import CausalDoc.Proofs.Sequence.Walk
import Mathlib.Logic.Relation

/- Subtrees in the depth-first walk.

   An element and all that stands below it make one stretch of the walk, which starts with
   the element (`Walk.stretch`). So what the walk passes between two elements of a subtree
   is in this subtree too (`Walk.between`), and the walk passes a chain of elements, each a
   child of the one before it, in the order of the chain (`Walk.chain`). -/

namespace CausalDoc.Sequence

/-- `x` is `root`, or stands below it in the tree. -/
def Below (children : Option AtomId → List AtomId) : AtomId → AtomId → Prop :=
  Relation.ReflTransGen fun p x => x ∈ children (some p)

theorem mem_of_between {α : Type} {front stretch back : List α} {x e y : α}
    (hnodup : (front ++ (stretch ++ back)).Nodup) (hx : x ∈ stretch) (hy : y ∈ stretch)
    (h : [x, e, y].Sublist (front ++ (stretch ++ back))) : e ∈ stretch := by
  obtain ⟨-, hrest, hfront⟩ := List.nodup_append.1 hnodup
  obtain ⟨-, -, hback⟩ := List.nodup_append.1 hrest
  -- nothing of it comes from the front, for it starts with `x`
  obtain ⟨before, behind, hsplit, hbefore, hbehind⟩ := List.sublist_append_iff.1 h
  rcases List.cons_eq_append_iff.1 hsplit with ⟨rfl, rfl⟩ | ⟨tail, rfl, -⟩
  · -- and `e` is not from the back, for `y` comes after it
    obtain ⟨inner, outer, hsplit', hinner, houter⟩ := List.sublist_append_iff.1 hbehind
    have hnone : y ∉ outer := fun hin => hback y hy y (houter.subset hin) rfl
    rcases List.append_eq_cons_iff.1 hsplit'.symm with ⟨rfl, rfl⟩ | ⟨inner', rfl, hsplit''⟩
    · exact absurd (by simp) hnone
    · rcases List.cons_eq_append_iff.1 hsplit'' with ⟨rfl, rfl⟩ | ⟨inner'', rfl, -⟩
      · exact absurd (by simp) hnone
      · exact hinner.subset (by simp)
  · exact absurd rfl (hfront x (hbefore.subset List.mem_cons_self) x (List.mem_append_left _ hx))

namespace Walk

variable {children : Option AtomId → List AtomId} {siblings order : List AtomId} {root x e y : AtomId}

/-- A walk passes nothing but the siblings and what stands below them. -/
theorem exists_below (h : Walk children siblings order) (he : e ∈ order) :
    ∃ p ∈ siblings, Below children p e := by
  induction h with
  | nil => exact absurd he List.not_mem_nil
  | @cons first siblings below rest _ _ ihBelow ihRest =>
    rcases List.mem_cons.1 he with rfl | he
    · exact ⟨e, List.mem_cons_self, .refl⟩
    · rcases List.mem_append.1 he with he | he
      · obtain ⟨p, hp, hbelow⟩ := ihBelow he
        exact ⟨first, List.mem_cons_self, .head hp hbelow⟩
      · obtain ⟨p, hp, hbelow⟩ := ihRest he
        exact ⟨p, List.mem_cons_of_mem _ hp, hbelow⟩

/-- With an element a walk passes all that stands below it. -/
theorem mem_of_below (h : Walk children siblings order) (hroot : root ∈ order)
    (hbelow : Below children root e) : e ∈ order := by
  induction hbelow with
  | refl => exact hroot
  | tail _ hchild ih => exact h.mem_of_child ih hchild

/-- An element is followed by the walk below it. -/
theorem split (h : Walk children siblings order) (hroot : root ∈ order) :
    ∃ front below back, order = front ++ (root :: below ++ back) ∧
      Walk children (children (some root)) below := by
  induction h with
  | nil => exact absurd hroot List.not_mem_nil
  | @cons first siblings below rest hBelow _ ihBelow ihRest =>
    rcases List.mem_cons.1 hroot with rfl | hroot
    · exact ⟨[], below, rest, rfl, hBelow⟩
    · rcases List.mem_append.1 hroot with hroot | hroot
      · obtain ⟨front, inner, back, rfl, hinner⟩ := ihBelow hroot
        exact ⟨first :: front, inner, back ++ rest, by simp, hinner⟩
      · obtain ⟨front, inner, back, rfl, hinner⟩ := ihRest hroot
        exact ⟨first :: (below ++ front), inner, back, by simp, hinner⟩

/-- An element and all that stands below it make one stretch. -/
theorem stretch (h : Walk children siblings order) (hroot : root ∈ order) :
    ∃ front stretch back, order = front ++ (stretch ++ back) ∧
      ∀ e, e ∈ stretch ↔ Below children root e := by
  obtain ⟨front, below, back, rfl, hwalk⟩ := h.split hroot
  refine ⟨front, root :: below, back, rfl, fun e => ⟨fun he => ?_, fun hbelow => ?_⟩⟩
  · rcases List.mem_cons.1 he with rfl | he
    · exact .refl
    · obtain ⟨p, hp, hbelow⟩ := hwalk.exists_below he
      exact .head hp hbelow
  · rcases Relation.ReflTransGen.cases_head hbelow with rfl | ⟨p, hp, hbelow⟩
    · exact List.mem_cons_self
    · exact List.mem_cons_of_mem _ (hwalk.mem_of_below (hwalk.mem_of_mem hp) hbelow)

/-- What a walk passes between two elements of a subtree is in the subtree. -/
theorem between (h : Walk children siblings order) (hnodup : order.Nodup) (hroot : root ∈ order)
    (hx : Below children root x) (hy : Below children root y)
    (hbetween : [x, e, y].Sublist order) : Below children root e := by
  obtain ⟨front, stretch, back, rfl, hstretch⟩ := h.stretch hroot
  rw [← hstretch] at hx hy ⊢
  exact mem_of_between hnodup hx hy hbetween

theorem chain : ∀ (n : Nat) {atom : Nat → AtomId} {siblings order : List AtomId},
    Walk children siblings order → atom 0 ∈ order →
    (∀ k, k + 1 < n → atom (k + 1) ∈ children (some (atom k))) →
    ((List.range n).map atom).Sublist order
  | 0, _, _, _, _, _, _ => List.nil_sublist _
  | 1, _, _, _, _, hfirst, _ => List.singleton_sublist.2 hfirst
  | n + 2, atom, _, _, h, hfirst, hchild => by
    obtain ⟨front, below, back, rfl, hwalk⟩ := h.split hfirst
    have hsecond := hwalk.mem_of_mem (hchild 0 (by omega))
    have hrest : ((List.range (n + 1)).map fun k => atom (k + 1)).Sublist below :=
      chain (n + 1) hwalk hsecond fun k hk => hchild (k + 1) (by omega)
    have hsplit : (List.range (n + 2)).map atom =
        atom 0 :: (List.range (n + 1)).map fun k => atom (k + 1) := by
      rw [List.range_succ_eq_map, List.map_cons, List.map_map]
      rfl
    rw [hsplit]
    exact ((hrest.cons_cons _).trans (List.sublist_append_left _ _)).trans
      (List.sublist_append_right _ _)

end Walk

end CausalDoc.Sequence
