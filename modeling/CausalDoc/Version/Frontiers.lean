import CausalDoc.Atom
import CausalDoc.Ordered.Set
import CausalDoc.Ordered.Sort

/- Frontiers: the last atoms of the operations that no known operation depends on.

   A new local operation lists the frontiers as its dependencies. They are a plain list,
   and one that is given may stand in any order and repeat atoms. Whatever is made here is
   sorted (`sorted_ofList`, `sorted_advance`), and what starts without repetitions stays so
   (`ascending_advance`): then equal histories have equal frontiers (`ext_of_ascending`). -/

namespace CausalDoc

/-- The newest atoms of a history. -/
structure Frontiers where
  /-- The atoms. -/
  ids : List AtomId
  deriving DecidableEq, Repr, Inhabited

namespace Frontiers

def empty : Frontiers := ⟨[]⟩

/-- The frontiers with the listed atoms, sorted by counter and peer and without repetitions. -/
def ofList (ids : List AtomId) : Frontiers := ⟨(OrderedSet.ofList ids).toList⟩

def toList (f : Frontiers) : List AtomId := f.ids

/-- The frontiers after an operation that lists `deps` and ends with the atom `last`. It also
depends on its predecessor of the same peer, so that peer's old entry goes with the listed ones. -/
def advance (f : Frontiers) (deps : List AtomId) (last : AtomId) : Frontiers :=
  let kept := f.ids.filter fun id => id.peer != last.peer && !deps.contains id
  ⟨sortByKey id (kept ++ [last])⟩

def contains (f : Frontiers) (id : AtomId) : Bool := f.ids.contains id

def size (f : Frontiers) : Nat := f.ids.length

def isEmpty (f : Frontiers) : Bool := f.ids.isEmpty

variable {f g : Frontiers} {deps : List AtomId} {last id : AtomId}

theorem mem_ofList {ids : List AtomId} : id ∈ (ofList ids).ids ↔ id ∈ ids := OrderedSet.mem_ofList

theorem mem_advance : id ∈ (f.advance deps last).ids ↔
    id = last ∨ id ∈ f.ids ∧ id.peer ≠ last.peer ∧ id ∉ deps := by
  rw [advance, (sortByKey_perm _ _).mem_iff, List.mem_append, List.mem_filter,
    List.mem_singleton, or_comm]
  simp

theorem toList_advance_toList (f : Frontiers) (last : AtomId) :
    (f.advance f.toList last).toList = [last] := by
  have hgone : (f.ids.filter fun id => id.peer != last.peer && !f.toList.contains id) = [] := by
    refine List.filter_eq_nil_iff.2 fun id hid => ?_
    rw [show f.toList.contains id = true from List.contains_iff_mem.2 hid]
    simp
  rw [advance, hgone]
  rfl

/-! ## Order -/

/-- The atoms stand in the order of counter and peer. -/
def Sorted (f : Frontiers) : Prop := f.ids.Pairwise fun a b => (compare a b).isLE

/-- They do so strictly. -/
def Ascending (f : Frontiers) : Prop := f.ids.Pairwise fun a b => compare a b = .lt

instance (f : Frontiers) : Decidable f.Sorted := inferInstanceAs (Decidable (List.Pairwise _ _))

theorem Ascending.sorted (h : f.Ascending) : f.Sorted :=
  h.imp fun hlt => by rw [hlt]; rfl

theorem ascending_empty : empty.Ascending := List.Pairwise.nil

theorem ascending_ofList (ids : List AtomId) : (ofList ids).Ascending :=
  (OrderedSet.ofList ids).ascending

theorem sorted_ofList (ids : List AtomId) : (ofList ids).Sorted := (ascending_ofList ids).sorted

theorem sorted_advance (f : Frontiers) (deps : List AtomId) (last : AtomId) :
    (f.advance deps last).Sorted :=
  pairwise_sortByKey id _

/-- The new atom is not there yet: the old ones of its peer are gone. -/
theorem ascending_advance (h : f.Ascending) (deps : List AtomId) (last : AtomId) :
    (f.advance deps last).Ascending := by
  have hnodup : f.ids.Nodup := h.imp fun {a b} hlt heq => by
    rw [heq, Std.ReflOrd.compare_self] at hlt
    cases hlt
  refine ascending_sortByKey (List.nodup_append.2 ⟨hnodup.filter _, List.pairwise_singleton _ _, ?_⟩)
  rintro a ha b hb rfl
  rw [List.mem_singleton.1 hb] at ha
  simp at ha

theorem ext_of_ascending (hf : f.Ascending) (hg : g.Ascending)
    (h : ∀ id, id ∈ f.ids ↔ id ∈ g.ids) : f = g := by
  have hsame : (⟨f.ids, hf⟩ : OrderedSet AtomId) = ⟨g.ids, hg⟩ := OrderedSet.ext h
  cases f
  cases g
  exact congrArg _ (congrArg OrderedSet.toList hsame)

end Frontiers

end CausalDoc
