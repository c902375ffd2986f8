/- Finite sets kept in ascending order.

   A set is the list of its members together with the proof that it ascends
   strictly: sets with the same members are equal (`ext`), and what is listed
   from a set is sorted and free of duplicates. -/

namespace CausalDoc

universe u

/-- A finite set, its members in ascending order. -/
structure OrderedSet (κ : Type u) [Ord κ] where
  /-- The members. -/
  toList : List κ
  /-- The members ascend strictly. -/
  ascending : toList.Pairwise fun a b => compare a b = .lt

namespace OrderedSet

variable {κ : Type u} [Ord κ]

instance [DecidableEq κ] : DecidableEq (OrderedSet κ) := fun a b =>
  decidable_of_iff (a.toList = b.toList)
    ⟨fun h => by cases a; cases b; cases h; rfl, fun h => h ▸ rfl⟩

instance [Repr κ] : Repr (OrderedSet κ) := ⟨fun s n => reprPrec s.toList n⟩

def empty : OrderedSet κ := ⟨[], List.Pairwise.nil⟩

instance : Inhabited (OrderedSet κ) := ⟨empty⟩

instance : Membership κ (OrderedSet κ) := ⟨fun s k => k ∈ s.toList⟩

instance [DecidableEq κ] (k : κ) (s : OrderedSet κ) : Decidable (k ∈ s) :=
  inferInstanceAs (Decidable (k ∈ s.toList))

@[simp] theorem mem_toList {s : OrderedSet κ} {k : κ} : k ∈ s.toList ↔ k ∈ s := Iff.rfl

@[simp] theorem not_mem_empty (k : κ) : ¬ k ∈ (empty : OrderedSet κ) := List.not_mem_nil

def size (s : OrderedSet κ) : Nat := s.toList.length

def isEmpty (s : OrderedSet κ) : Bool := s.toList.isEmpty

def filter (s : OrderedSet κ) (p : κ → Bool) : OrderedSet κ :=
  ⟨s.toList.filter p, s.ascending.filter _⟩

@[simp] theorem mem_filter {s : OrderedSet κ} {p : κ → Bool} {k : κ} :
    k ∈ s.filter p ↔ k ∈ s ∧ p k = true :=
  List.mem_filter

/-- Puts `k` at its place in an ascending list, unless it is there already. -/
def insertAscending (k : κ) : List κ → List κ
  | [] => [k]
  | k' :: rest =>
    match compare k k' with
    | .lt => k :: k' :: rest
    | .eq => k' :: rest
    | .gt => k' :: insertAscending k rest

theorem mem_insertAscending [Std.LawfulEqOrd κ] {k x : κ} :
    ∀ {ks : List κ}, x ∈ insertAscending k ks ↔ x = k ∨ x ∈ ks
  | [] => by simp [insertAscending]
  | k' :: rest => by
    unfold insertAscending
    split
    · exact List.mem_cons
    · rename_i heq
      cases Std.LawfulEqOrd.eq_of_compare heq
      simp
    · rw [List.mem_cons, mem_insertAscending, List.mem_cons, or_left_comm]

variable [Std.TransOrd κ] [Std.LawfulEqOrd κ]

theorem pairwise_insertAscending {k : κ} :
    ∀ {ks : List κ}, ks.Pairwise (fun a b => compare a b = .lt) →
      (insertAscending k ks).Pairwise fun a b => compare a b = .lt
  | [], _ => List.pairwise_singleton _ _
  | k' :: rest, h => by
    obtain ⟨hhead, htail⟩ := List.pairwise_cons.1 h
    unfold insertAscending
    split
    · rename_i hlt
      refine List.pairwise_cons.2 ⟨fun x hx => ?_, h⟩
      rcases List.mem_cons.1 hx with rfl | hx
      · exact hlt
      · exact Std.TransCmp.lt_trans hlt (hhead x hx)
    · exact h
    · rename_i hgt
      refine List.pairwise_cons.2 ⟨fun x hx => ?_, pairwise_insertAscending htail⟩
      rcases mem_insertAscending.1 hx with rfl | hx
      · exact Std.OrientedCmp.gt_iff_lt.1 hgt
      · exact hhead x hx

def insert (s : OrderedSet κ) (k : κ) : OrderedSet κ :=
  ⟨insertAscending k s.toList, pairwise_insertAscending s.ascending⟩

def ofList (ks : List κ) : OrderedSet κ := ks.foldl insert empty

@[simp] theorem mem_insert {s : OrderedSet κ} {k x : κ} : x ∈ s.insert k ↔ x = k ∨ x ∈ s :=
  mem_insertAscending

@[simp] theorem mem_ofList {ks : List κ} {x : κ} : x ∈ ofList ks ↔ x ∈ ks := by
  suffices ∀ s : OrderedSet κ, x ∈ ks.foldl insert s ↔ x ∈ s ∨ x ∈ ks by
    simpa [ofList] using this empty
  induction ks with
  | nil => simp
  | cons k ks ih =>
    intro s
    rw [List.foldl_cons, ih, mem_insert, List.mem_cons]
    grind

theorem ext {s t : OrderedSet κ} (h : ∀ k, k ∈ s ↔ k ∈ t) : s = t := by
  have irrefl : ∀ a : κ, compare a a ≠ .lt := fun a => by simp [Std.ReflOrd.compare_self]
  have asymm : ∀ a b : κ, compare a b = .lt → compare b a ≠ .lt := fun a b hab hba =>
    irrefl a (Std.TransCmp.lt_trans hab hba)
  obtain ⟨ks, hk⟩ := s
  obtain ⟨ls, hl⟩ := t
  have nodup : ∀ {xs : List κ}, xs.Pairwise (fun a b => compare a b = .lt) → xs.Nodup :=
    fun hs => hs.imp fun {a b} hab => by rintro rfl; exact irrefl a hab
  have hp : ks.Perm ls := (List.perm_ext_iff_of_nodup (nodup hk) (nodup hl)).2 h
  cases hp.eq_of_pairwise (fun a b _ _ hab hba => (asymm a b hab hba).elim) hk hl
  rfl

end OrderedSet

end CausalDoc
