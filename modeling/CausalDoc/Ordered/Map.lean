/- Finite maps kept in ascending key order.

   A map is its list of entries together with the proof that the keys ascend
   strictly, so two maps that answer every look-up alike are equal (`ext`), and
   whatever is listed from a map is listed in key order. Every operation is
   described through the look-up `get?`; nobody has to unfold the list again. -/

namespace CausalDoc

universe u v

/-! ## Entry lists -/

namespace Entries

variable {κ : Type u} {ν : Type v} [Ord κ]

/-- The keys ascend strictly. -/
def Ascending (es : List (κ × ν)) : Prop :=
  es.Pairwise fun a b => compare a.1 b.1 = .lt

/-- The value stored under `k`. -/
def find? (k : κ) : List (κ × ν) → Option ν
  | [] => none
  | (k', v) :: rest => if compare k k' = .eq then some v else find? k rest

/-- Writes `v` under `k` at the key's place, over what was there. -/
def insert (k : κ) (v : ν) : List (κ × ν) → List (κ × ν)
  | [] => [(k, v)]
  | (k', v') :: rest =>
    match compare k k' with
    | .lt => (k, v) :: (k', v') :: rest
    | .eq => (k, v) :: rest
    | .gt => (k', v') :: insert k v rest

/-- Writes the pairs one after another, so that of two pairs with one key the later stays. -/
def ofList (ps : List (κ × ν)) : List (κ × ν) :=
  ps.foldl (fun es p => insert p.1 p.2 es) []

theorem Ascending.tail {e : κ × ν} {es : List (κ × ν)} (h : Ascending (e :: es)) :
    Ascending es :=
  (List.pairwise_cons.1 h).2

theorem Ascending.head_lt {e x : κ × ν} {es : List (κ × ν)} (h : Ascending (e :: es))
    (hx : x ∈ es) : compare e.1 x.1 = .lt :=
  (List.pairwise_cons.1 h).1 x hx

theorem eq_or_mem_of_mem_insert {k : κ} {v : ν} {e : κ × ν} :
    ∀ {es : List (κ × ν)}, e ∈ insert k v es → e = (k, v) ∨ e ∈ es
  | [], h => .inl (List.mem_singleton.1 h)
  | (k', v') :: rest, h => by
    unfold insert at h
    split at h
    · exact List.mem_cons.1 h
    · exact (List.mem_cons.1 h).imp_right (List.mem_cons_of_mem _)
    · rcases List.mem_cons.1 h with rfl | h
      · exact .inr List.mem_cons_self
      · exact (eq_or_mem_of_mem_insert h).imp_right (List.mem_cons_of_mem _)

@[simp] theorem find?_nil (k : κ) : find? k ([] : List (κ × ν)) = none := rfl

theorem find?_cons_self [Std.ReflOrd κ] (k : κ) (v : ν) (es : List (κ × ν)) :
    find? k ((k, v) :: es) = some v := by
  simp [find?, Std.ReflOrd.compare_self]

variable [Std.LawfulEqOrd κ]

theorem find?_cons_of_ne {k k' : κ} (h : k ≠ k') (v : ν) (es : List (κ × ν)) :
    find? k ((k', v) :: es) = find? k es := by
  have : compare k k' ≠ .eq := fun he => h (Std.LawfulEqOrd.eq_of_compare he)
  simp [find?, this]

theorem find?_eq_none_of_lt {k : κ} :
    ∀ {es : List (κ × ν)}, (∀ e ∈ es, compare k e.1 = .lt) → find? k es = none
  | [], _ => rfl
  | (k', v) :: es, h => by
    have hk : k ≠ k' := by
      rintro rfl
      have := h (k, v) List.mem_cons_self
      simp [Std.ReflOrd.compare_self] at this
    rw [find?_cons_of_ne hk]
    exact find?_eq_none_of_lt fun e he => h e (List.mem_cons_of_mem _ he)

/-- In an ordered list the look-up answers exactly the pairs of the list. -/
theorem find?_eq_some_iff {k : κ} {v : ν} :
    ∀ {es : List (κ × ν)}, Ascending es → (find? k es = some v ↔ (k, v) ∈ es)
  | [], _ => by simp
  | (k', v') :: es, h => by
    by_cases hk : k = k'
    · subst hk
      rw [find?_cons_self, Option.some.injEq, List.mem_cons, Prod.mk.injEq]
      refine ⟨fun hv => .inl ⟨rfl, hv.symm⟩, ?_⟩
      rintro (⟨-, rfl⟩ | hmem)
      · rfl
      · have := h.head_lt hmem
        simp [Std.ReflOrd.compare_self] at this
    · rw [find?_cons_of_ne hk, find?_eq_some_iff h.tail, List.mem_cons, Prod.mk.injEq]
      exact ⟨.inr, fun hm => hm.resolve_left fun he => hk he.1⟩

theorem find?_insert_self (k : κ) (v : ν) :
    ∀ es : List (κ × ν), find? k (insert k v es) = some v
  | [] => find?_cons_self k v []
  | (k', v') :: es => by
    unfold insert
    split
    · exact find?_cons_self ..
    · exact find?_cons_self ..
    · rename_i hgt
      rw [find?_cons_of_ne (by rintro rfl; simp [Std.ReflOrd.compare_self] at hgt)]
      exact find?_insert_self k v es

theorem find?_insert_of_ne {k k' : κ} (h : k' ≠ k) (v : ν) :
    ∀ es : List (κ × ν), find? k' (insert k v es) = find? k' es
  | [] => by rw [insert, find?_cons_of_ne h]
  | (k₀, v₀) :: es => by
    unfold insert
    split
    · rw [find?_cons_of_ne h]
    · rename_i heq
      cases Std.LawfulEqOrd.eq_of_compare heq
      rw [find?_cons_of_ne h, find?_cons_of_ne h]
    · by_cases hk : k' = k₀
      · subst hk
        rw [find?_cons_self, find?_cons_self]
      · rw [find?_cons_of_ne hk, find?_cons_of_ne hk, find?_insert_of_ne h v es]

variable [Std.TransOrd κ]

/-- A write keeps the order. -/
theorem Ascending.insert {k : κ} {v : ν} :
    ∀ {es : List (κ × ν)}, Ascending es → Ascending (Entries.insert k v es)
  | [], _ => List.pairwise_singleton _ _
  | (k', v') :: rest, h => by
    unfold Entries.insert
    split
    · rename_i hlt
      refine List.pairwise_cons.2 ⟨fun x hx => ?_, h⟩
      rcases List.mem_cons.1 hx with rfl | hx
      · exact hlt
      · exact Std.TransCmp.lt_trans hlt (h.head_lt hx)
    · rename_i heq
      cases Std.LawfulEqOrd.eq_of_compare heq
      exact List.pairwise_cons.2 ⟨fun x hx => h.head_lt hx, h.tail⟩
    · rename_i hgt
      refine List.pairwise_cons.2 ⟨fun x hx => ?_, h.tail.insert⟩
      rcases eq_or_mem_of_mem_insert hx with rfl | hx
      · exact Std.OrientedCmp.gt_iff_lt.1 hgt
      · exact h.head_lt hx

/-- A write adds the weight of the new pair and takes that of the old one. -/
theorem foldr_insert (weight : κ × ν → Nat) (k : κ) (v : ν) :
    ∀ {es : List (κ × ν)}, Ascending es →
      (Entries.insert k v es).foldr (fun e n => weight e + n) 0 +
          ((find? k es).elim 0 fun old => weight (k, old)) =
        es.foldr (fun e n => weight e + n) 0 + weight (k, v)
  | [], _ => by simp [Entries.insert]
  | (k', v') :: es, h => by
    unfold Entries.insert
    split
    · next hlt =>
      have hfresh : find? k ((k', v') :: es) = none := by
        apply find?_eq_none_of_lt
        intro e he
        rcases List.mem_cons.1 he with rfl | he
        · exact hlt
        · exact Std.TransCmp.lt_trans hlt (h.head_lt he)
      simp only [hfresh, Option.elim_none, List.foldr_cons]
      omega
    · next heq =>
      cases Std.LawfulEqOrd.eq_of_compare heq
      simp only [find?_cons_self, Option.elim_some, List.foldr_cons]
      omega
    · next hgt =>
      have hne : k ≠ k' := by
        rintro rfl
        simp [Std.ReflOrd.compare_self] at hgt
      have ih := foldr_insert weight k v h.tail
      simp only [find?_cons_of_ne hne, List.foldr_cons]
      omega

theorem ascending_ofList (ps : List (κ × ν)) : Ascending (ofList ps) := by
  suffices ∀ es : List (κ × ν), Ascending es →
      Ascending (ps.foldl (fun es p => insert p.1 p.2 es) es) from
    this [] List.Pairwise.nil
  induction ps with
  | nil => exact fun _ h => h
  | cons p ps ih => exact fun es h => ih _ h.insert

theorem eq_of_find?_eq :
    ∀ {es fs : List (κ × ν)}, Ascending es → Ascending fs →
      (∀ k, find? k es = find? k fs) → es = fs
  | [], [], _, _, _ => rfl
  | [], (k, v) :: fs, _, _, h => by
    have := h k
    rw [find?_cons_self] at this
    cases this
  | (k, v) :: es, [], _, _, h => by
    have := h k
    rw [find?_cons_self] at this
    cases this
  | (k, v) :: es, (k', v') :: fs, he, hf, h => by
    have hkk : k = k' := by
      -- otherwise each key would stand behind the other's head, and so above it
      apply Classical.byContradiction
      intro hne
      have h₁ : (k, v) ∈ fs := by
        have hk := h k
        rw [find?_cons_self, find?_cons_of_ne hne] at hk
        exact (find?_eq_some_iff hf.tail).1 hk.symm
      have h₂ : (k', v') ∈ es := by
        have hk := h k'
        rw [find?_cons_self, find?_cons_of_ne (Ne.symm hne)] at hk
        exact (find?_eq_some_iff he.tail).1 hk
      have h₃ := Std.TransCmp.lt_trans (he.head_lt h₂) (hf.head_lt h₁)
      simp [Std.ReflOrd.compare_self] at h₃
    subst hkk
    have hv : v = v' := by
      have hk := h k
      rwa [find?_cons_self, find?_cons_self, Option.some.injEq] at hk
    subst hv
    congr 1
    refine eq_of_find?_eq he.tail hf.tail fun x => ?_
    by_cases hx : x = k
    · subst hx
      rw [find?_eq_none_of_lt fun e => he.head_lt, find?_eq_none_of_lt fun e => hf.head_lt]
    · have hk := h x
      rwa [find?_cons_of_ne hx, find?_cons_of_ne hx] at hk

end Entries

/-! ## Maps -/

/-- A finite map from `κ` to `ν`, its entries in ascending key order. -/
structure OrderedMap (κ : Type u) (ν : Type v) [Ord κ] where
  /-- The entries. -/
  entries : List (κ × ν)
  /-- The keys ascend strictly. -/
  ascending : Entries.Ascending entries

namespace OrderedMap

variable {κ : Type u} {ν : Type v} [Ord κ]

instance [DecidableEq κ] [DecidableEq ν] : DecidableEq (OrderedMap κ ν) := fun a b =>
  decidable_of_iff (a.entries = b.entries)
    ⟨fun h => by cases a; cases b; cases h; rfl, fun h => h ▸ rfl⟩

instance [Repr κ] [Repr ν] : Repr (OrderedMap κ ν) := ⟨fun m n => reprPrec m.entries n⟩

def empty : OrderedMap κ ν := ⟨[], List.Pairwise.nil⟩

instance : Inhabited (OrderedMap κ ν) := ⟨empty⟩

/-- The value under `k`. -/
def get? (m : OrderedMap κ ν) (k : κ) : Option ν := Entries.find? k m.entries

def contains (m : OrderedMap κ ν) (k : κ) : Bool := (m.get? k).isSome

/-- The keys, ascending. -/
def keys (m : OrderedMap κ ν) : List κ := m.entries.map (·.1)

/-- The values, in the order of their keys. -/
def values (m : OrderedMap κ ν) : List ν := m.entries.map (·.2)

def size (m : OrderedMap κ ν) : Nat := m.entries.length

def isEmpty (m : OrderedMap κ ν) : Bool := m.entries.isEmpty

def filter (m : OrderedMap κ ν) (p : κ → ν → Bool) : OrderedMap κ ν :=
  ⟨m.entries.filter fun e => p e.1 e.2, m.ascending.filter _⟩

@[simp] theorem get?_empty (k : κ) : (empty : OrderedMap κ ν).get? k = none := rfl

variable [Std.LawfulEqOrd κ]

/-- The entries are exactly the answered look-ups. -/
theorem get?_eq_some_iff (m : OrderedMap κ ν) {k : κ} {v : ν} :
    m.get? k = some v ↔ (k, v) ∈ m.entries :=
  Entries.find?_eq_some_iff m.ascending

variable [Std.TransOrd κ]

/-- Writes `v` under `k`, over what was there. -/
def insert (m : OrderedMap κ ν) (k : κ) (v : ν) : OrderedMap κ ν :=
  ⟨Entries.insert k v m.entries, m.ascending.insert⟩

@[simp] theorem get?_insert_self (m : OrderedMap κ ν) (k : κ) (v : ν) :
    (m.insert k v).get? k = some v :=
  Entries.find?_insert_self k v m.entries

theorem get?_insert_of_ne (m : OrderedMap κ ν) {k k' : κ} (h : k' ≠ k) (v : ν) :
    (m.insert k v).get? k' = m.get? k' :=
  Entries.find?_insert_of_ne h v m.entries

/-- A map is determined by its look-ups. -/
theorem ext {m n : OrderedMap κ ν} (h : ∀ k, m.get? k = n.get? k) : m = n := by
  obtain ⟨es, he⟩ := m
  obtain ⟨fs, hf⟩ := n
  cases Entries.eq_of_find?_eq he hf h
  rfl

end OrderedMap

end CausalDoc
