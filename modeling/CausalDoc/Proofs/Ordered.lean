import CausalDoc.Ordered.Map
import CausalDoc.Ordered.Set

/- What ordered maps and sets list.

   A map lists exactly the pairs its look-up answers, each key once, in key order; a
   set lists each member once. So a predicate on what is listed is a predicate on
   look-ups, and a write or a filter can be followed through the listing by its effect
   on look-ups. -/

namespace CausalDoc

universe u v w

namespace Entries

variable {κ : Type u} {ν : Type v}

/-- The list has the pair, and no later one with the same key. -/
def LastWith (ps : List (κ × ν)) (k : κ) (v : ν) : Prop :=
  ∃ before after, ps = before ++ (k, v) :: after ∧ ∀ e ∈ after, e.1 ≠ k

theorem lastWith_cons {p : κ × ν} {ps : List (κ × ν)} {k : κ} {v : ν} :
    LastWith (p :: ps) k v ↔ LastWith ps k v ∨ p = (k, v) ∧ ∀ e ∈ ps, e.1 ≠ k := by
  refine ⟨fun h => ?_, fun h => ?_⟩
  · obtain ⟨before, after, heq, hlast⟩ := h
    cases before with
    | nil =>
      rw [List.nil_append, List.cons.injEq] at heq
      exact .inr ⟨heq.1, heq.2 ▸ hlast⟩
    | cons p' before =>
      rw [List.cons_append, List.cons.injEq] at heq
      exact .inl ⟨before, after, heq.2, hlast⟩
  · rcases h with ⟨before, after, rfl, hlast⟩ | ⟨rfl, hlast⟩
    · exact ⟨p :: before, after, rfl, hlast⟩
    · exact ⟨[], ps, rfl, hlast⟩

theorem exists_lastWith [DecidableEq κ] {k : κ} :
    ∀ {ps : List (κ × ν)}, k ∈ ps.map Prod.fst → ∃ v, LastWith ps k v
  | p :: ps, h => by
    by_cases hlater : k ∈ ps.map Prod.fst
    · obtain ⟨v, hv⟩ := exists_lastWith hlater
      exact ⟨v, lastWith_cons.2 (.inl hv)⟩
    · have hhead : k = p.1 := (List.mem_cons.1 h).resolve_right hlater
      refine ⟨p.2, lastWith_cons.2 (.inr ⟨by rw [hhead], fun e he heq => ?_⟩)⟩
      exact hlater (heq ▸ List.mem_map_of_mem he)

theorem lastWith_map {ι : Type u} {f : ι → κ × ν} {xs : List ι} {k : κ} {v : ν} :
    LastWith (xs.map f) k v ↔ ∃ before x after, xs = before ++ x :: after ∧ f x = (k, v) ∧
      ∀ y ∈ after, (f y).1 ≠ k := by
  refine ⟨fun h => ?_, fun h => ?_⟩
  · obtain ⟨before, after, heq, hlast⟩ := h
    obtain ⟨xs₁, xs₂, rfl, rfl, hrest⟩ := List.map_eq_append_iff.1 heq
    obtain ⟨x, xs₃, rfl, hx, rfl⟩ := List.map_eq_cons_iff.1 hrest
    exact ⟨xs₁, x, xs₃, rfl, hx, fun y hy => hlast _ (List.mem_map_of_mem hy)⟩
  · obtain ⟨before, x, after, rfl, hx, hlast⟩ := h
    refine ⟨before.map f, after.map f, by rw [List.map_append, List.map_cons, hx], fun e he => ?_⟩
    obtain ⟨y, hy, rfl⟩ := List.mem_map.1 he
    exact hlast y hy

theorem length_flatMap_insert_le [Ord κ] {γ : Type w} (write : κ × ν → List γ) (k : κ) (v : ν) :
    ∀ es : List (κ × ν),
      ((insert k v es).flatMap write).length ≤ (write (k, v)).length + (es.flatMap write).length
  | [] => by simp [insert]
  | (k', v') :: es => by
    have := length_flatMap_insert_le write k v es
    unfold insert
    split <;> simp only [List.flatMap_cons, List.length_append] <;> omega

/-- However the pairs are written out, those that are written over are not. -/
theorem length_flatMap_ofList_le [Ord κ] {γ : Type w} (write : κ × ν → List γ)
    (ps : List (κ × ν)) : ((ofList ps).flatMap write).length ≤ (ps.flatMap write).length := by
  suffices hfold : ∀ es,
      ((ps.foldl (fun es p => insert p.1 p.2 es) es).flatMap write).length ≤
        (es.flatMap write).length + (ps.flatMap write).length by
    have := hfold []
    rwa [List.flatMap_nil, List.length_nil, Nat.zero_add] at this
  induction ps with
  | nil => exact fun es => Nat.le_refl _
  | cons p ps ih =>
    obtain ⟨k, v⟩ := p
    intro es
    have := ih (insert k v es)
    have := length_flatMap_insert_le write k v es
    simp only [List.foldl_cons, List.flatMap_cons, List.length_append]
    omega

theorem length_ofList_le [Ord κ] (ps : List (κ × ν)) : (ofList ps).length ≤ ps.length := by
  simpa using length_flatMap_ofList_le (fun p => [p]) ps

variable [Ord κ] [Std.LawfulEqOrd κ] [Std.TransOrd κ]

theorem mem_insert_iff [DecidableEq κ] {k k' : κ} {v v' : ν} {es : List (κ × ν)}
    (h : Ascending es) :
    (k', v') ∈ insert k v es ↔ k' = k ∧ v' = v ∨ k' ≠ k ∧ (k', v') ∈ es := by
  rw [← find?_eq_some_iff h.insert, ← find?_eq_some_iff h]
  by_cases hk : k' = k
  · rw [hk, find?_insert_self]
    simp [eq_comm]
  · rw [find?_insert_of_ne hk]
    simp [hk]

theorem mem_ofList [DecidableEq κ] {ps : List (κ × ν)} {k : κ} {v : ν} :
    (k, v) ∈ ofList ps ↔ LastWith ps k v := by
  suffices hfold : ∀ (ps es : List (κ × ν)), Ascending es →
      ((k, v) ∈ ps.foldl (fun es p => insert p.1 p.2 es) es ↔
        LastWith ps k v ∨ (k, v) ∈ es ∧ ∀ e ∈ ps, e.1 ≠ k) by
    refine (hfold ps [] List.Pairwise.nil).trans (or_iff_left ?_)
    exact fun h => List.not_mem_nil h.1
  intro ps
  induction ps with
  | nil =>
    intro es _
    simp [LastWith]
  | cons p ps ih =>
    intro es hes
    obtain ⟨k', v'⟩ := p
    rw [List.foldl_cons, ih _ hes.insert, mem_insert_iff hes, lastWith_cons, List.forall_mem_cons,
      Prod.mk.injEq]
    grind

theorem perm_ofList [DecidableEq κ] {ps : List (κ × ν)} (h : (ps.map Prod.fst).Nodup) :
    (ofList ps).Perm ps := by
  have hnodup : (ofList ps).Nodup := by
    refine (ascending_ofList ps).imp fun {a b} hlt heq => ?_
    rw [heq, Std.ReflOrd.compare_self] at hlt
    cases hlt
  have hgiven : ps.Nodup :=
    List.Pairwise.of_map Prod.fst (fun _ _ hne heq => hne (congrArg _ heq)) h
  refine (List.perm_ext_iff_of_nodup hnodup hgiven).2 fun e => ?_
  refine mem_ofList.trans ⟨fun hlast => ?_, fun hmem => ?_⟩
  · obtain ⟨before, after, rfl, -⟩ := hlast
    exact List.mem_append_right _ List.mem_cons_self
  · obtain ⟨before, after, rfl⟩ := List.append_of_mem hmem
    refine ⟨before, after, rfl, fun e' he' heq => ?_⟩
    rw [List.map_append, List.map_cons, List.nodup_append, List.nodup_cons] at h
    exact h.2.1.1 (heq ▸ List.mem_map_of_mem he')

end Entries

namespace OrderedMap

variable {κ : Type u} {ν : Type v} [Ord κ]

theorem contains_iff {m : OrderedMap κ ν} {k : κ} :
    m.contains k = true ↔ ∃ v, m.get? k = some v := by
  rw [contains, Option.isSome_iff_exists]

variable [Std.LawfulEqOrd κ]

theorem mem_keys {m : OrderedMap κ ν} {k : κ} : k ∈ m.keys ↔ ∃ v, m.get? k = some v := by
  simp only [keys, List.mem_map, get?_eq_some_iff]
  refine ⟨?_, ?_⟩
  · intro hgiven
    obtain ⟨⟨k, v⟩, h, rfl⟩ := hgiven
    exact ⟨v, h⟩
  · intro hgiven
    obtain ⟨v, h⟩ := hgiven
    exact ⟨(k, v), h, rfl⟩

theorem mem_values {m : OrderedMap κ ν} {v : ν} : v ∈ m.values ↔ ∃ k, m.get? k = some v := by
  simp only [values, List.mem_map, get?_eq_some_iff]
  refine ⟨?_, ?_⟩
  · intro hgiven
    obtain ⟨⟨k, v⟩, h, rfl⟩ := hgiven
    exact ⟨k, h⟩
  · intro hgiven
    obtain ⟨k, h⟩ := hgiven
    exact ⟨(k, v), h, rfl⟩

theorem get?_filter (m : OrderedMap κ ν) (p : κ → ν → Bool) (k : κ) :
    (m.filter p).get? k = (m.get? k).filter (p k) := by
  refine Option.ext fun v => ?_
  rw [Option.filter_eq_some_iff, get?_eq_some_iff, get?_eq_some_iff]
  exact List.mem_filter

theorem nodup_keys (m : OrderedMap κ ν) : m.keys.Nodup := by
  rw [keys, List.Nodup, List.pairwise_map]
  refine m.ascending.imp fun {a b} hlt heq => ?_
  rw [heq, Std.ReflOrd.compare_self] at hlt
  cases hlt

variable [Std.TransOrd κ]

theorem get?_insert [DecidableEq κ] (m : OrderedMap κ ν) (k k' : κ) (v : ν) :
    (m.insert k v).get? k' = if k' = k then some v else m.get? k' := by
  split
  · next h => rw [h, get?_insert_self]
  · next h => exact get?_insert_of_ne m h v

theorem contains_insert [DecidableEq κ] (m : OrderedMap κ ν) (k k' : κ) (v : ν) :
    (m.insert k v).contains k' = (decide (k' = k) || m.contains k') := by
  unfold contains
  rw [get?_insert]
  split <;> simp [*]

end OrderedMap

namespace OrderedSet

variable {κ : Type u} [Ord κ] [Std.ReflOrd κ]

theorem nodup_toList (s : OrderedSet κ) : s.toList.Nodup := by
  refine s.ascending.imp fun {a b} hlt heq => ?_
  rw [heq, Std.ReflOrd.compare_self] at hlt
  cases hlt

theorem size_eq_length {s : OrderedSet κ} {ks : List κ} (hks : ks.Nodup)
    (hmem : ∀ k, k ∈ s ↔ k ∈ ks) : s.size = ks.length :=
  ((List.perm_ext_iff_of_nodup s.nodup_toList hks).2 hmem).length_eq

end OrderedSet

end CausalDoc
