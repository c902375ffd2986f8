import CausalDoc.Sequence

/- The depth-first walk of a tree of elements.

   A tree is given by the children of every parent (`none` is the head). `Walk` relates
   a list of siblings to the walk of the trees below them; being inductive it holds of
   finite trees only, so nothing has to be said about depth. Three facts matter:

   1. the siblings and the children determine the walk (`Walk.unique`);
   2. the walk of a tree ends with the element that the last children lead to
      (`Walk.getLast?_eq`);
   3. a new leaf lengthens the walk by one element, right behind the walk of the
      siblings before it, or behind the parent when it comes first (`Walk.graft`). -/

namespace CausalDoc.Sequence

/-- `Walk children siblings order`: `order` is the depth-first walk of the trees below
`siblings`. -/
inductive Walk (children : Option AtomId → List AtomId) : List AtomId → List AtomId → Prop where
  | nil : Walk children [] []
  | cons {first : AtomId} {siblings below rest : List AtomId} :
      Walk children (children (some first)) below → Walk children siblings rest →
      Walk children (first :: siblings) (first :: (below ++ rest))

namespace Walk

variable {children : Option AtomId → List AtomId} {siblings order : List AtomId}

theorem unique (h : Walk children siblings order) :
    ∀ {order' : List AtomId}, Walk children siblings order' → order = order' := by
  induction h with
  | nil =>
    intro order' h'
    cases h'
    rfl
  | cons _ _ ihBelow ihRest =>
    intro order' h'
    cases h' with
    | cons hBelow hRest => rw [ihBelow hBelow, ihRest hRest]

/-- Only the children of the elements met on the way count. -/
theorem congr {children' : Option AtomId → List AtomId} (h : Walk children siblings order) :
    (∀ x ∈ order, children' (some x) = children (some x)) → Walk children' siblings order := by
  induction h with
  | nil => exact fun _ => .nil
  | @cons first siblings below rest _ _ ihBelow ihRest =>
    intro heq
    refine .cons ?_ (ihRest fun x hx => heq x (by simp [hx]))
    rw [heq first List.mem_cons_self]
    exact ihBelow fun x hx => heq x (by simp [hx])

theorem mem_of_mem (h : Walk children siblings order) : ∀ {x : AtomId}, x ∈ siblings → x ∈ order := by
  induction h with
  | nil => exact fun hx => hx
  | cons _ _ _ ihRest =>
    intro x hx
    rcases List.mem_cons.1 hx with rfl | hx
    · exact List.mem_cons_self
    · exact List.mem_cons_of_mem _ (List.mem_append_right _ (ihRest hx))

theorem mem_of_child (h : Walk children siblings order) :
    ∀ {p x : AtomId}, p ∈ order → x ∈ children (some p) → x ∈ order := by
  induction h with
  | nil => exact fun hp => absurd hp List.not_mem_nil
  | cons hBelow _ ihBelow ihRest =>
    intro p x hp hx
    rcases List.mem_cons.1 hp with rfl | hp
    · exact List.mem_cons_of_mem _ (List.mem_append_left _ (hBelow.mem_of_mem hx))
    · rcases List.mem_append.1 hp with hp | hp
      · exact List.mem_cons_of_mem _ (List.mem_append_left _ (ihBelow hp hx))
      · exact List.mem_cons_of_mem _ (List.mem_append_right _ (ihRest hp hx))

theorem append {siblings' order' : List AtomId} (h : Walk children siblings order)
    (h' : Walk children siblings' order') :
    Walk children (siblings ++ siblings') (order ++ order') := by
  induction h with
  | nil => exact h'
  | cons hBelow _ _ ihRest =>
    rw [List.cons_append, List.cons_append, List.append_assoc]
    exact .cons hBelow ihRest

/-- A walk falls apart where its siblings do. -/
theorem of_append {siblings' : List AtomId} :
    ∀ {siblings order : List AtomId}, Walk children (siblings ++ siblings') order →
      ∃ front back, order = front ++ back ∧ Walk children siblings front ∧
        Walk children siblings' back
  | [], order, h => ⟨[], order, rfl, .nil, h⟩
  | first :: siblings, _, .cons hBelow hRest => by
    obtain ⟨front, back, rfl, hfront, hback⟩ := of_append hRest
    exact ⟨_, back, by simp, .cons hBelow hfront, hback⟩

theorem nodup (h : Walk children siblings order) (hnodup : order.Nodup) :
    siblings.Nodup ∧ ∀ p ∈ order, (children (some p)).Nodup := by
  induction h with
  | nil => exact ⟨List.nodup_nil, fun p hp => absurd hp List.not_mem_nil⟩
  | cons hBelow hRest ihBelow ihRest =>
    obtain ⟨hfirst, hnodup⟩ := List.nodup_cons.1 hnodup
    obtain ⟨hbelow, hrest, -⟩ := List.nodup_append.1 hnodup
    obtain ⟨hchildren, hdeep⟩ := ihBelow hbelow
    obtain ⟨hsiblings, hothers⟩ := ihRest hrest
    refine ⟨List.nodup_cons.2 ⟨fun hm => ?_, hsiblings⟩, fun p hp => ?_⟩
    · exact hfirst (List.mem_append_right _ (hRest.mem_of_mem hm))
    · rcases List.mem_cons.1 hp with rfl | hp
      · exact hchildren
      · rcases List.mem_append.1 hp with hp | hp
        · exact hdeep p hp
        · exact hothers p hp

/-! ## The end of a walk -/

theorem getLast?_eq {s : Sequence α} {siblings order : List AtomId}
    (h : Walk s.childrenOf siblings order) :
    ∀ {last : AtomId} {depth : Nat}, siblings.getLast? = some last → order.length ≤ depth →
      order.getLast? = some (s.lastDescendantWithin depth last) := by
  induction h with
  | nil => exact fun h => absurd h (by simp)
  | @cons first siblings below rest hBelow hRest ihBelow ihRest =>
    intro last depth hlast hdepth
    rw [List.length_cons, List.length_append] at hdepth
    cases siblings with
    | nil =>
      cases hRest
      obtain ⟨depth, rfl⟩ : ∃ d, depth = d + 1 := ⟨depth - 1, by omega⟩
      obtain rfl : first = last := by simpa using hlast
      rw [lastDescendantWithin]
      cases hc : (s.childrenOf (some first)).getLast? with
      | none =>
        rw [List.getLast?_eq_none_iff.1 hc] at hBelow
        cases hBelow
        simp
      | some child =>
        have := ihBelow hc (show below.length ≤ depth by omega)
        simp [List.getLast?_cons, this]
    | cons second siblings =>
      have hend : (second :: siblings).getLast? = some last := by
        simpa [List.getLast?_cons] using hlast
      have := ihRest hend (show rest.length ≤ depth by omega)
      simp [List.getLast?_cons, List.getLast?_append, this]

/-! ## A new leaf -/

section Graft

variable {children' : Option AtomId → List AtomId} {parent leaf : AtomId}
  {before after : List AtomId}

theorem graft_off (h : Walk children siblings order) (hp : parent ∉ order)
    (hother : ∀ q, q ≠ some parent → children' q = children q) :
    Walk children' siblings order := by
  refine h.congr fun x hx => hother (some x) ?_
  rintro ⟨⟩
  exact hp hx

/-- A new leaf among the children of an element: it follows the walk of the children before it,
and of these the parent when there are none. -/
theorem graft (h : Walk children siblings order) (children' : Option AtomId → List AtomId)
    (leaf : AtomId) :
    order.Nodup → parent ∈ order → children (some parent) = before ++ after →
    children' (some parent) = before ++ leaf :: after → children' (some leaf) = [] →
    (∀ q, q ≠ some parent → children' q = children q) →
    ∃ front walked back, order = front ++ parent :: walked ++ back ∧
      Walk children before walked ∧
      Walk children' siblings (front ++ parent :: walked ++ leaf :: back) := by
  induction h with
  | nil => exact fun _ hp => absurd hp List.not_mem_nil
  | @cons first siblings below rest hBelow hRest ihBelow ihRest =>
    intro hnodup hp hold hnew hleaf hother
    obtain ⟨hfirst, hrest⟩ := List.nodup_cons.1 hnodup
    obtain ⟨hnodupBelow, hnodupRest, hdisjoint⟩ := List.nodup_append.1 hrest
    rcases List.mem_cons.1 hp with rfl | hbelow
    · -- the parent stands at the top: its children are walked next
      have hoff : parent ∉ below ∧ parent ∉ rest := by simpa using hfirst
      rw [hold] at hBelow
      obtain ⟨walked, back, rfl, hwalked, hback⟩ := of_append hBelow
      refine ⟨[], walked, back ++ rest, by simp, hwalked, ?_⟩
      have hleafWalk : Walk children' [leaf] [leaf] := by
        have : Walk children' (children' (some leaf)) [] := by rw [hleaf]; exact .nil
        exact .cons this .nil
      have hunder : Walk children' (children' (some parent)) (walked ++ leaf :: back) := by
        rw [hnew]
        refine (hwalked.graft_off ?_ hother).append (hleafWalk.append (hback.graft_off ?_ hother))
        · exact fun hm => hoff.1 (List.mem_append_left _ hm)
        · exact fun hm => hoff.1 (List.mem_append_right _ hm)
      have := Walk.cons hunder (hRest.graft_off hoff.2 hother)
      simpa using this
    · have hne : some first ≠ some parent := by
        rintro ⟨⟩
        exact hfirst hbelow
      rcases List.mem_append.1 hbelow with hp | hp
      · -- the parent stands below the first sibling
        obtain ⟨front, walked, back, rfl, hwalked, hgrafted⟩ :=
          ihBelow hnodupBelow hp hold hnew hleaf hother
        refine ⟨first :: front, walked, back ++ rest, by simp, hwalked, ?_⟩
        have hoff : parent ∉ rest := fun hm =>
          hdisjoint parent (by simp) parent hm rfl
        rw [← hother _ hne] at hgrafted
        have := Walk.cons hgrafted (hRest.graft_off hoff hother)
        simpa using this
      · -- the parent stands below a later sibling
        obtain ⟨front, walked, back, rfl, hwalked, hgrafted⟩ :=
          ihRest hnodupRest hp hold hnew hleaf hother
        refine ⟨first :: (below ++ front), walked, back, by simp, hwalked, ?_⟩
        have hoff : parent ∉ below := fun hm =>
          hdisjoint parent hm parent (by simp) rfl
        have hkept := hBelow.graft_off hoff hother
        rw [← hother _ hne] at hkept
        have := Walk.cons hkept hgrafted
        simpa using this

end Graft

end Walk

end CausalDoc.Sequence
