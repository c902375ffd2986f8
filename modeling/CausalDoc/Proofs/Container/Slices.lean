import CausalDoc.Proofs.Container.Effect

/- An insertion that arrives in parts.

   A peer that knows some atoms of an insertion is sent the others only, so one insertion
   may come as several parts, which may overlap and come more than once, with operations
   of others between them (`Course`). As long as the whole insertion is still to be
   applied, nothing that happens on such a course makes a difference to what comes out
   (`Ready.apply_part`, `Ready.apply_comm`), and when all atoms are there the whole has
   nothing to add. So every course ends where the whole insertion at its beginning leads
   to (`insertion_in_parts`). -/

namespace CausalDoc

/-! ## Parts of an insertion -/

def Inserted.take (n : Nat) : Inserted → Inserted
  | values vs => values (vs.take n)
  | text s => text (String.ofList (s.toList.take n))

/-- The atoms of an insertion from the `k`-th on and before the `m`-th; the first of them stands
behind the atom before it. -/
def Insertion.slice {α : Type} (i : Insertion α) (id : AtomId) (k m : Nat) : Insertion α :=
  ⟨Sequence.anchorAt id i.anchor k, (i.values.take m).drop k⟩

namespace Operation

variable {op : Operation} {anchor : Option AtomId} {content : Inserted}

/-- The atoms of the operation below `counter`. Only an insertion has parts. -/
def upTo (op : Operation) (counter : Nat) : Operation :=
  { op with
    action :=
      match op.action with
      | .insert anchor content => .insert anchor (content.take (counter - op.id.counter))
      | action => action }

/-- The atoms of the operation from `first` on and below `stop`. -/
def part (op : Operation) (first stop : Nat) : Operation := (op.upTo stop).suffix first

theorem part_eq (haction : op.action = .insert anchor content) (first stop : Nat) :
    op.part first stop =
      { op with
        id := op.id.forward (first - op.id.counter)
        lamport := op.lamport + (first - op.id.counter)
        action := .insert (Sequence.anchorAt op.id anchor (first - op.id.counter))
          ((content.take (stop - op.id.counter)).drop (first - op.id.counter)) } := by
  unfold part upTo suffix Sequence.anchorAt
  rw [haction]
  dsimp only
  split
  · next h =>
    rw [h]
    cases content <;> simp [Inserted.take, Inserted.drop]
  · rfl

theorem listInsertion?_part (haction : op.action = .insert anchor content) (first stop : Nat) :
    (op.part first stop).listInsertion? =
      op.listInsertion?.map (·.slice op.id (first - op.id.counter) (stop - op.id.counter)) := by
  rw [part_eq haction]
  unfold listInsertion?
  rw [haction]
  cases content <;> rfl

theorem textInsertion?_part (haction : op.action = .insert anchor content) (first stop : Nat) :
    (op.part first stop).textInsertion? =
      op.textInsertion?.map (·.slice op.id (first - op.id.counter) (stop - op.id.counter)) := by
  rw [part_eq haction]
  unfold textInsertion?
  rw [haction]
  cases content <;> simp [Inserted.take, Inserted.drop, Insertion.slice]

theorem part_stop (op : Operation) (first : Nat) : op.part first op.stop = op.suffix first := by
  have hupTo : op.upTo op.stop = op := by
    unfold upTo
    split
    · next anchor content haction =>
      have hlength : op.stop - op.id.counter = content.length := by
        rw [stop, length, haction, Action.length]
        omega
      rw [hlength]
      cases op
      cases content <;> simp_all [Inserted.take, Inserted.length]
    · rfl
  rw [part, hupTo]

theorem part_first (op : Operation) (stop : Nat) : op.part op.id.counter stop = op.upTo stop :=
  suffix_of_le (Nat.le_refl _)

end Operation

namespace Sequence

variable {α : Type} {read : Operation → Option (Insertion α)} {op : Operation}
  {anchor : Option AtomId} {content : Inserted} {first stop : Nat} {a : AtomId}
  {p : Option AtomId} {e : Element α} (haction : op.action = .insert anchor content)
  (hfirst : op.id.counter ≤ first)
  (hslice : read (op.part first stop) =
    (read op).map (·.slice op.id (first - op.id.counter) (stop - op.id.counter)))

include haction hfirst hslice

/-- A part adds those atoms of the whole that it covers, and each where the whole does. -/
theorem adds_part_iff :
    Adds (op.part first stop) (read (op.part first stop)) a p e ↔
      Adds op (read op) a p e ∧ first ≤ a.counter ∧ a.counter < stop := by
  have hid : (op.part first stop).id = op.id.forward (first - op.id.counter) := by
    rw [Operation.part_eq haction]
  have hstamp : (op.part first stop).stamp = op.stamp.forward (first - op.id.counter) := by
    rw [Operation.part_eq haction]
    rfl
  unfold Adds
  rw [hslice, hid, hstamp]
  refine ⟨?_, ?_⟩
  · intro hpart
    obtain ⟨i', n, v, hi', hv, rfl, rfl, rfl⟩ := hpart
    obtain ⟨i, hi, rfl⟩ := Option.map_eq_some_iff.1 hi'
    rw [Insertion.slice, List.getElem?_drop, List.getElem?_take] at hv
    split at hv
    · next hlt =>
      refine ⟨⟨i, first - op.id.counter + n, v, hi, hv, ?_, ?_, ?_⟩, ?_⟩
      · rw [AtomId.forward_forward]
      · rw [Insertion.slice, anchorAt_anchorAt]
      · rw [Stamp.forward_forward]
      · rw [AtomId.forward_counter, AtomId.forward_counter]
        omega
    · cases hv
  · intro hwhole
    obtain ⟨⟨i, n, v, hi, hv, rfl, rfl, rfl⟩, hlow, hhigh⟩ := hwhole
    rw [AtomId.forward_counter] at hlow hhigh
    have hn : first - op.id.counter + (n - (first - op.id.counter)) = n := by omega
    refine ⟨i.slice op.id (first - op.id.counter) (stop - op.id.counter),
      n - (first - op.id.counter), v, by rw [hi]; rfl, ?_, ?_, ?_, ?_⟩
    · rw [Insertion.slice, List.getElem?_drop, List.getElem?_take, hn, if_pos (by omega)]
      exact hv
    · rw [AtomId.forward_forward, hn]
    · rw [Insertion.slice, anchorAt_anchorAt, hn]
    · rw [Stamp.forward_forward, hn]

theorem Adds.of_part (h : Adds (op.part first stop) (read (op.part first stop)) a p e) :
    Adds op (read op) a p e :=
  ((adds_part_iff haction hfirst hslice).1 h).1

/-- A part that goes in puts its atoms there. -/
theorem Tidy.contains_take_part (hread : Reading read) {s : Sequence α} (h : s.Tidy)
    (hpart : s.hasAnchor (op.part first stop).anchor? = true) {i : Insertion α}
    (hi : read op = some i) (hcovers : op.covers a = true) (hlow : first ≤ a.counter)
    (hhigh : a.counter < stop) :
    (s.take (op.part first stop) (read (op.part first stop))).contains a = true := by
  obtain ⟨p, e, hadds⟩ := exists_adds hread hi hcovers
  have hpartAdds : Adds (op.part first stop) (read (op.part first stop)) a p e :=
    (adds_part_iff haction hfirst hslice).2 ⟨hadds, hlow, hhigh⟩
  exact (h.contains_take_iff hread hpart).2 (.inr ⟨p, e, hpartAdds⟩)

end Sequence

/-! ## Lists and texts -/

namespace ContainerState

def hasAnchor (state : ContainerState) (anchor : Option AtomId) : Bool := anchor.all state.holds

def stamps : ContainerState → List Stamp
  | list s => s.stamps
  | text s => s.stamps
  | map _ => []

/-- The places in an operation of the atoms that it would add as elements. -/
def news : ContainerState → Operation → List Nat
  | list s, op => s.news op op.listInsertion?
  | text s, op => s.news op op.textInsertion?
  | map _, _ => []

/-- Different elements have different stamps. -/
def Distinct : ContainerState → Prop
  | list s => s.Distinct
  | text s => s.Distinct
  | map _ => True

variable {state : ContainerState} {op : Operation}

theorem distinct_of_nodup (h : state.stamps.Nodup) : state.Distinct := by
  cases state with
  | list s | text s => exact Sequence.distinct_of_nodup h
  | map f => trivial

theorem apply_list {s : Sequence Value} (h : s.hasAnchor op.anchor? = true) :
    (list s).apply op = list (s.take op op.listInsertion?) := by
  unfold apply Sequence.take Operation.listInsertion? Operation.targets
  cases haction : op.action with
  | insert anchor content =>
    rw [Operation.anchor?, haction] at h
    cases content with
    | values vs => simp [h]
    | text t => simp [Sequence.deleteAll]
  | delete ids => rfl
  | setField key value => simp [Sequence.deleteAll]
  | create slot kind =>
    rw [Operation.anchor?, haction] at h
    cases slot with
    | after anchor => simp_all [Sequence.insert]
    | key name => simp [Sequence.deleteAll]

theorem apply_text {s : Sequence Char} (h : s.hasAnchor op.anchor? = true) :
    (text s).apply op = text (s.take op op.textInsertion?) := by
  unfold apply Sequence.take Operation.textInsertion? Operation.targets
  cases haction : op.action with
  | insert anchor content =>
    rw [Operation.anchor?, haction] at h
    cases content with
    | values vs => simp [Sequence.deleteAll]
    | text t => simp [h]
  | delete ids => rfl
  | setField key value => simp [Sequence.deleteAll]
  | create slot kind => simp [Sequence.deleteAll]

theorem hasAnchor_of_canApply (h : state.canApply op = true) :
    state.hasAnchor op.anchor? = true := by
  unfold canApply at h
  unfold Operation.anchor?
  split at h
  · next s _ anchor content heq => rwa [heq]
  · next s _ anchor kind heq => rwa [heq]
  · next s _ targets heq => rw [heq]; rfl
  · next f _ key value heq => rw [heq]; rfl
  · next f _ key kind heq => rw [heq]; rfl
  · next s _ anchor content heq => rwa [heq]
  · next s _ targets heq => rw [heq]; rfl
  · cases h

theorem hasAnchor_of_named (h : ∀ a ∈ op.named, state.holds a = true) :
    state.hasAnchor op.anchor? = true := by
  unfold hasAnchor
  cases hanchor : op.anchor? with
  | none => rfl
  | some a => exact h a (by simp [Operation.named, hanchor])

theorem Tidy.apply (h : state.Tidy) (hanchor : state.hasAnchor op.anchor? = true) :
    (state.apply op).Tidy := by
  cases state with
  | list s =>
    rw [apply_list hanchor]
    exact Sequence.Tidy.take h op _
  | text s =>
    rw [apply_text hanchor]
    exact Sequence.Tidy.take h op _
  | map f =>
    unfold ContainerState.apply
    split <;> trivial

theorem Tidy.hasAnchor_apply (h : state.Tidy) (hanchor : state.hasAnchor op.anchor? = true)
    {p : Option AtomId} (hp : state.hasAnchor p = true) : (state.apply op).hasAnchor p = true := by
  cases state with
  | list s =>
    rw [apply_list hanchor]
    exact Sequence.Tidy.hasAnchor_take reading_list h hanchor hp
  | text s =>
    rw [apply_text hanchor]
    exact Sequence.Tidy.hasAnchor_take reading_text h hanchor hp
  | map f =>
    cases p with
    | none => rfl
    | some a => cases hp

theorem Tidy.distinct_apply (h : state.Tidy) (hanchor : state.hasAnchor op.anchor? = true)
    (hdistinct : state.Distinct)
    (hfresh : ∀ n ∈ state.news op, op.stamp.forward n ∉ state.stamps) :
    (state.apply op).Distinct := by
  cases state with
  | list s =>
    rw [apply_list hanchor]
    exact Sequence.Tidy.distinct_take reading_list h hanchor hdistinct hfresh
  | text s =>
    rw [apply_text hanchor]
    exact Sequence.Tidy.distinct_take reading_text h hanchor hdistinct hfresh
  | map f =>
    unfold ContainerState.apply
    split <;> trivial

@[simp] theorem kind_apply : (state.apply op).kind = state.kind := by
  unfold ContainerState.apply
  split <;> rfl

theorem targets_of_insert {anchor : Option AtomId} {content : Inserted}
    (haction : op.action = .insert anchor content) : op.targets = [] := by
  rw [Operation.targets, haction]

theorem not_fits_map {anchor : Option AtomId} {content : Inserted}
    (haction : op.action = .insert anchor content) : op.action.flaw? .map ≠ none := by
  rw [haction]
  cases content <;> exact nofun

/-! ### Courses of parts -/

/-- The insertion can be applied, and after it different elements still have different stamps. -/
structure Ready (state : ContainerState) (op : Operation) : Prop where
  tidy : state.Tidy
  fits : op.action.flaw? state.kind = none
  anchor : state.hasAnchor op.anchor? = true
  distinct : (state.apply op).Distinct

/-- The operation `o` refers only to elements that are there. What it adds has other names than
the atoms of `op`, and fresh stamps. -/
structure Aside (state : ContainerState) (op o : Operation) : Prop where
  named : ∀ a ∈ o.named, state.holds a = true
  apart : ∀ n ∈ state.news o, op.covers (o.id.forward n) = false
  fresh : ∀ n ∈ state.news o, o.stamp.forward n ∉ state.stamps
  other : ∀ n ∈ state.news o, ∀ m < op.length, o.stamp.forward n ≠ op.stamp.forward m

section Steps

variable {anchor : Option AtomId} {content : Inserted} {o : Operation} {first stop : Nat}
  (haction : op.action = .insert anchor content)

include haction

theorem Ready.apply_part (h : state.Ready op) (hfirst : op.id.counter ≤ first)
    (hpart : state.hasAnchor (op.part first stop).anchor? = true) :
    (state.apply (op.part first stop)).apply op = state.apply op := by
  have hinsertion : op.targets = [] := targets_of_insert haction
  have hinsertion' : (op.part first stop).targets = [] :=
    targets_of_insert (by rw [Operation.part_eq haction])
  have hdistinct := h.distinct
  have hnext := h.tidy.hasAnchor_apply hpart h.anchor
  cases state with
  | list s =>
    rw [apply_list hpart] at hnext ⊢
    rw [apply_list h.anchor] at hdistinct ⊢
    rw [apply_list hnext]
    exact congrArg list (Sequence.Tidy.take_take_of_adds reading_list h.tidy hpart h.anchor
      hinsertion hinsertion' hdistinct fun _ _ _ hadds =>
        hadds.of_part haction hfirst (Operation.listInsertion?_part haction first stop))
  | text s =>
    rw [apply_text hpart] at hnext ⊢
    rw [apply_text h.anchor] at hdistinct ⊢
    rw [apply_text hnext]
    exact congrArg text (Sequence.Tidy.take_take_of_adds reading_text h.tidy hpart h.anchor
      hinsertion hinsertion' hdistinct fun _ _ _ hadds =>
        hadds.of_part haction hfirst (Operation.textInsertion?_part haction first stop))
  | map f => exact absurd h.fits (not_fits_map haction)

theorem Ready.after_part (h : state.Ready op) (hfirst : op.id.counter ≤ first)
    (hpart : state.hasAnchor (op.part first stop).anchor? = true) :
    (state.apply (op.part first stop)).Ready op where
  tidy := h.tidy.apply hpart
  fits := by
    rw [kind_apply]
    exact h.fits
  anchor := h.tidy.hasAnchor_apply hpart h.anchor
  distinct := by
    rw [h.apply_part haction hfirst hpart]
    exact h.distinct

theorem Ready.apply_comm (h : state.Ready op) (ho : state.Aside op o) :
    (state.apply o).apply op = (state.apply op).apply o ∧
      ((state.apply op).apply o).Distinct := by
  have hinsertion : op.targets = [] := targets_of_insert haction
  have hanchor := hasAnchor_of_named ho.named
  have htargets : ∀ a ∈ o.targets, state.holds a = true := fun a ha =>
    ho.named a (List.mem_append_right _ ha)
  have hdistinct := h.distinct
  have hfirst := h.tidy.hasAnchor_apply hanchor h.anchor
  have hsecond := h.tidy.hasAnchor_apply h.anchor hanchor
  cases state with
  | list s =>
    rw [apply_list hanchor] at hfirst ⊢
    rw [apply_list h.anchor] at hsecond hdistinct ⊢
    rw [apply_list hfirst, apply_list hsecond]
    obtain ⟨heq, hboth⟩ := Sequence.Tidy.take_comm_of_fresh reading_list h.tidy hanchor h.anchor
      hinsertion htargets ho.apart ho.fresh ho.other hdistinct
    exact ⟨congrArg list heq, hboth⟩
  | text s =>
    rw [apply_text hanchor] at hfirst ⊢
    rw [apply_text h.anchor] at hsecond hdistinct ⊢
    rw [apply_text hfirst, apply_text hsecond]
    obtain ⟨heq, hboth⟩ := Sequence.Tidy.take_comm_of_fresh reading_text h.tidy hanchor h.anchor
      hinsertion htargets ho.apart ho.fresh ho.other hdistinct
    exact ⟨congrArg text heq, hboth⟩
  | map f => exact absurd h.fits (not_fits_map haction)

theorem Ready.after_aside (h : state.Ready op) (ho : state.Aside op o) :
    (state.apply o).Ready op where
  tidy := h.tidy.apply (hasAnchor_of_named ho.named)
  fits := by
    rw [kind_apply]
    exact h.fits
  anchor := h.tidy.hasAnchor_apply (hasAnchor_of_named ho.named) h.anchor
  distinct := by
    obtain ⟨heq, hboth⟩ := h.apply_comm haction ho
    rw [heq]
    exact hboth

theorem Ready.apply_of_holds (h : state.Ready op)
    (hall : ∀ a, op.covers a = true → state.holds a = true) : state.apply op = state := by
  have hinsertion : op.targets = [] := targets_of_insert haction
  have hdistinct := h.distinct
  cases state with
  | list s =>
    rw [apply_list h.anchor] at hdistinct ⊢
    exact congrArg list
      (Sequence.Tidy.take_of_contains reading_list h.tidy h.anchor hinsertion hdistinct hall)
  | text s =>
    rw [apply_text h.anchor] at hdistinct ⊢
    exact congrArg text
      (Sequence.Tidy.take_of_contains reading_text h.tidy h.anchor hinsertion hdistinct hall)
  | map f => exact absurd h.fits (not_fits_map haction)

theorem Tidy.holds_apply_part (h : state.Tidy) (hfits : op.action.flaw? state.kind = none)
    (hfirst : op.id.counter ≤ first)
    (hpart : state.hasAnchor (op.part first stop).anchor? = true) {a : AtomId}
    (hcovers : op.covers a = true) (hlow : first ≤ a.counter) (hhigh : a.counter < stop) :
    (state.apply (op.part first stop)).holds a = true := by
  rw [haction] at hfits
  cases state with
  | list s =>
    cases content with
    | text t => cases hfits
    | values vs =>
      have hread : op.listInsertion? = some ⟨anchor, vs⟩ := by
        rw [Operation.listInsertion?, haction]
      rw [apply_list hpart]
      exact Sequence.Tidy.contains_take_part haction hfirst
        (Operation.listInsertion?_part haction first stop) reading_list h hpart hread hcovers
        hlow hhigh
  | text s =>
    cases content with
    | values vs => cases hfits
    | text t =>
      have hread : op.textInsertion? = some ⟨anchor, t.toList⟩ := by
        rw [Operation.textInsertion?, haction]
      rw [apply_text hpart]
      exact Sequence.Tidy.contains_take_part haction hfirst
        (Operation.textInsertion?_part haction first stop) reading_text h hpart hread hcovers
        hlow hhigh
  | map f => cases content <;> cases hfits

/-- A part can be applied once its first atom's anchor is there. -/
theorem canApply_part (hfits : op.action.flaw? state.kind = none) :
    state.canApply (op.part first stop) =
      state.hasAnchor (Sequence.anchorAt op.id anchor (first - op.id.counter)) := by
  rw [Operation.part_eq haction]
  rw [haction] at hfits
  cases state with
  | list s | text s => rfl
  | map f => cases content <;> cases hfits

end Steps

/-- A course from the state to the state `last`: parts of `op`, each of them once it can be
applied, in any number and whether they overlap or not, and between them the operations `others`,
which refer only to elements that are there. -/
inductive Course (op : Operation) : ContainerState → List Operation → ContainerState → Prop where
  | nil {state : ContainerState} : Course op state [] state
  | part {state last : ContainerState} {others : List Operation} (first stop : Nat) :
      op.id.counter ≤ first → first < stop → stop ≤ op.stop →
      state.canApply (op.part first stop) = true →
      Course op (state.apply (op.part first stop)) others last → Course op state others last
  | aside {state last : ContainerState} {others : List Operation} {o : Operation} :
      state.Aside op o → Course op (state.apply o) others last →
      Course op state (o :: others) last

/-- A course that brings all atoms ends where the whole insertion and then the others end. -/
theorem Ready.eq_of_course {anchor : Option AtomId} {content : Inserted}
    (haction : op.action = .insert anchor content) (h : state.Ready op) {others : List Operation}
    {last : ContainerState} (hcourse : Course op state others last)
    (hall : ∀ a, op.covers a = true → last.holds a = true) :
    last = others.foldl ContainerState.apply (state.apply op) := by
  induction hcourse with
  | nil => exact (h.apply_of_holds haction hall).symm
  | part first stop hfirst _ _ happly _ ih =>
    have hpart := hasAnchor_of_canApply happly
    rw [ih (h.after_part haction hfirst hpart) hall, h.apply_part haction hfirst hpart]
  | aside ho _ ih =>
    rw [ih (h.after_aside haction ho) hall, (h.apply_comm haction ho).1, List.foldl_cons]

theorem Ready.apply_cut {anchor : Option AtomId} {content : Inserted}
    (haction : op.action = .insert anchor content) (h : state.Ready op) {cut : Nat}
    (hlow : op.id.counter < cut) (hhigh : cut < op.stop) :
    (state.apply (op.upTo cut)).apply (op.suffix cut) = state.apply op := by
  have hanchor : op.anchor? = anchor := by rw [Operation.anchor?, haction]
  have hfirst : state.canApply (op.part op.id.counter cut) = true := by
    rw [canApply_part haction h.fits, Nat.sub_self, ← h.anchor, hanchor]
    rfl
  have hpart := hasAnchor_of_canApply hfirst
  have hfits : op.action.flaw? (state.apply (op.part op.id.counter cut)).kind = none := by
    rw [kind_apply]
    exact h.fits
  -- the last atom before the cut is there after the first part
  have hsecond : (state.apply (op.part op.id.counter cut)).canApply (op.part cut op.stop) =
      true := by
    have hcovers : op.covers (op.id.forward (cut - op.id.counter - 1)) = true :=
      Operation.covers_forward (by rw [Operation.stop] at hhigh; omega)
    rw [canApply_part haction hfits, Sequence.anchorAt, if_neg (by omega)]
    refine h.tidy.holds_apply_part haction h.fits (Nat.le_refl _) hpart hcovers ?_ ?_
    · exact Nat.le_add_right _ _
    · rw [AtomId.forward_counter]
      omega
  have hcourse : Course op state []
      ((state.apply (op.part op.id.counter cut)).apply (op.part cut op.stop)) :=
    .part op.id.counter cut (Nat.le_refl _) hlow (Nat.le_of_lt hhigh) hfirst
      (.part cut op.stop (Nat.le_of_lt hlow) hhigh (Nat.le_refl _) hsecond .nil)
  have hmiddle := h.after_part haction (Nat.le_refl _) hpart
  rw [← Operation.part_first, ← Operation.part_stop]
  refine h.eq_of_course haction hcourse fun a hcovers => ?_
  obtain ⟨-, hle, hlt⟩ := Operation.covers_iff.1 hcovers
  have hpart' := hasAnchor_of_canApply hsecond
  by_cases hbefore : a.counter < cut
  · have hheld := h.tidy.holds_apply_part haction h.fits (Nat.le_refl _) hpart hcovers hle hbefore
    exact hmiddle.tidy.hasAnchor_apply hpart' (p := some a) hheld
  · exact hmiddle.tidy.holds_apply_part haction hfits (Nat.le_of_lt hlow) hpart' hcovers
      (Nat.not_lt.1 hbefore) hlt

end ContainerState

/-- A run goes in as its elements would one by one, whichever of them are there already. So an
insertion into a list or a text may be cut in two anywhere, and any course of its parts that
brings all its atoms, with other operations between them, ends in the very state that the whole
insertion at the beginning and then the others lead to. -/
theorem insertion_in_parts :
    (∀ {α : Type} (s : Sequence α) (id : AtomId) (stamp : Stamp) (parent : Option AtomId)
      (values : List α), s.Tidy → s.hasAnchor parent = true →
      s.insertRun id stamp parent values = s.insertEach id stamp parent values) ∧
    ∀ (state : ContainerState) (op : Operation) (anchor : Option AtomId) (content : Inserted),
      op.action = .insert anchor content → op.action.flaw? state.kind = none → state.Tidy →
      state.canApply op = true → state.stamps.Nodup →
      (∀ n ∈ state.news op, op.stamp.forward n ∉ state.stamps) →
      (∀ cut, op.id.counter < cut → cut < op.stop →
        (state.apply (op.upTo cut)).apply (op.suffix cut) = state.apply op) ∧
      ∀ others last, ContainerState.Course op state others last →
        (∀ a, op.covers a = true → last.holds a = true) →
        last = others.foldl ContainerState.apply (state.apply op) := by
  refine ⟨fun s id stamp parent values htidy hparent =>
    htidy.insertRun_eq_insertEach hparent values, ?_⟩
  intro state op anchor content haction hfits htidy happly hstamps hnew
  have hanchor := ContainerState.hasAnchor_of_canApply happly
  have hready : state.Ready op :=
    ⟨htidy, hfits, hanchor,
      htidy.distinct_apply hanchor (ContainerState.distinct_of_nodup hstamps) hnew⟩
  refine ⟨fun cut hlow hhigh => hready.apply_cut haction hlow hhigh, ?_⟩
  exact fun others last hcourse hall => hready.eq_of_course haction hcourse hall

/-! ### A word in pieces

Peer 1 has written `ad` when peer 2 puts `bcx` between the two letters. The insertion arrives as
`bc`, `cx` and once more as `bcx`, and in between peer 3 writes behind the `c`, and peer 1 takes
the `b` away. -/

namespace Pieces

/-- Two letters of peer 1. -/
def letters : Sequence Char := Sequence.empty.insertRun ⟨1, 0⟩ ⟨0, 1⟩ none ['a', 'd']

/-- An operation on a text. -/
def inText (peer counter lamport : Nat) (action : Action) : Operation :=
  ⟨⟨peer, counter⟩, lamport, [], .root "text" .text, 0, action⟩

/-- Three letters of peer 2 behind the `a`. -/
def word : Operation := inText 2 0 2 (.insert (some ⟨1, 0⟩) (.text "bcx"))

/-- A letter of peer 3 behind the second of them. -/
def remark : Operation := inText 3 0 5 (.insert (some ⟨2, 1⟩) (.text "?"))

/-- The deletion of the first of them. -/
def removal : Operation := inText 1 2 6 (.delete [⟨2, 0⟩])

theorem tidy_letters : letters.Tidy := Sequence.tidy_empty.insertRun rfl ['a', 'd']

theorem insertion_in_parts_word :
    letters.insertRun ⟨1, 1⟩ ⟨1, 1⟩ (some ⟨1, 0⟩) ['d', 'e'] =
      letters.insertEach ⟨1, 1⟩ ⟨1, 1⟩ (some ⟨1, 0⟩) ['d', 'e'] ∧
    ((ContainerState.text letters).apply (word.upTo 1)).apply (word.suffix 1) =
      (ContainerState.text letters).apply word ∧
    (((((ContainerState.text letters).apply (word.part 0 2)).apply remark).apply
      (word.part 1 3)).apply removal).apply (word.part 0 3) =
        (((ContainerState.text letters).apply word).apply remark).apply removal := by
  obtain ⟨hcut, hcourse⟩ := insertion_in_parts.2 (.text letters) word (some ⟨1, 0⟩) (.text "bcx")
    rfl rfl tidy_letters (by decide) (by decide) (by decide)
  refine ⟨insertion_in_parts.1 letters _ _ _ _ tidy_letters (by decide),
    hcut 1 (by decide) (by decide), hcourse [remark, removal] _ ?_ ?_⟩
  · refine .part 0 2 (by decide) (by decide) (by decide) (by decide) ?_
    refine .aside ⟨by decide, by decide, by decide, by decide⟩ ?_
    refine .part 1 3 (by decide) (by decide) (by decide) (by decide) ?_
    refine .aside ⟨by decide, by decide, by decide, by decide⟩ ?_
    exact .part 0 3 (by decide) (by decide) (by decide) (by decide) .nil
  · intro a hcovers
    obtain ⟨n, hn, rfl⟩ := Operation.exists_forward hcovers
    have hall : ∀ m < word.length, ContainerState.holds (((((ContainerState.text letters).apply
        (word.part 0 2)).apply remark).apply (word.part 1 3)).apply removal |>.apply
          (word.part 0 3)) (word.id.forward m) = true := by decide
    exact hall n hn

end Pieces

end CausalDoc
