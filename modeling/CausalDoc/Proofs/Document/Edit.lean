import CausalDoc.Proofs.Store.Reflects
import CausalDoc.Proofs.Wire.Writable

/- What a local edit does.

   An edit changes nothing, or it makes one operation: the store admits the operation and
   takes it (`edit_outcome`). The operation refers only to elements that its container
   holds, so it takes effect at once, and it lists the frontiers, so the whole log is in
   its causal past. -/

namespace CausalDoc

theorem Sequence.contains_of_mem_visibleIds {α : Type} {s : Sequence α} {a : AtomId}
    (h : a ∈ s.visibleIds) : s.contains a = true := by
  obtain ⟨-, v, hv⟩ := mem_visibleIds.1 h
  exact contains_of_value? hv

namespace ContainerState

variable {state : ContainerState} {a : AtomId}

theorem holds_of_anchorFor {index : Nat} (h : state.anchorFor index = some a) :
    state.holds a = true := by
  cases state with
  | map f => cases h
  | list s | text s =>
    apply Sequence.contains_of_mem_visibleIds
    simp only [anchorFor, Sequence.anchorFor] at h
    split at h
    · cases h
    · exact List.mem_of_getElem? h

theorem holds_of_mem_idsInRange {index count : Nat} (h : a ∈ state.idsInRange index count) :
    state.holds a = true := by
  cases state with
  | map f => cases h
  | list s | text s =>
    apply Sequence.contains_of_mem_visibleIds
    exact List.mem_of_mem_drop (List.mem_of_mem_take h)

theorem canApply_of_holds {op : Operation} (hfits : op.action.flaw? state.kind = none)
    (hanchor : ∀ a, op.anchor? = some a → state.holds a = true) : state.canApply op = true := by
  have hall : ∀ {anchor : Option AtomId}, op.anchor? = anchor → anchor.all state.holds = true := by
    intro anchor h
    cases anchor with
    | none => rfl
    | some a => exact hanchor a h
  cases haction : op.action with
  | insert anchor content =>
    have hthere : anchor.all state.holds = true := hall (by rw [Operation.anchor?, haction])
    rw [haction] at hfits
    cases state with
    | map f => cases content <;> cases hfits
    | list s | text s =>
      simp only [canApply, haction]
      exact hthere
  | delete targets =>
    rw [haction] at hfits
    cases state with
    | map f =>
      by_cases htargets : targets.isEmpty <;> simp [Action.flaw?, htargets, kind] at hfits
    | list s | text s => simp [canApply, haction]
  | setField key value =>
    rw [haction] at hfits
    cases state with
    | map f => simp [canApply, haction]
    | list s | text s => cases hfits
  | create slot kind =>
    rw [haction] at hfits
    cases slot with
    | key name =>
      cases state with
      | map f => simp [canApply, haction]
      | list s | text s => cases hfits
    | after anchor =>
      have hthere : anchor.all state.holds = true := hall (by rw [Operation.anchor?, haction])
      cases state with
      | list s =>
        simp only [canApply, haction]
        exact hthere
      | map f | text s => cases hfits

end ContainerState

namespace Edit

/-- The action that an edit amounts to on a container in the given state, where there is one: the
positions are in the sequence, and there is something to insert or delete. -/
inductive Makes (state : ContainerState) : Edit → Action → Prop where
  | insertValues {index : Nat} {values : List Value} :
      index ≤ state.length → values.isEmpty = false →
      Makes state (.insertValues index values)
        (.insert (state.anchorFor index) (.values values))
  | insertText {index : Nat} {text : String} : index ≤ state.length → text.isEmpty = false →
      Makes state (.insertText index text) (.insert (state.anchorFor index) (.text text))
  | insertContainer {index : Nat} {kind : ContainerKind} : index ≤ state.length →
      Makes state (.insertContainer index kind) (.create (.after (state.anchorFor index)) kind)
  | deleteRange {index count : Nat} : index + count ≤ state.length → 0 < count →
      Makes state (.deleteRange index count) (.delete (state.idsInRange index count))
  | setField {key : String} {value : Option Value} :
      Makes state (.setField key value) (.setField key value)
  | setContainer {key : String} {kind : ContainerKind} :
      Makes state (.setContainer key kind) (.create (.key key) kind)

variable {edit : Edit} {state : ContainerState} {action : Action}

theorem makes_of_action? (h : edit.action? state = .ok (some action)) :
    edit.Makes state action := by
  unfold action? at h
  split at h
  case h_1 index values =>
    split at h
    · cases h
    · next hindex =>
      split at h
      · cases h
      · next hvalues =>
        cases h
        exact .insertValues (Nat.not_lt.1 hindex) (Bool.eq_false_iff.2 hvalues)
  case h_2 index text =>
    split at h
    · cases h
    · next hindex =>
      split at h
      · cases h
      · next htext =>
        cases h
        exact .insertText (Nat.not_lt.1 hindex) (Bool.eq_false_iff.2 htext)
  case h_3 index kind =>
    split at h
    · cases h
    · next hindex =>
      cases h
      exact .insertContainer (Nat.not_lt.1 hindex)
  case h_4 index count =>
    split at h
    · cases h
    · next hrange =>
      split at h
      · cases h
      · next hcount =>
        cases h
        exact .deleteRange (Nat.not_lt.1 hrange) (Nat.pos_of_ne_zero hcount)
  case h_5 key value =>
    cases h
    exact .setField
  case h_6 key kind =>
    cases h
    exact .setContainer

/-- An edit refers to nothing that the container does not hold. -/
theorem Makes.named {op : Operation} (h : edit.Makes state op.action) :
    ∀ a ∈ op.named, state.holds a = true := by
  intro a ha
  rw [Operation.named, List.mem_append, Option.mem_toList, Operation.anchor?,
    Operation.targets] at ha
  generalize op.action = action at h ha
  cases h with
  | insertValues _ _ | insertText _ _ | insertContainer _ =>
    rcases ha with hanchor | htarget
    · exact ContainerState.holds_of_anchorFor hanchor
    · cases htarget
  | deleteRange _ _ =>
    rcases ha with hanchor | htarget
    · cases hanchor
    · exact ContainerState.holds_of_mem_idsInRange htarget
  | setField | setContainer =>
    rcases ha with hanchor | htarget
    · cases hanchor
    · cases htarget

end Edit

namespace Document

variable {doc : Document} {container : ContainerId} {action : Action} {wallTime : Nat}

theorem contains_of_mem_draft (h : doc.store.Coherent)
    (hresolvable : doc.registry.isResolvable container = true) {d : AtomId}
    (hd : d ∈ (doc.draft container action wallTime).dependencies) : doc.log.contains d = true := by
  rcases Operation.mem_dependencies.1 hd with hd | ⟨hpeer, hcounter⟩ | hd
  · exact h.log.contains_of_frontier hd
  · change d.peer = doc.peer at hpeer
    change d.counter + 1 = doc.log.version.nextCounter doc.peer at hcounter
    rw [Log.contains, VersionVector.includes_iff, hpeer]
    omega
  · change container.creator? = some d at hd
    rcases h.creator_of_resolvable hresolvable with hroot | ⟨o, ho, hcreated⟩
    · cases container with
      | root name kind => cases hd
      | created creator kind => cases hroot
    · obtain ⟨kind, rfl⟩ := Store.created?_eq hcreated
      cases hd
      exact h.log.contains_of_covers ho (Operation.covers_id (h.log.sound ho).length_pos)

theorem admits_draft (h : doc.store.Coherent) (hsound : (doc.draft container action wallTime).Sound)
    (hresolvable : doc.registry.isResolvable container = true) :
    doc.store.Admits (doc.draft container action wallTime) := by
  refine ⟨⟨hsound, rfl, fun d hd => ?_⟩, hresolvable⟩
  have hin := contains_of_mem_draft h hresolvable hd
  obtain ⟨l, hl⟩ := h.log.contains_iff_lamport?.1 hin
  exact ⟨l, hl, h.log.lamport?_lt_next hl⟩

theorem canApply_draft (h : doc.store.Coherent)
    (hsound : (doc.draft container action wallTime).Sound)
    (hnamed : ∀ a ∈ (doc.draft container action wallTime).named,
      (doc.stateAt container).holds a = true) :
    (doc.registry.stateOf container).canApply (doc.draft container action wallTime) = true := by
  have hkind : (doc.registry.stateOf container).kind = container.kind := (h.stateOf container).1
  apply ContainerState.canApply_of_holds
  · rw [hkind]
    exact hsound.fits
  · intro a ha
    apply hnamed
    rw [Operation.named, ha]
    exact List.mem_append_left _ List.mem_cons_self

/-- The document with one more operation of its own. -/
def write (doc : Document) (op : Operation) : Document :=
  { doc with log := doc.log.push op, registry := doc.registry.absorb op }

/-- An edit changes nothing and has no operation to show, or it makes one that the store takes with
full effect, and tells the subscribers. -/
theorem edit_outcome (h : doc.store.Coherent) (container : ContainerId) (edit : Edit)
    (wallTime : Nat) :
    (∃ result, doc.edit container edit wallTime = ⟨doc, result, [], []⟩ ∧
      ∀ id, result ≠ .ok (some id)) ∨
      ∃ action, edit.action? (doc.stateAt container) = .ok (some action) ∧
        doc.store.Admits (doc.draft container action wallTime) ∧
        (∀ a ∈ (doc.draft container action wallTime).named,
          (doc.stateAt container).holds a = true) ∧
        doc.edit container edit wallTime =
          ⟨doc.write (doc.draft container action wallTime),
            .ok (some (doc.draft container action wallTime).id),
            (doc.write (doc.draft container action wallTime)).notify .edited [container]
              doc.version, []⟩ := by
  unfold Document.edit
  split
  · exact .inl ⟨_, rfl, fun id heq => by cases heq⟩
  · exact .inl ⟨_, rfl, fun id heq => by cases heq⟩
  · next action haction =>
    unfold commit
    split
    · exact .inl ⟨_, rfl, fun id heq => by cases heq⟩
    dsimp only
    split
    · exact .inl ⟨_, rfl, fun id heq => by cases heq⟩
    · next hsound =>
      cases hresolve : doc.registry.isResolvable container with
      | false =>
        left
        rw [Registry.isResolvable, Bool.or_eq_false_iff] at hresolve
        obtain ⟨hroot, hmissing⟩ := hresolve
        have hnone : doc.registry.get? container = none := by
          rw [OrderedMap.contains, Option.isSome_eq_false_iff, Option.isNone_iff_eq_none] at hmissing
          exact hmissing
        -- the check of the operation has passed, but nothing was put anywhere yet
        simp only [Registry.resolve, hnone, hroot]
        exact ⟨_, rfl, fun id heq => by cases heq⟩
      | true =>
        right
        have hadmits := admits_draft h hsound hresolve
        have hnamed : ∀ a ∈ (doc.draft container action wallTime).named,
            (doc.stateAt container).holds a = true :=
          (Edit.makes_of_action? haction).named
        have hcan := canApply_draft h hsound hnamed
        refine ⟨action, haction, hadmits, hnamed, ?_⟩
        have hregistry : ∀ state,
            (doc.registry.register container).set container state = doc.registry.set container state := by
          intro state
          refine Registry.ext fun id => ?_
          rw [Registry.get?_set, Registry.get?_set, Registry.get?_register]
          split <;> rfl
        have htake : (doc.registry.stateOf container).take (doc.draft container action wallTime) =
            (doc.registry.stateOf container).apply (doc.draft container action wallTime) := by
          rw [ContainerState.take, if_pos hcan]
        rw [Registry.resolve_eq hresolve]
        dsimp only
        -- the registry is changed by now: the log must not refuse what the document drafted
        have happend : doc.log.append (doc.draft container action wallTime) =
            .ok (doc.log.push (doc.draft container action wallTime)) :=
          Log.append_eq hadmits.log.next
        rw [hregistry, ← htake, happend]
        rfl

theorem edit_cases (h : doc.store.Coherent) (container : ContainerId) (edit : Edit) (wallTime : Nat) :
    (doc.edit container edit wallTime).document = doc ∨
      ∃ action, edit.action? (doc.stateAt container) = .ok (some action) ∧
        doc.store.Admits (doc.draft container action wallTime) ∧
        (∀ a ∈ (doc.draft container action wallTime).named,
          (doc.stateAt container).holds a = true) ∧
        (doc.edit container edit wallTime).document =
          doc.write (doc.draft container action wallTime) := by
  rcases edit_outcome h container edit wallTime with
    ⟨result, hedit, -⟩ | ⟨action, haction, hadmits, hnamed, hedit⟩
  · exact .inl (by rw [hedit])
  · exact .inr ⟨action, haction, hadmits, hnamed, by rw [hedit]⟩

end Document

end CausalDoc
