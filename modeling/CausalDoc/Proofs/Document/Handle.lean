import CausalDoc.Proofs.Store.Coherent

/- Handles on containers.

   A document is edited and read through handles, each on one container and of one kind. A
   handle can be had when the container is of that kind and can be used (`check_iff`), and
   it offers the edits of its kind only (`Edit.suits`). What it reads is the state of the
   container, whether anything was written to it or not. -/

namespace CausalDoc

/-- Whether a handle on a container of the kind offers the edit. -/
def Edit.suits : Edit → ContainerKind → Bool
  | insertValues .., .list | insertContainer .., .list | deleteRange .., .list => true
  | insertText .., .text | deleteRange .., .text => true
  | setField .., .map | setContainer .., .map => true
  | _, _ => false

namespace Document

variable {doc : Document} {id : ContainerId} {kind : ContainerKind}

theorem check_iff :
    doc.check id kind = .ok () ↔ id.kind = kind ∧ doc.registry.isResolvable id = true := by
  unfold check
  split
  · next hkind => simp [hkind]
  · next hkind =>
    rw [ne_eq, Decidable.not_not] at hkind
    split
    · next hresolvable => simp [hkind, hresolvable]
    · next hresolvable => simp [hresolvable]

theorem stateAt_list (h : doc.store.Coherent) (hkind : id.kind = .list) :
    doc.stateAt id = .list (doc.listAt id) := by
  unfold stateAt listAt
  cases hget : doc.registry.get? id with
  | none =>
    rw [hkind]
    rfl
  | some state =>
    have hstate := (h.kind hget).trans hkind
    cases state with
    | list s => rfl
    | map f => cases hstate
    | text s => cases hstate

theorem stateAt_text (h : doc.store.Coherent) (hkind : id.kind = .text) :
    doc.stateAt id = .text (doc.textAt id) := by
  unfold stateAt textAt
  cases hget : doc.registry.get? id with
  | none =>
    rw [hkind]
    rfl
  | some state =>
    have hstate := (h.kind hget).trans hkind
    cases state with
    | list s => cases hstate
    | map f => cases hstate
    | text s => rfl

theorem stateAt_map (h : doc.store.Coherent) (hkind : id.kind = .map) :
    doc.stateAt id = .map (doc.mapAt id) := by
  unfold stateAt mapAt
  cases hget : doc.registry.get? id with
  | none =>
    rw [hkind]
    rfl
  | some state =>
    have hstate := (h.kind hget).trans hkind
    cases state with
    | list s => cases hstate
    | map f => rfl
    | text s => cases hstate

end Document

end CausalDoc
