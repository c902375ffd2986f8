import CausalDoc.Document.Edit
import CausalDoc.Proofs.Checked.Sequence
import Mathlib.Tactic.SplitIfs

/- Containers with checked look-ups.

   An operation puts a run into a sequence, deletes elements of it, or writes a field, and
   an edit is turned into an action by reading the visible elements. Neither traps on a tidy
   container, if the operation has no flaw and applies. -/

namespace CausalDoc.Checked

def apply (state : ContainerState) (op : Operation) : Checked ContainerState :=
  match state, op.action with
  | .list s, .insert anchor (.values vs) => return .list (← insertRun s op.id op.stamp anchor vs)
  | .list s, .create (.after anchor) kind =>
    return .list (← insertRun s op.id op.stamp anchor [.container (.created op.id kind)])
  | .list s, .delete targets => return .list (← deleteAll s targets)
  | .text s, .insert anchor (.text t) =>
    return .text (← insertRun s op.id op.stamp anchor t.toList)
  | .text s, .delete targets => return .text (← deleteAll s targets)
  | state, _ => return state.apply op

def take (state : ContainerState) (op : Operation) : Checked ContainerState :=
  if state.canApply op then apply state op else return state

def anchorIn : ContainerState → Nat → Checked (Option AtomId)
  | .list s, index => anchorFor s index
  | .text s, index => anchorFor s index
  | .map _, _ => return none

def idsIn : ContainerState → Nat → Nat → Checked (List AtomId)
  | .list s, index, count => idsInRange s index count
  | .text s, index, count => idsInRange s index count
  | .map _, _, _ => return []

def action? (state : ContainerState) (edit : Edit) :
    Checked (Except DocumentError (Option Action)) := do
  match edit with
  | .insertValues index values =>
    if state.length < index then
      return .error (.indexOutOfBounds index state.length)
    else if values.isEmpty then
      return .ok none
    else
      return .ok (some (.insert (← anchorIn state index) (.values values)))
  | .insertText index text =>
    if state.length < index then
      return .error (.indexOutOfBounds index state.length)
    else if text.isEmpty then
      return .ok none
    else
      return .ok (some (.insert (← anchorIn state index) (.text text)))
  | .insertContainer index kind =>
    if state.length < index then
      return .error (.indexOutOfBounds index state.length)
    else
      return .ok (some (.create (.after (← anchorIn state index)) kind))
  | .deleteRange index count =>
    if state.length < index + count then
      return .error (.indexOutOfBounds (min (index + count) Edit.lastIndex) state.length)
    else if count = 0 then
      return .ok none
    else
      return .ok (some (.delete (← idsIn state index count)))
  | .setField key value => return .ok (some (.setField key value))
  | .setContainer key kind => return .ok (some (.create (.key key) kind))

/-- What an operation without a flaw inserts fits behind an element that is there. -/
theorem insertRun_of_reading {α : Type} {read : Operation → Option (Insertion α)}
    (hread : Reading read) {s : Sequence α} (h : s.Tidy) {op : Operation} (hop : op.Sound)
    {anchor : Option AtomId} {values : List α} (hi : read op = some ⟨anchor, values⟩)
    (hanchor : s.hasAnchor anchor = true) :
    insertRun s op.id op.stamp anchor values = .ok (s.insertRun op.id op.stamp anchor values) := by
  have hlength : values.length = op.length := hread.length hi
  have hstop := hop.stop_lt
  rw [Operation.stop] at hstop
  refine insertRun_eq h hanchor ?_ ?_
  · rw [hlength]
    exact hstop
  · rw [hlength]
    exact hop.lamport_lt

section Tidy

variable {state : ContainerState} (h : state.Tidy)

include h

theorem apply_eq {op : Operation} (hop : op.Sound) (hcan : state.canApply op = true) :
    apply state op = .ok (state.apply op) := by
  unfold apply ContainerState.apply
  unfold ContainerState.canApply at hcan
  -- only runs and deletions can trap, on the other actions both do the same
  cases state with
  | map f => cases op.action <;> rfl
  | list s =>
    cases haction : op.action with
    | insert anchor content =>
      cases content with
      | text t => rfl
      | values vs =>
        have hi : op.listInsertion? = some ⟨anchor, vs⟩ := by
          rw [Operation.listInsertion?, haction]
        rw [haction] at hcan
        dsimp only
        rw [insertRun_of_reading reading_list h hop hi hcan]
        rfl
    | delete targets =>
      dsimp only
      rw [deleteAll_eq h]
      rfl
    | setField key value => rfl
    | create slot kind =>
      cases slot with
      | key name => rfl
      | after anchor =>
        have hi : op.listInsertion? =
            some ⟨anchor, [.container (.created op.id kind)]⟩ := by
          rw [Operation.listInsertion?, haction]
        rw [haction] at hcan
        dsimp only
        rw [insertRun_of_reading reading_list h hop hi hcan]
        rfl
  | text s =>
    cases haction : op.action with
    | insert anchor content =>
      cases content with
      | values vs => rfl
      | text t =>
        have hi : op.textInsertion? = some ⟨anchor, t.toList⟩ := by
          rw [Operation.textInsertion?, haction]
        rw [haction] at hcan
        dsimp only
        rw [insertRun_of_reading reading_text h hop hi hcan]
        rfl
    | delete targets =>
      dsimp only
      rw [deleteAll_eq h]
      rfl
    | setField key value => rfl
    | create slot kind => cases slot <;> rfl

theorem take_eq {op : Operation} (hop : op.Sound) : take state op = .ok (state.take op) := by
  unfold take ContainerState.take
  split
  · next hcan => exact apply_eq h hop hcan
  · rfl

theorem anchorIn_eq (index : Nat) : anchorIn state index = .ok (state.anchorFor index) := by
  cases state with
  | map f => rfl
  | list s | text s => exact anchorFor_eq h index

theorem idsIn_eq (index count : Nat) :
    idsIn state index count = .ok (state.idsInRange index count) := by
  cases state with
  | map f => rfl
  | list s | text s => exact idsInRange_eq h index count

theorem action?_eq (edit : Edit) : action? state edit = .ok (edit.action? state) := by
  unfold action? Edit.action?
  cases edit with
  | insertValues index values | insertText index text | insertContainer index kind =>
    dsimp only
    rw [anchorIn_eq h]
    split_ifs <;> rfl
  | deleteRange index count =>
    dsimp only
    rw [idsIn_eq h]
    split_ifs <;> rfl
  | setField key value | setContainer key kind => rfl

end Tidy

end CausalDoc.Checked
